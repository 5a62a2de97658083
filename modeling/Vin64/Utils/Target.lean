/-!
# Builds of the program
-/

namespace Vin64.Utils

inductive Target where
  | x86
  | x64
deriving Repr, DecidableEq

/-- The width of `SIZE_T`. -/
def Target.sizeBits : Target → Nat
  | .x86 => 32
  | .x64 => 64

end Vin64.Utils
