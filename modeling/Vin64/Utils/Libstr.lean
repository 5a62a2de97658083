import Mathlib.Algebra.Group.Nat.Defs

/-!
# Numbers as text (`utils/libstr.hpp`)

Characters are their codes: those of the digits fit every character type.  A buffer is the
list of the characters from `ptr` on.  The value type has `w` bits.
-/

namespace Vin64.Utils.Libstr

/-- `(2<=base && base<=36)` -/
def validArg (base : Nat) : Bool := 2 ≤ base && base ≤ 36

/-! ## `str2int` -/

/-- What a character adds to the number, with the tests of `__str2int`. -/
def digitValue (base ch : Nat) : Option Nat :=
  if base > 10 then
    if 0x30 ≤ ch ∧ ch ≤ 0x39 then some (ch - 0x30)
    else if 0x41 ≤ ch ∧ ch < 0x41 + base - 10 then some (ch - 0x41 + 10)
    else if 0x61 ≤ ch ∧ ch < 0x61 + base - 10 then some (ch - 0x61 + 10)
    else none
  else if 0x30 ≤ ch ∧ ch < 0x30 + base then some (ch - 0x30)
  else none

/-- `__str2int::convert`; a character behind the buffer is not read. -/
def convertStr (w base : Nat) : Nat → List Nat → Nat → Nat
  | 0, _, ret => ret
  | _ + 1, [], ret => ret
  | size + 1, ch :: ptr, ret =>
    match digitValue base ch with
    | none => ret
    | some d => convertStr w base size ptr ((ret * base + d) % 2 ^ w)

/-- The loop of `str2int` over the blanks in front -/
def skipBlanks : Nat → List Nat → Nat × List Nat
  | 0, ptr => (0, ptr)
  | size + 1, [] => (size + 1, [])
  | size + 1, ch :: ptr => if 0x20 = ch then skipBlanks size ptr else (size + 1, ch :: ptr)

def str2int (w base : Nat) (ptr : List Nat) (size : Nat) : Nat :=
  let rest := skipBlanks size ptr
  if validArg base then convertStr w base rest.1 rest.2 0 else 0

/-! ## `int2str` -/

def digitChar (base cur : Nat) : Nat :=
  if base > 10 then if cur < 10 then cur + 0x30 else cur - 10 + 0x41
  else cur + 0x30

/-- The first loop of `__int2str`; the number counts the characters up to `ptrend`. -/
def putDigits (base : Nat) : Nat → Nat → List Nat → Nat × Nat × List Nat
  | 0, val, ptr => (0, val, ptr)
  | n + 1, val, ptr =>
    if 0 = val then (n + 1, val, ptr)
    else putDigits base n (val / base) (ptr.set n (digitChar base (val % base)))

/-- `while(ptrend >= ptr) *ptrend-- = 0x30;` -/
def putZeros : Nat → List Nat → List Nat
  | 0, ptr => ptr
  | n + 1, ptr => putZeros n (ptr.set n 0x30)

/-- The result and the buffer after the call -/
def int2str (base val : Nat) (ptr : List Nat) (size : Nat) : Bool × List Nat :=
  if validArg base then
    let put := putDigits base (size - 1) val (ptr.set (size - 1) 0)
    if 0 = put.2.1 then (true, putZeros put.1 put.2.2) else (false, put.2.2)
  else (false, ptr)

/-! ## Positional notation -/

/-- The last `n` digits of a number, the first of them in front. -/
def paddedDigits (base : Nat) : Nat → Nat → List Nat
  | 0, _ => []
  | n + 1, val => paddedDigits base n (val / base) ++ [val % base]

/-- The number that digits stand for, behind `ret`. -/
def digitsValue (base ret : Nat) (ds : List Nat) : Nat := ds.foldl (fun ret d => ret * base + d) ret

end Vin64.Utils.Libstr
