import Vin64.Xv.Reader
import Vin64.Xv.Writer

/-!
# Values that can be read back

`Value.Wf` holds of the values of the code.  `Value.Kept` holds of those that the bytes of the
writer describe completely.
-/

namespace Vin64.Xv

open Vin64.Utils

mutual

/-- The value that the reader is to return. -/
def Value.val : Value → Val
  | .null => .null
  | .int bsiz integer => .int bsiz integer
  | .real _ bits => .real bits
  | .localStr str => .localStr str
  | .utf8Str str => .utf8Str str
  | .uniStr str => .uniStr str
  | .array elements => .array (elementVals elements)
  | .object elements => .object (pairVals elements)
  | .buffer bytes => .buffer bytes

def elementVals : List (Nat × Value) → List (Nat × Val)
  | [] => []
  | (idx, item) :: elements => (idx, item.val) :: elementVals elements

def pairVals : List (List Byte × Value) → List (List Byte × Val)
  | [] => []
  | (name, item) :: elements => (name, item.val) :: pairVals elements

end

/-- The keys are in the order of the map. -/
def Sorted {κ : Type} (lt : κ → κ → Bool) (elements : List (κ × Value)) : Prop :=
  elements.Pairwise fun e e' => lt e.1 e'.1 = true

/-- A value whose strings, keys and contents are such as the code stores them. -/
inductive Value.Wf (MAX_KEY_LEN : Nat) (target : Target) : Value → Prop
  | null : Wf MAX_KEY_LEN target .null
  | int {bsiz : ValueSize} {integer : BitVec 64} : Wf MAX_KEY_LEN target (.int bsiz integer)
  | real {bsiz : ValueSize} {bits : BitVec 64} : Wf MAX_KEY_LEN target (.real bsiz bits)
  | localStr {str : List Byte} : (∀ c ∈ str, c ≠ 0) → Wf MAX_KEY_LEN target (.localStr str)
  | utf8Str {str : List Byte} : (∀ c ∈ str, c ≠ 0) → Wf MAX_KEY_LEN target (.utf8Str str)
  | uniStr {str : List (BitVec 16)} : (∀ c ∈ str, c ≠ 0) → Wf MAX_KEY_LEN target (.uniStr str)
  | array {elements : List (Nat × Value)} : Sorted (fun a b => a < b) elements →
    (∀ e ∈ elements, e.1 < 2 ^ target.sizeBits) → (∀ e ∈ elements, Wf MAX_KEY_LEN target e.2) →
    Wf MAX_KEY_LEN target (.array elements)
  | object {elements : List (List Byte × Value)} : Sorted nameLt elements →
    (∀ e ∈ elements, (∀ c ∈ e.1, c ≠ 0) ∧ e.1.length ≠ 0 ∧ e.1.length ≤ MAX_KEY_LEN) →
    (∀ e ∈ elements, Wf MAX_KEY_LEN target e.2) → Wf MAX_KEY_LEN target (.object elements)
  | buffer {bytes : List Byte} : bytes.length < 2 ^ target.sizeBits →
    Wf MAX_KEY_LEN target (.buffer bytes)

/-- The integer is what the bytes of its width say, and 0 when the width is `_16`. -/
def IntKept (bsiz : ValueSize) (integer : BitVec 64) : Prop :=
  (bsiz = .s16 → integer = 0) ∧ (integer.setWidth (8 * bsiz.bytes)).signExtend 64 = integer

/-- Nothing in the value is null or a UTF-8 string, the integers are kept, indices are less than
2^35 and buffers shorter than 2^32. -/
inductive Value.Kept : Value → Prop
  | int {bsiz : ValueSize} {integer : BitVec 64} : IntKept bsiz integer → Kept (.int bsiz integer)
  | real {bsiz : ValueSize} {bits : BitVec 64} : Kept (.real bsiz bits)
  | localStr {str : List Byte} : Kept (.localStr str)
  | uniStr {str : List (BitVec 16)} : Kept (.uniStr str)
  | array {elements : List (Nat × Value)} : (∀ e ∈ elements, e.1 < 2 ^ 35) →
    (∀ e ∈ elements, Kept e.2) → Kept (.array elements)
  | object {elements : List (List Byte × Value)} : (∀ e ∈ elements, Kept e.2) →
    Kept (.object elements)
  | buffer {bytes : List Byte} : bytes.length < 2 ^ 32 → Kept (.buffer bytes)

/-- Whatever lies behind the bytes that were written for the value, the reader gets the value back
from them and stops behind them. -/
def RoundTrips (l : TypeByte) (MAX_KEY_LEN : Nat) (target : Target) (v : Value)
    (bytes : List Byte) : Prop :=
  ∀ (s : List Byte) (src : Buffer) (fuel : Nat), src.bytes = bytes ++ s →
    src.bytes.length < 2 ^ target.sizeBits → src.bytes.length < fuel →
    ∃ t, fetch (l.header MAX_KEY_LEN target) src fuel 1 .start = some (.ok v.val, t) ∧
      t.current = bytes.length

/-- Whatever lies behind the bytes of an index, the reader gets the index back from them, stops
behind them and returns their number. -/
def IndexTrips (x : Header) (v : BitVec x.target.sizeBits) : Prop :=
  ∀ (s : List Byte) (src : Buffer) (t : Reader),
    src.bytes.drop t.current = writeLeb128 x.target v.toNat ++ s →
    ∃ u, fetchLeb128 x src 5 t = some (.ok ((writeLeb128 x.target v.toNat).length, v), u) ∧
      u.current = t.current + (writeLeb128 x.target v.toNat).length

end Vin64.Xv
