import Vin64.Xv.Reader

/-!
# The fields of a buffer

Where the values, counts, indices, keys and strings of a buffer lie, apart from the code that
reads them.  `Spans` holds of the ends of a complete value, `Opens` where a value holds a string
without contents that no zero character follows.
-/

namespace Vin64.Xv

variable (x : Header) (bytes : List Byte)

/-- The number of `size` bytes at `i`. -/
def numberAt (size i : Nat) : Option Nat :=
  if i + size ≤ bytes.length then some (ofBytes ((bytes.drop i).take size)) else none

def typeAt (i : Nat) : Option Byte := (numberAt bytes 1 i).map (BitVec.ofNat 8)

/-- The end of `n` bytes at `i`. -/
def bytesEnd (n i : Nat) : Option Nat := if i + n ≤ bytes.length then some (i + n) else none

/-- The count at `i` and its end. -/
def countAt (vt : Byte) (i : Nat) : Option (Nat × Nat) := do
  let bsiz ← x.bsiz vt
  let n ← numberAt bytes bsiz.bytes i
  return (n, i + bsiz.bytes)

/-- The end of the index at `i`: its last byte has the high bit, or is the `n`-th one. -/
def indexEnd : Nat → Nat → Option Nat
  | 0, i => some i
  | n + 1, i => do
    let b ← numberAt bytes 1 i
    if b < 0x80 then indexEnd n (i + 1) else return i + 1

/-- The end of the key at `i`; its last character is zero. -/
def keyEnd (i : Nat) : Option Nat := do
  let cch ← numberAt bytes 1 i
  let j := i + 1 + cch
  if cch = 0 ∨ bytes.length < j ∨ numberAt bytes 1 (j - 1) ≠ some 0 then none else return j

/-- The name in the key at `i` has a length that is allowed. -/
def NameOk (i : Nat) : Prop :=
  ∃ name, charsAt bytes 1 (bytes.length + 1) (i + 1) = some name ∧
    ¬ (name.length = 0 ∨ x.MAX_KEY_LEN < name.length)

/-- The start and the end of the contents of the string at `i`.  The character in front of the
end is zero, also when there are no contents. -/
def stringAt (size : Nat) (vt : Byte) (i : Nat) : Option (Nat × Nat) := do
  let (cch, h) ← countAt x bytes vt i
  let j := h + x.sizeT (size * x.sizeT cch)
  if bytes.length < j ∨ numberAt bytes size (j - size) ≠ some 0 then none else return (h, j)

/-- A zero character stands at `h` or behind it. -/
def Terminated (size h : Nat) : Prop := ∃ k, numberAt bytes size (h + size * k) = some 0

/-- The size of the characters of a string. -/
def charSize : ValueType → Option Nat
  | .dLocalStr | .dUtf8Str => some 1
  | .dUniStr => some 2
  | _ => none

/-- The end of a value that is neither a string nor holds other values, behind its type. -/
def leafEnd (vt : Byte) (i : Nat) : Option Nat :=
  match x.type vt with
  | some .dNull => some i
  | some .dInt => do
    let bsiz ← x.bsiz vt
    bytesEnd bytes bsiz.bytes i
  | some .dReal => bytesEnd bytes 8 i
  | some .dBuffer => do
    let (ccb, h) ← countAt x bytes vt i
    bytesEnd bytes (x.sizeT ccb) h
  | _ => none

/-- A value, or what is left of the elements or of the pairs of a container. -/
inductive Part where
  | value
  | elements (n : Nat)
  | pairs (n : Nat)

/-- The part lies between `i` and `j`. -/
inductive Spans : Part → Nat → Nat → Prop
  | leaf {i j : Nat} {vt : Byte} : typeAt bytes i = some vt → leafEnd x bytes vt (i + 1) = some j →
    Spans .value i j
  | str {i h j size : Nat} {vt : Byte} {typ : ValueType} : typeAt bytes i = some vt →
    x.type vt = some typ → charSize typ = some size →
    stringAt x bytes size vt (i + 1) = some (h, j) → Terminated bytes size h → Spans .value i j
  | array {i h j n : Nat} {vt : Byte} : typeAt bytes i = some vt → x.type vt = some .dArray →
    countAt x bytes vt (i + 1) = some (n, h) → Spans (.elements n) h j → Spans .value i j
  | object {i h j n : Nat} {vt : Byte} : typeAt bytes i = some vt → x.type vt = some .dObject →
    countAt x bytes vt (i + 1) = some (n, h) → Spans (.pairs n) h j → Spans .value i j
  | noElement {i : Nat} : Spans (.elements 0) i i
  | element {i p q j n : Nat} : indexEnd bytes 5 i = some p → Spans .value p q →
    Spans (.elements n) q j → Spans (.elements (n + 1)) i j
  | noPair {i : Nat} : Spans (.pairs 0) i i
  | pair {i p q j n : Nat} : keyEnd bytes i = some p → Spans .value p q → NameOk x bytes i →
    Spans (.pairs n) q j → Spans (.pairs (n + 1)) i j

/-- In the part at `i`, behind complete values, there is a string that is not terminated. -/
inductive Opens : Part → Nat → Prop
  | str {i h j size : Nat} {vt : Byte} {typ : ValueType} : typeAt bytes i = some vt →
    x.type vt = some typ → charSize typ = some size →
    stringAt x bytes size vt (i + 1) = some (h, j) → ¬ Terminated bytes size h → Opens .value i
  | array {i h n : Nat} {vt : Byte} : typeAt bytes i = some vt → x.type vt = some .dArray →
    countAt x bytes vt (i + 1) = some (n, h) → Opens (.elements n) h → Opens .value i
  | object {i h n : Nat} {vt : Byte} : typeAt bytes i = some vt → x.type vt = some .dObject →
    countAt x bytes vt (i + 1) = some (n, h) → Opens (.pairs n) h → Opens .value i
  | element {i p n : Nat} : indexEnd bytes 5 i = some p → Opens .value p →
    Opens (.elements (n + 1)) i
  | nextElement {i p q n : Nat} : indexEnd bytes 5 i = some p → Spans x bytes .value p q →
    Opens (.elements n) q → Opens (.elements (n + 1)) i
  | pair {i p n : Nat} : keyEnd bytes i = some p → Opens .value p → Opens (.pairs (n + 1)) i
  | nextPair {i p q n : Nat} : keyEnd bytes i = some p → Spans x bytes .value p q →
    NameOk x bytes i → Opens (.pairs n) q → Opens (.pairs (n + 1)) i

/-- `ValueLoad` ends, and it reads nothing outside the buffer. -/
def ReadsInside : Prop :=
  ∀ fuel, bytes.length < fuel →
    ∃ r t, valueLoad x ⟨bytes, []⟩ fuel .start = some (r, t) ∧ r ≠ .error .fault

end Vin64.Xv
