import Mathlib.Data.List.Lex
import Mathlib.Order.Basic
import Vin64.Utils.Refp
import Vin64.Xv.Types

/-!
# Values that share objects (`utils/xvalue.imp.cpp`, `utils/txvalue.hpp`)

A `Value` of a type with an object is a counted reference to it, as a handle is: the pointer is
`m_p` of the handle at the address of the value, and the values in `_elements` are the handles
among the members of the container.  `none` is the outcome of an access to a destroyed object or
value, and of the exceptions of `xvalue_t`.  `new` does not return null.
-/

namespace Vin64.Xv

open Vin64.Lib Vin64.Utils

/-- A key of `_elements`. -/
inductive Key where
  | index (idx : Nat)
  | name (str : List Byte)
deriving Repr

namespace Key

/-- The keys of a map have the order of these lists. -/
def code : Key → List Nat
  | index idx => [0, idx]
  | name str => 1 :: str.map BitVec.toNat

theorem code_injective : Function.Injective code := by
  intro j k h
  cases j with
  | index i =>
      cases k with
      | index i' => simpa [code] using h
      | name str => simp [code] at h
  | name str =>
      cases k with
      | index i => simp [code] at h
      | name str' =>
          have hmap : str.map BitVec.toNat = str'.map BitVec.toNat := by simpa [code] using h
          rw [List.map_injective_iff.2 (fun _ _ => BitVec.eq_of_toNat_eq) hmap]

instance : LinearOrder Key := LinearOrder.lift' code code_injective

end Key

/-- What a pointer to the characters of `str` gives to read. -/
def cstr {n : Nat} (str : List (BitVec n)) : List (BitVec n) := str.takeWhile fun c => c ≠ 0

def Key.cstr : Key → Key
  | .index idx => .index idx
  | .name str => .name (Xv.cstr str)

/-- The data of an object; an element is the address of its value. -/
inductive Content where
  | stringA (str : List Byte)
  | stringW (str : List (BitVec 16))
  | buffer (bytes : List Byte)
  | array (elements : SortedMap Key Nat)
  | object (elements : SortedMap Key Nat)
  /-- `IUnknown` -/
  | unknown

namespace Content

def elements : Content → SortedMap Key Nat
  | array elements | object elements => elements
  | stringA _ | stringW _ | buffer _ | unknown => .empty

def setElements (c : Content) (elements : SortedMap Key Nat) : Content :=
  match c with
  | array _ => array elements
  | object _ => object elements
  | c => c

/-- The values among the members of the object. -/
def members (c : Content) : List Nat := c.elements.entries.map Prod.snd

/-- The keys that `ref` and `set` take. -/
def accepts (x : Header) : Content → Key → Bool
  | array _, .index _ => true
  | object _, .name str => ¬ (str.length = 0 ∨ str.length > x.MAX_KEY_LEN)
  | _, _ => false

end Content

/-- What `new` makes for a value of the type. -/
def newContent : ValueType → Option Content
  | .dLocalStr | .dUtf8Str => some (.stringA [])
  | .dUniStr => some (.stringW [])
  | .dArray => some (.array .empty)
  | .dObject => some (.object .empty)
  | .dBuffer => some (.buffer [])
  | .dNull | .dInt | .dReal | .dUnknown => none

/-- A `Value` but for its pointer; `anyval` is 0 where there is one. -/
structure Slot where
  type : ValueType
  bsiz : ValueSize
  anyval : BitVec 64
deriving Repr, DecidableEq

def Slot.null : Slot := ⟨.dNull, .s8, 0⟩

structure ValueHeap where
  refs : RefRun
  slots : Nat → Slot
  contents : Nat → Content
  /-- No value and no object is at an address from here on. -/
  next : Nat

namespace ValueHeap

def withHeap (s : ValueHeap) (heap : RefHeap) : ValueHeap := { s with refs := { s.refs with heap } }

def slot (s : ValueHeap) (pv : Nat) : Option Slot :=
  (s.refs.heap.refps.find pv).map fun _ => s.slots pv

def setSlot (s : ValueHeap) (pv : Nat) (v : Slot) : ValueHeap :=
  { s with slots := Function.update s.slots pv v }

def setPointer (s : ValueHeap) (pv : Nat) (p : Option Nat) : ValueHeap :=
  s.withHeap { s.refs.heap with refps := s.refs.heap.refps.assign pv p }

/-- The object that a call goes to. -/
def content (s : ValueHeap) (o : Nat) : Option Content :=
  (s.refs.heap.alive o).map fun _ => s.contents o

def setContent (s : ValueHeap) (o : Nat) (c : Content) : ValueHeap :=
  match s.refs.heap.objects o with
  | none => s
  | some ob => { s.withHeap (s.refs.heap.setObject o { ob with members := c.members }) with
      contents := Function.update s.contents o c }

/-! ## Values -/

def valueInit (s : ValueHeap) (pv : Nat) : ValueHeap := (s.setPointer pv none).setSlot pv .null

/-- `xvalue_t()` at an address where there is no value. -/
def newValue (s : ValueHeap) : ValueHeap := { s.valueInit s.next with next := s.next + 1 }

def valueClear (s : ValueHeap) (pv : Nat) : Option ValueHeap := do
  let v ← s.slot pv
  match v.type with
  | .dNull | .dInt | .dReal => some (s.valueInit pv)
  | .dLocalStr | .dUtf8Str | .dUniStr | .dArray | .dObject | .dBuffer | .dUnknown =>
    let heap ← s.refs.heap.dispose pv
    some ((s.withHeap heap).valueInit pv)

/-- There is no value at the address any more. -/
def eraseValue (s : ValueHeap) (pv : Nat) : ValueHeap :=
  s.withHeap { s.refs.heap with refps := s.refs.heap.refps.erase pv }

/-- `~xvalue_t` -/
def destroyValue (s : ValueHeap) (pv : Nat) : Option ValueHeap := do
  let s ← s.valueClear pv
  some (s.eraseValue pv)

/-- A new object, whose one reference `detach` gives to the value. -/
def newComplex (s : ValueHeap) (pv : Nat) (c : Content) : ValueHeap :=
  let s' := s.setPointer pv (some s.next)
  { s'.withHeap (s'.refs.heap.setObject s.next ⟨1, c.members, true, false⟩) with
    contents := Function.update s.contents s.next c
    next := s.next + 1 }

/-- It returns true. -/
def valueSetType2 (s : ValueHeap) (pv : Nat) (vt : ValueType) (vs : ValueSize) :
    Option ValueHeap := do
  let v ← s.slot pv
  if v.type = vt then some (s.setSlot pv { v with bsiz := vs })
  else
    let s ← s.valueClear pv
    let s := s.setSlot pv ⟨vt, vs, 0⟩
    match newContent vt with
    | none => some s
    | some c => some (s.newComplex pv c)

/-- It returns true; `ValueInit` left the width. -/
def valueSetType (s : ValueHeap) (pv : Nat) (vt : ValueType) : Option ValueHeap := do
  let v ← s.slot pv
  if v.type = vt then some s
  else
    let s ← s.valueClear pv
    let s := s.setSlot pv ⟨vt, .s8, 0⟩
    match newContent vt with
    | none => some s
    | some c => some (s.newComplex pv c)

/-- `vpOut->complex = o; vpOut->complex->_reference();` -/
def share (s : ValueHeap) (vpOut o : Nat) : Option ValueHeap := do
  let s := s.setPointer vpOut (some o)
  let heap ← s.refs.heap.reference o
  some (s.withHeap heap)

def valueSet (s : ValueHeap) (vpIn vpOut : Nat) : Option (Bool × ValueHeap) := do
  let s ← s.valueClear vpOut
  let v ← s.slot vpIn
  let s := s.setSlot vpOut ⟨v.type, v.bsiz, 0⟩
  match v.type with
  | .dNull | .dInt | .dReal => some (true, s.setSlot vpOut v)
  | .dLocalStr | .dUtf8Str | .dUniStr | .dArray | .dObject | .dBuffer =>
    match s.refs.pointee vpIn with
    | none => some (false, s)
    | some o => (s.share vpOut o).map (true, ·)
  | .dUnknown =>
    match s.refs.pointee vpIn with
    | none => some (true, s)
    | some o => (s.share vpOut o).map (true, ·)

/-- `operator =` and the copy constructor, which throw where `ValueSet` returns false. -/
def assign (s : ValueHeap) (r pv : Nat) : Option ValueHeap := do
  let (true, s) ← s.valueSet r pv | none
  some s

/-! ## Objects -/

/-- `_elements[key]` -/
def element (s : ValueHeap) (o : Nat) (key : Key) : Nat × ValueHeap :=
  match (s.contents o).elements.find key with
  | some e => (e, s)
  | none =>
    let c := (s.contents o).setElements ((s.contents o).elements.assign key s.next)
    (s.next, s.newValue.setContent o c)

variable (x : Header)

/-- A key that is not taken is an exception. -/
def ref (s : ValueHeap) (o : Nat) (key : Key) : Option (Nat × ValueHeap) := do
  let c ← s.content o
  if c.accepts x key.cstr then some (s.element o key.cstr) else none

def setElement (s : ValueHeap) (o : Nat) (key : Key) (item : Nat) : Option (Bool × ValueHeap) := do
  let c ← s.content o
  if c.accepts x key.cstr then
    -- the temporary `xvalue_t(item)`
    let tmp := s.next
    let s ← s.newValue.assign item tmp
    let (e, s) := s.element o key.cstr
    let s ← s.assign tmp e
    let s ← s.destroyValue tmp
    some (true, s)
  else some (false, s)

def getElement (s : ValueHeap) (o : Nat) (key : Key) (item : Nat) : Option (Bool × ValueHeap) := do
  let c ← s.content o
  match c.elements.find key.cstr with
  | none => some (false, s)
  | some e => s.valueSet e item

/-- The node goes after its value was destroyed. -/
def eraseElement (s : ValueHeap) (o : Nat) (key : Key) : Option (Bool × ValueHeap) := do
  let c ← s.content o
  match c.elements.find key with
  | none => some (false, s)
  | some e =>
    let s ← s.destroyValue e
    some (true, s.setContent o (c.setElements (c.elements.erase key)))

def eraseElements (s : ValueHeap) (o : Nat) : List Key → Option ValueHeap
  | [] => some s
  | key :: keys => do
    let (_, s) ← s.eraseElement o key
    s.eraseElements o keys

/-- A map destroys its nodes from the last one on. -/
def clear (s : ValueHeap) (o : Nat) : Option ValueHeap := do
  match ← s.content o with
  | .stringA _ => some (s.setContent o (.stringA []))
  | .stringW _ => some (s.setContent o (.stringW []))
  | .buffer _ => some (s.setContent o (.buffer []))
  | .array elements | .object elements =>
    s.eraseElements o (elements.entries.map Prod.fst).reverse
  | .unknown => none

/-- A null pointer leaves the string empty. -/
def assignA (s : ValueHeap) (o : Nat) (str : Option (List Byte)) : Option (Bool × ValueHeap) := do
  match ← s.content o with
  | .stringA _ => some (true, s.setContent o (.stringA (cstr (str.getD []))))
  | _ => none

def assignW (s : ValueHeap) (o : Nat) (str : Option (List (BitVec 16))) :
    Option (Bool × ValueHeap) := do
  match ← s.content o with
  | .stringW _ => some (true, s.setContent o (.stringW (cstr (str.getD []))))
  | _ => none

def assignBuffer (s : ValueHeap) (o : Nat) (p : Option (List Byte)) :
    Option (Bool × ValueHeap) := do
  match ← s.content o with
  | .buffer _ =>
    match p with
    | none => some (false, s)
    | some bytes => some (true, s.setContent o (.buffer bytes))
  | _ => none

def resize (s : ValueHeap) (o size : Nat) : Option (Bool × ValueHeap) := do
  match ← s.content o with
  | .buffer bytes =>
    let bytes := bytes.take size ++ List.replicate (size - bytes.length) 0
    some (true, s.setContent o (.buffer bytes))
  | _ => none

/-! ## Copies -/

/-- `valBuffer::base`, with the bytes that are there. -/
def base (bytes : List Byte) : Option (List Byte) := if bytes.isEmpty then none else some bytes

/-- The loop of `cloneTo`. -/
def setElements (s : ValueHeap) (po : Nat) : List (Key × Nat) → Option (Bool × ValueHeap)
  | [] => some (true, s)
  | (key, item) :: rest => do
    match ← s.setElement x po key item with
    | (true, s) => s.setElements po rest
    | (false, s) => some (false, s)

/-- The handle on `po` gives back the reference it takes. -/
def cloneTo (s : ValueHeap) (o po : Nat) : Option (Bool × ValueHeap) := do
  match ← s.content o with
  | .stringA str => s.assignA po (some str)
  | .stringW str => s.assignW po (some str)
  | .buffer bytes => s.assignBuffer po (base bytes)
  | .array elements | .object elements =>
    let s ← s.clear po
    s.setElements x po elements.entries
  | .unknown => none

def valueClone (s : ValueHeap) (vpIn vpOut : Nat) : Option (Bool × ValueHeap) := do
  let s ← s.valueClear vpOut
  let v ← s.slot vpIn
  let s ← s.valueSetType2 vpOut v.type v.bsiz
  match v.type with
  | .dNull | .dInt | .dReal => some (true, s.setSlot vpOut v)
  | .dLocalStr | .dUtf8Str | .dUniStr | .dArray | .dObject | .dBuffer =>
    match s.refs.pointee vpIn, s.refs.pointee vpOut with
    | some o, some po =>
      match ← s.cloneTo x o po with
      | (true, s) => some (true, s)
      | (false, s) => (s.valueClear vpOut).map (false, ·)
    | _, _ => (s.valueClear vpOut).map (false, ·)
  | .dUnknown =>
    match s.refs.pointee vpIn with
    | none => some (true, s)
    | some o => (s.share vpOut o).map (true, ·)

end ValueHeap

end Vin64.Xv
