import Vin64.Xv.Sharing

/-!
# Calls on values (`utils/txvalue.hpp`)

The constructors of `xvalue_t`, the overloads of `set` and what else replaces the pointer of a
value.  `out` counts the references that the caller holds, and those of the handles in a call
that runs.  `operator =` is `set`, and throws where that returns false.
-/

namespace Vin64.Xv

open Vin64.Lib Vin64.Utils

/-- The classes that `set` takes a pointer to. -/
inductive ComplexClass where
  | vObject | vArray | vStringA | vStringW | vBuffer
deriving Repr, DecidableEq

def ComplexClass.type : ComplexClass → ValueType
  | vObject => .dObject
  | vArray => .dArray
  | vStringA => .dLocalStr
  | vStringW => .dUniStr
  | vBuffer => .dBuffer

/-- What `set` takes. -/
inductive Arg where
  | null
  | integer (vs : ValueSize) (i : BitVec 64)
  | real (i : BitVec 64)
  | wstr (p : Option (List (BitVec 16)))
  | lstr (p : Option (List Byte))
  | block (data : Option (List Byte))
  | value (val : Nat)
  | unknown (p : Option Nat)
  | complex (c : ComplexClass) (p : Option Nat)
deriving Repr, DecidableEq

/-- The container that takes the key. -/
def Key.type : Key → ValueType
  | .index _ => .dArray
  | .name _ => .dObject

namespace ValueHeap

/-! ## References of the caller -/

/-- `_reference` -/
def hold (s : ValueHeap) (o : Nat) : Option ValueHeap := do
  let heap ← s.refs.heap.reference o
  some { s with refs := ⟨heap, RefRun.giveOut s.refs.out (some o)⟩ }

/-- `_release` -/
def letGo (s : ValueHeap) (o : Nat) : Option ValueHeap := do
  let heap ← s.refs.heap.release [o]
  some { s with refs := ⟨heap, RefRun.takeOver s.refs.out (some o)⟩ }

/-- An object that the caller makes and holds. -/
def newObject (s : ValueHeap) (c : Content) : ValueHeap :=
  { refs := ⟨s.refs.heap.setObject s.next ⟨1, c.members, true, false⟩,
      RefRun.giveOut s.refs.out (some s.next)⟩
    slots := s.slots
    contents := Function.update s.contents s.next c
    next := s.next + 1 }

/-! ## `set` -/

/-- The overloads of 16 bits read the integer instead. -/
def setInteger (s : ValueHeap) (pv : Nat) (vs : ValueSize) (i : BitVec 64) :
    Option (Bool × ValueHeap) := do
  let s ← s.valueSetType2 pv .dInt vs
  if vs = .s16 then some (true, s) else some (true, s.setSlot pv ⟨.dInt, vs, i⟩)

def setReal (s : ValueHeap) (pv : Nat) (i : BitVec 64) : Option (Bool × ValueHeap) := do
  let s ← s.valueSetType pv .dReal
  some (true, s.setSlot pv { s.slots pv with anyval := i })

/-- What is done while a `refp` on the object of the value is there. -/
def withHandle (s : ValueHeap) (pv : Nat) (body : ValueHeap → Nat → Option (Bool × ValueHeap)) :
    Option (Bool × ValueHeap) := do
  let o ← s.refs.pointee pv
  let s ← s.hold o
  let (b, s) ← body s o
  let s ← s.letGo o
  some (b, s)

def setStringW (s : ValueHeap) (pv : Nat) (p : Option (List (BitVec 16))) :
    Option (Bool × ValueHeap) := do
  let s ← s.valueSetType pv .dUniStr
  s.withHandle pv (assignW · · p)

def setStringA (s : ValueHeap) (pv : Nat) (lstr : Option (List Byte)) :
    Option (Bool × ValueHeap) := do
  let s ← s.valueSetType pv .dLocalStr
  s.withHandle pv (assignA · · lstr)

def setBlock (s : ValueHeap) (pv : Nat) (block : Option (List Byte)) :
    Option (Bool × ValueHeap) := do
  let s ← s.valueSetType pv .dBuffer
  s.withHandle pv (assignBuffer · · block)

/-- `return S_OK;` is false. -/
def setUnknown (s : ValueHeap) (pv : Nat) (p : Option Nat) : Option (Bool × ValueHeap) := do
  let s ← s.valueSetType pv .dUnknown
  match p with
  | none => some (false, s.setPointer pv none)
  | some o => (s.share pv o).map (false, ·)

def setComplex (s : ValueHeap) (pv : Nat) (c : ComplexClass) (p : Option Nat) :
    Option (Bool × ValueHeap) :=
  match p with
  | none => some (false, s)
  | some o => do
    let s ← s.valueSetType pv c.type
    (s.share pv o).map (true, ·)

def set (s : ValueHeap) (pv : Nat) : Arg → Option (Bool × ValueHeap)
  | .null => (s.valueSetType pv .dNull).map (true, ·)
  | .integer vs i => s.setInteger pv vs i
  | .real i => s.setReal pv i
  | .wstr p => s.setStringW pv p
  | .lstr p => s.setStringA pv p
  | .block data => s.setBlock pv data
  | .value val => s.valueSet val pv
  | .unknown p => s.setUnknown pv p
  | .complex c p => s.setComplex pv c p

variable (x : Header)

/-- `xvalue_t xo; if( !xo.set( elmt ) ) return false; return obj->set( name, xo );` -/
def setElmt (s : ValueHeap) (o : Nat) (key : Key) (elmt : Arg) : Option (Bool × ValueHeap) := do
  let xo := s.next
  match ← s.newValue.set xo elmt with
  | (false, s) => (s.destroyValue xo).map (false, ·)
  | (true, s) =>
    let (b, s) ← s.setElement x o key xo
    (s.destroyValue xo).map (b, ·)

/-- The templates for an element, with the copy of the element made. -/
def setCopied (s : ValueHeap) (pv : Nat) (key : Key) (elmt : Arg) : Option (Bool × ValueHeap) := do
  let s ← s.valueSetType pv key.type
  s.withHandle pv fun s o => s.setElmt x o key elmt

/-- The element is passed by value. -/
def setAt (s : ValueHeap) (pv : Nat) (key : Key) : Arg → Option (Bool × ValueHeap)
  | .value val => do
    let elmt := s.next
    let s ← s.newValue.assign val elmt
    let (b, s) ← s.setCopied x pv key (.value elmt)
    let s ← s.destroyValue elmt
    some (b, s)
  | elmt => s.setCopied x pv key elmt

/-! ## Constructors -/

/-- A constructor throws where `set` returns false, and no destructor is run. -/
def orThrow (pv : Nat) : Bool × ValueHeap → ValueHeap
  | (true, s) => s
  | (false, s) => s.eraseValue pv

def construct (s : ValueHeap) (arg : Arg) : Option ValueHeap :=
  (s.newValue.set s.next arg).map (orThrow s.next)

/-- The constructors that do not call `ValueInit` find what lies there; `anyval` shares its
place with the pointer. -/
def uninitialized (s : ValueHeap) (mem : Slot) : ValueHeap :=
  let pv := s.next
  match mem.type with
  | .dNull | .dInt | .dReal =>
    { (s.setPointer pv none).setSlot pv mem with next := s.next + 1 }
  | .dLocalStr | .dUtf8Str | .dUniStr | .dArray | .dObject | .dBuffer | .dUnknown =>
    let p := if mem.anyval = 0 then none else some mem.anyval.toNat
    { (s.setPointer pv p).setSlot pv { mem with anyval := 0 } with next := s.next + 1 }

def constructType (s : ValueHeap) (mem : Slot) (typ : ValueType) : Option ValueHeap :=
  (s.uninitialized mem).valueSetType s.next typ

def constructComplex (s : ValueHeap) (mem : Slot) (c : ComplexClass) (p : Option Nat) :
    Option ValueHeap :=
  ((s.uninitialized mem).setComplex s.next c p).map (orThrow s.next)

end ValueHeap

/-! ## Calls -/

inductive ValueCall where
  | construct (arg : Arg)
  | constructType (mem : Slot) (typ : ValueType)
  | constructComplex (mem : Slot) (c : ComplexClass) (p : Option Nat)
  | destruct (pv : Nat)
  | set (pv : Nat) (arg : Arg)
  | setAt (pv : Nat) (key : Key) (elmt : Arg)
  | changeType (pv : Nat) (typ : ValueType) (vs : ValueSize)
  | clear (pv : Nat)
  | newComplex (c : ComplexClass)
  | newUnknown
  | hold (o : Nat)
  | letGo (o : Nat)

namespace ValueHeap

def call (x : Header) (s : ValueHeap) : ValueCall → Option ValueHeap
  | .construct arg => s.construct arg
  | .constructType mem typ => s.constructType mem typ
  | .constructComplex mem c p => s.constructComplex mem c p
  | .destruct pv => s.destroyValue pv
  | .set pv arg => (s.set pv arg).map Prod.snd
  | .setAt pv key elmt => (s.setAt x pv key elmt).map Prod.snd
  | .changeType pv typ vs => s.valueSetType2 pv typ vs
  | .clear pv => s.valueClear pv
  | .newComplex c => (newContent c.type).map s.newObject
  | .newUnknown => some (s.newObject .unknown)
  | .hold o => s.hold o
  | .letGo o => s.letGo o

/-- The count of an object is the number of the values that point to it, elements of containers
among them, and of the references that the caller holds; the object is there until that is 0. -/
structure Counts (s : ValueHeap) : Prop where
  counted : ∀ o ob, s.refs.heap.objects o = some ob →
    ob.refCount.toInt = s.refs.heap.refps.count (some o) + s.refs.out o
  released : ∀ o ob, s.refs.heap.objects o = some ob →
    (ob.destroyed = true ↔ s.refs.heap.refps.count (some o) = 0 ∧ s.refs.out o = 0)
  held : ∀ pv o, s.refs.pointee pv = some o → s.refs.heap.alive o ≠ none

/-- `ValueSetType` keeps the value, or clears it without destroying it. -/
def Retypes (s : ValueHeap) (pv : Nat) (vt : ValueType) : Prop :=
  (s.slots pv).type = vt ∨ s.refs.Survives pv

/-- No count overflows: a call takes at most eight references to one object. -/
def HasRoom (s : ValueHeap) : Prop := ∀ o, s.refs.references o + 8 < 2147483648

end ValueHeap

namespace Arg

/-- What a program can pass: values that are there, and pointers to objects of the class. -/
def Legal (s : ValueHeap) : Arg → Prop
  | .value val => s.refs.Made val
  | .unknown p => ∀ o, p = some o → s.refs.heap.alive o ≠ none ∧ s.contents o = .unknown
  | .complex c p => ∀ o, p = some o →
      s.refs.heap.alive o ≠ none ∧ newContent c.type = some (s.contents o).blank
  | .null | .integer _ _ | .real _ | .wstr _ | .lstr _ | .block _ => True

/-- There is a constructor that calls `ValueInit` and `set`. -/
def Constructs : Arg → Prop
  | .unknown _ | .complex _ _ => False
  | .null | .integer _ _ | .real _ | .wstr _ | .lstr _ | .block _ | .value _ => True

/-- The pointer that the value had is released, and what is set does not go with it. -/
def Careful (s : ValueHeap) (pv : Nat) : Arg → Prop
  | .null => s.Retypes pv .dNull
  | .integer _ _ => s.Retypes pv .dInt
  | .real _ => s.Retypes pv .dReal
  | .wstr _ => s.Retypes pv .dUniStr
  | .lstr _ => s.Retypes pv .dLocalStr
  | .block _ => s.Retypes pv .dBuffer
  | .value val => s.refs.Survives pv ∧ ¬ s.refs.Goes pv val
  | .unknown p =>
      if (s.slots pv).type = .dUnknown then s.refs.pointee pv = none
      else s.refs.Survives pv ∧ ∀ o, p = some o → ¬ s.refs.Doomed pv o
  | .complex _ p => p = none

/-- The same for an element of the value, which is new or gets its value from a new one. -/
def CarefulAt (s : ValueHeap) (pv : Nat) (vt : ValueType) : Arg → Prop
  | .unknown p => (s.slots pv).type = vt ∨ ∀ o, p = some o → ¬ s.refs.Doomed pv o
  | .complex _ p => p = none
  | .null | .integer _ _ | .real _ | .wstr _ | .lstr _ | .block _ | .value _ => True

end Arg

namespace ValueCall

/-- The calls a program can make: elements are destroyed by their container only. -/
def Legal (s : ValueHeap) : ValueCall → Prop
  | .construct arg => arg.Constructs ∧ arg.Legal s
  | .constructType _ _ | .newComplex _ | .newUnknown => True
  | .constructComplex _ c p => (Arg.complex c p).Legal s
  | .destruct pv => s.refs.Made pv ∧ ∀ o, ¬ s.refs.MemberOf pv o
  | .set pv arg | .setAt pv _ arg => s.refs.Made pv ∧ arg.Legal s
  | .changeType pv _ _ | .clear pv => s.refs.Made pv
  | .hold o => s.refs.heap.alive o ≠ none
  | .letGo o => 0 < s.refs.out o

/-- A constructor does not throw after it made an object, and the ones that do not initialise the
value find nothing to release or to lose there. -/
def Careful (s : ValueHeap) : ValueCall → Prop
  | .construct (.block data) => data ≠ none
  | .constructType mem typ =>
      if mem.type = typ then newContent typ = none ∧ (typ = .dUnknown → mem.anyval = 0)
      else (newContent mem.type = none ∧ mem.type ≠ .dUnknown) ∨ mem.anyval = 0
  | .constructComplex mem c p => p = none ∨ mem.type = c.type
  | .set pv arg => arg.Careful s pv
  | .setAt pv key elmt => s.Retypes pv key.type ∧ elmt.CarefulAt s pv key.type
  | .changeType pv typ _ => s.Retypes pv typ
  | .clear pv => s.refs.Survives pv
  | .construct _ | .destruct _ | .newComplex _ | .newUnknown | .hold _ | .letGo _ => True

end ValueCall

end Vin64.Xv
