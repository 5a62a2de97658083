import Mathlib.Logic.Relation
import Vin64.Lib.KeyedGraph
import Vin64.Utils.Proofs.Refp
import Vin64.Xv.Heap

/-!
# What values hold

Values that share objects, or that hold themselves, are compared by what is seen from them: the
types, the widths and the characters, bytes or keys at the end of every path of keys.
-/

namespace Vin64.Xv

open Vin64.Lib Vin64.Utils

/-- What an object shows without its elements; an `IUnknown` shows which one it is. -/
inductive Surface where
  | stringA (str : List Byte)
  | stringW (str : List (BitVec 16))
  | buffer (bytes : List Byte)
  | array
  | object
  | unknown (o : Nat)
deriving DecidableEq

namespace Content

def surface (o : Nat) : Content → Surface
  | stringA str => .stringA str
  | stringW str => .stringW str
  | buffer bytes => .buffer bytes
  | array _ => .array
  | object _ => .object
  | unknown => .unknown o

/-- The content that the object of this class has at first. -/
def blank : Content → Content
  | stringA _ => stringA []
  | stringW _ => stringW []
  | buffer _ => buffer []
  | array _ => array .empty
  | object _ => object .empty
  | unknown => unknown

/-- What the operations leave in an object: characters up to a terminator, and keys that `set`
takes. -/
structure Valid (x : Header) (c : Content) : Prop where
  stringA : ∀ str, c = .stringA str → cstr str = str
  stringW : ∀ str, c = .stringW str → cstr str = str
  keys : ∀ key e, c.elements.find key = some e → c.accepts x key = true ∧ key.cstr = key

end Content

/-- What is found at a pointer is what the type says. -/
def Slot.Holds (v : Slot) : Option Content → Prop
  | none => newContent v.type = none ∧ (v.type = .dUnknown → v.anyval = 0)
  | some c => v.anyval = 0 ∧
      (newContent v.type = some c.blank ∨ v.type = .dUnknown ∧ c = .unknown)

namespace ValueHeap

structure Shown where
  slot : Slot
  object : Option Surface
deriving DecidableEq

/-- The values, with an edge to each element. -/
def view (s : ValueHeap) : KeyedGraph Nat Key Shown where
  child pv key := (s.refs.pointee pv).bind fun o => (s.contents o).elements.find key
  label pv := ⟨s.slots pv, (s.refs.pointee pv).map fun o => (s.contents o).surface o⟩

/-- The heap in which values and objects refer to each other as the operations leave it. -/
structure Linked (x : Header) (s : ValueHeap) : Prop where
  typed : ∀ l, s.refs.Made l → (s.slots l).Holds ((s.refs.pointee l).map s.contents)
  members : ∀ o ob, s.refs.heap.alive o = some ob → ob.members = (s.contents o).members
  made : ∀ l o, s.refs.MemberOf l o → s.refs.Made l
  home : ∀ l o o', s.refs.MemberOf l o → s.refs.MemberOf l o' → o = o'
  distinct : ∀ o ob, s.refs.heap.alive o = some ob → ob.members.Nodup
  valid : ∀ o ob, s.refs.heap.alive o = some ob → (s.contents o).Valid x
  freshValue : ∀ l, s.next ≤ l → ¬ s.refs.Made l
  freshObject : ∀ o, s.next ≤ o → s.refs.heap.objects o = none

/-- The counts of the objects are the numbers of references too, and fit into a `long`. -/
structure WellFormed (x : Header) (s : ValueHeap) : Prop extends Linked x s where
  sound : Balanced s.refs.heap.objects s.refs.references

/-! ## Assignments -/

/-- `ValueSet` returns true, so the assignment does not throw, and leaves what `vpIn` was. -/
def Assigns (s : ValueHeap) (vpIn vpOut : Nat) : Prop :=
  ∃ t, s.valueSet vpIn vpOut = some (true, t) ∧ s.assign vpIn vpOut = some t ∧
    t.view.SameAs vpOut s.view vpIn

/-- The reference that `vpOut` gives up keeps neither value alive, and what `vpIn` holds does not
hold `vpOut`, or shows no difference. -/
def Assignable (s : ValueHeap) (vpIn vpOut : Nat) : Prop :=
  if vpIn = vpOut then s.slots vpIn = .null
  else s.refs.Survives vpOut ∧ ¬ s.refs.Goes vpOut vpIn ∧
    (¬ s.view.Reaches vpIn vpOut ∨ s.view.SameAs vpIn s.view vpOut)

/-! ## Clones -/

/-- `ValueClone` returns true and leaves a value that is equal to `vpIn`. -/
def Clones (x : Header) (s : ValueHeap) (vpIn vpOut : Nat) : Prop :=
  ∃ t, s.valueClone x vpIn vpOut = some (true, t) ∧ t.view.SameAs vpOut t.view vpIn

/-- The value is not an empty buffer, and the reference that `vpOut` gives up keeps neither value
alive. -/
def Clonable (s : ValueHeap) (vpIn vpOut : Nat) : Prop :=
  (s.refs.pointee vpIn).map s.contents ≠ some (.buffer []) ∧
    s.refs.Survives vpOut ∧ ¬ s.refs.Goes vpOut vpIn

/-! ## Runs -/

end ValueHeap

inductive ValueOp where
  | construct
  | destruct (pv : Nat)
  | clearValue (pv : Nat)
  | setType (pv : Nat) (vt : ValueType)
  | setType2 (pv : Nat) (vt : ValueType) (vs : ValueSize)
  | setInteger (pv : Nat) (vs : ValueSize) (integer : BitVec 64)
  | setReal (pv : Nat) (real : BitVec 64)
  | set (vpIn vpOut : Nat)
  | clone (vpIn vpOut : Nat)
  | ref (o : Nat) (key : Key)
  | setElement (o : Nat) (key : Key) (item : Nat)
  | getElement (o : Nat) (key : Key) (item : Nat)
  | erase (o : Nat) (key : Key)
  | clear (o : Nat)
  | assignA (o : Nat) (str : Option (List Byte))
  | assignW (o : Nat) (str : Option (List (BitVec 16)))
  | assignBuffer (o : Nat) (p : Option (List Byte))
  | resize (o size : Nat)

namespace ValueOp

/-- The value that an operation is on. -/
def value : ValueOp → Option Nat
  | destruct pv | clearValue pv | setType pv _ | setType2 pv _ _ | setInteger pv _ _
  | setReal pv _ | set _ pv | clone _ pv | getElement _ _ pv => some pv
  | construct | ref _ _ | setElement _ _ _ | erase _ _ | clear _ | assignA _ _ | assignW _ _
  | assignBuffer _ _ | resize _ _ => none

/-- The object that an operation is on. -/
def object : ValueOp → Option Nat
  | ref o _ | setElement o _ _ | erase o _ | clear o | assignA o _ | assignW o _
  | assignBuffer o _ | resize o _ => some o
  | construct | destruct _ | clearValue _ | setType _ _ | setType2 _ _ _ | setInteger _ _ _
  | setReal _ _ | set _ _ | clone _ _ | getElement _ _ _ => none

end ValueOp

namespace ValueHeap

def step (x : Header) (s : ValueHeap) : ValueOp → Option ValueHeap
  | .construct => some s.newValue
  | .destruct pv => s.destroyValue pv
  | .clearValue pv => s.valueClear pv
  | .setType pv vt => s.valueSetType pv vt
  | .setType2 pv vt vs => s.valueSetType2 pv vt vs
  | .setInteger pv vs integer =>
    (s.valueSetType2 pv .dInt vs).map fun s => s.setSlot pv ⟨.dInt, vs, integer⟩
  | .setReal pv real =>
    (s.valueSetType pv .dReal).map fun s => s.setSlot pv { s.slots pv with anyval := real }
  | .set vpIn vpOut => (s.valueSet vpIn vpOut).map Prod.snd
  | .clone vpIn vpOut => (s.valueClone x vpIn vpOut).map Prod.snd
  | .ref o key => (s.ref x o key).map Prod.snd
  | .setElement o key item => (s.setElement x o key item).map Prod.snd
  | .getElement o key item => (s.getElement o key item).map Prod.snd
  | .erase o key => (s.eraseElement o key.cstr).map Prod.snd
  | .clear o => s.clear o
  | .assignA o str => (s.assignA o str).map Prod.snd
  | .assignW o str => (s.assignW o str).map Prod.snd
  | .assignBuffer o p => (s.assignBuffer o p).map Prod.snd
  | .resize o size => (s.resize o size).map Prod.snd

abbrev Step (x : Header) (s : ValueHeap) (op : ValueOp) (t : ValueHeap) : Prop :=
  s.step x op = some t

/-- An element is destroyed by its container only. -/
def Legal (s : ValueHeap) : ValueOp → Prop
  | .destruct pv => ∀ o, ¬ s.refs.MemberOf pv o
  | _ => True

/-- A bound on the references to one object that the operation takes; an element that is set
takes two, one of them for a temporary value. -/
def takes (s : ValueHeap) : ValueOp → Nat
  | .set _ _ | .getElement _ _ _ => 1
  | .setElement _ _ _ => 2
  | .clone vpIn _ =>
    2 * ((s.refs.pointee vpIn).elim [] fun o => (s.contents o).members).length + 1
  | _ => 0

/-- No count overflows. -/
def Roomy (s : ValueHeap) (op : ValueOp) : Prop :=
  ∀ o, s.refs.references o + s.takes op < 2147483648

/-- The heap before the first value. -/
def start : ValueHeap := ⟨RefRun.start, fun _ => .null, fun _ => .unknown, 0⟩

def Run (x : Header) : ValueHeap → ValueHeap → Prop :=
  Relation.ReflTransGen fun s t => ∃ op, s.Legal op ∧ s.Roomy op ∧ s.Step x op t

/-- The values that an operation writes. -/
def writes (s : ValueHeap) : ValueOp → List Nat
  | .setElement o key _ => ((s.contents o).elements.find key.cstr).toList
  | .erase o key => ((s.contents o).elements.find key.cstr).toList
  | .clear o => (s.contents o).members
  | op => op.value.toList

/-- The operation writes nothing that the value at `pv` holds. -/
def Apart (s : ValueHeap) (pv : Nat) (op : ValueOp) : Prop :=
  ∀ l, s.view.Reaches pv l → l ∉ s.writes op ∧ ∀ o, s.refs.pointee l = some o → op.object ≠ some o

/-- The object of the value, which an `IUnknown` is not. -/
def own (s : ValueHeap) (pv : Nat) : Option Nat :=
  if (s.slots pv).type = .dUnknown then none else s.refs.pointee pv

/-- The operation is on the value at `pv`, on the object `own` or on an element of it. -/
def On (s : ValueHeap) (pv : Nat) (own : Option Nat) (op : ValueOp) : Prop :=
  op.value = some pv ∨ ∃ o, own = some o ∧
    (op.object = some o ∨ ∃ e, op.value = some e ∧ s.refs.MemberOf e o)

/-- A run of operations, each on the value at `pv`, its object `own` or the elements of that, or
else on nothing that the value at `other` holds. -/
def Later (x : Header) (pv : Nat) (own : Option Nat) (other : Nat) : ValueHeap → ValueHeap → Prop :=
  Relation.ReflTransGen fun s t =>
    ∃ op, (s.On pv own op ∨ s.Apart other op) ∧ s.Legal op ∧ s.Roomy op ∧ s.Step x op t

/-- The object of the value has an element that leads back to it. -/
def HoldsItself (s : ValueHeap) (pv : Nat) : Prop :=
  ∃ key e l, s.view.child pv key = some e ∧ s.view.Reaches e l ∧
    s.refs.pointee l = s.refs.pointee pv

/-- No operation on something that `vpOut` holds changes what is seen from `vpIn`. -/
def Independent (x : Header) (s : ValueHeap) (vpIn vpOut : Nat) : Prop :=
  ∀ op l t, s.view.Reaches vpOut l → s.On l (s.refs.pointee l) op → s.Legal op → s.Roomy op →
    s.Step x op t → t.refs.Made vpIn → t.view.SameAs vpIn s.view vpIn

end ValueHeap

end Vin64.Xv
