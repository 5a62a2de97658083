import Mathlib.Logic.Function.Basic

/-!
# Objects mounted on nodes (`include/vin64/kovfs.h`)

An object keeps the node it is attached to, and a node the object that is mounted on it.
-/

namespace Vin64.Ob

variable {O N : Type} [DecidableEq O] [DecidableEq N]

/-- `_node` of the objects and `_mounted` of the nodes; `alive` are the objects that exist. -/
structure Mounts (O N : Type) where
  node : O → Option N
  mounted : N → Option O
  alive : O → Bool

/-- A call of an object -/
inductive MountCall (O N : Type)
  | make (ob : O)
  | attach (ob : O) (node : N)
  | detech (ob : O)
  | destroy (ob : O)

namespace Mounts

/-- No object has been made yet. -/
def start : Mounts O N := ⟨fun _ => none, fun _ => none, fun _ => false⟩

def setNode (s : Mounts O N) (ob : O) (n : Option N) : Mounts O N :=
  { s with node := Function.update s.node ob n }

def setMounted (s : Mounts O N) (n : N) (ob : Option O) : Mounts O N :=
  { s with mounted := Function.update s.mounted n ob }

/-- `if( _node ) _node->_mounted = 0;` -/
def leave (s : Mounts O N) (ob : O) : Mounts O N :=
  match s.node ob with
  | none => s
  | some n => s.setMounted n none

def attach (s : Mounts O N) (ob : O) (node : N) : Mounts O N :=
  ((s.leave ob).setMounted node (some ob)).setNode ob (some node)

def detech (s : Mounts O N) (ob : O) : Mounts O N :=
  match s.node ob with
  | none => s
  | some _ => (s.leave ob).setNode ob none

/-- A call of an object that does not exist has no meaning, and an object is made once. -/
def step (s : Mounts O N) : MountCall O N → Option (Mounts O N)
  | .make ob =>
    if s.alive ob then none
    else some { s.setNode ob none with alive := Function.update s.alive ob true }
  | .attach ob node => if s.alive ob then some (s.attach ob node) else none
  | .detech ob => if s.alive ob then some (s.detech ob) else none
  | .destroy ob =>
    if s.alive ob then some { s.detech ob with alive := Function.update s.alive ob false }
    else none

/-! ## What the two pointers are for -/

/-- The node of an object is `n` exactly when the object is mounted on `n`. -/
def Linked (s : Mounts O N) : Prop :=
  ∀ ob n, (s.alive ob ∧ s.node ob = some n) ↔ s.mounted n = some ob

/-- A second object that is attached to a node detaches the first, and an object that is detached
takes only its own mount away. -/
def KeepsOthers (s : Mounts O N) (call : MountCall O N) (t : Mounts O N) : Prop :=
  match call with
  | .make _ => True
  | .attach ob n => ∀ other, other ≠ ob → s.mounted n = some other → t.node other = none
  | .detech ob => ∀ other n, other ≠ ob → s.mounted n = some other → t.mounted n = some other
  | .destroy ob => ∀ other n, other ≠ ob → s.mounted n = some other → t.mounted n = some other

/-- No object is attached to a node that has another one. -/
def AttachesFree (s : Mounts O N) : MountCall O N → Prop
  | .attach ob n => ∀ other, s.mounted n = some other → other = ob
  | _ => True

/-- The pointers are right after each call of a run, and each call leaves the others alone. -/
def AlwaysLinked : Mounts O N → List (MountCall O N) → Prop
  | s, [] => s.Linked
  | s, call :: calls =>
    s.Linked ∧ ∀ t, s.step call = some t → s.KeepsOthers call t ∧ AlwaysLinked t calls

/-- Every call of a run attaches to a free node, if it attaches. -/
def AlwaysFree : Mounts O N → List (MountCall O N) → Prop
  | _, [] => True
  | s, call :: calls =>
    ∀ t, s.step call = some t → s.AttachesFree call ∧ AlwaysFree t calls

end Mounts

end Vin64.Ob
