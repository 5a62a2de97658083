import Mathlib.Data.Char
import Mathlib.Data.List.Lex
import Vin64.Kernel.Vfs
import Vin64.Lib.OrderedSet

/-!
# The children of a node (`node_t` of `rammgr.h`)

`children_t` is the `std::set` of the children, sorted by their names as `stricmp` compares them.
-/

namespace Vin64.Kernel

open Vin64.Lib Vin64.Vram

def stricmp : List Char → List Char → Int
  | [], [] => 0
  | [], _ :: _ => -1
  | _ :: _, [] => 1
  | c :: l, d :: r =>
    if c.toLower < d.toLower then -1 else if d.toLower < c.toLower then 1 else stricmp l r

structure Child where
  /-- No two children have one number, also when one of them was erased before the other was
  made. -/
  id : Nat
  name : List Char
  mount : Option Nat
deriving Repr, DecidableEq

/-- `node_t::operator <` -/
def Child.Less (l r : Child) : Prop := stricmp l.name r.name < 0

instance : DecidableRel Child.Less := fun _ _ => inferInstanceAs (Decidable (stricmp _ _ < 0))

theorem stricmp_neg_iff (l r : List Char) : stricmp l r < 0 ↔ fold l < fold r := by
  induction l generalizing r with
  | nil =>
      cases r with
      | nil => simp [stricmp, fold]
      | cons d r => simp [stricmp, fold]
  | cons c l ih =>
      cases r with
      | nil => simp [stricmp, fold]
      | cons d r =>
          have hcons : fold (c :: l) < fold (d :: r) ↔
              c.toLower < d.toLower ∨ c.toLower = d.toLower ∧ fold l < fold r :=
            List.cons_lt_cons_iff
          rw [hcons, stricmp]
          rcases lt_trichotomy c.toLower d.toLower with hlt | heq | hgt
          · simp [hlt]
          · simp [heq, ih]
          · simp [hgt, hgt.not_gt, hgt.ne']

/-- The comparison of nodes compares the forms of their names. -/
theorem less_iff (l r : Child) : Child.Less l r ↔ fold l.name < fold r.name :=
  stricmp_neg_iff l.name r.name

theorem alike_iff {l r : Child} : Alike Child.Less l r ↔ fold l.name = fold r.name := by
  unfold Alike
  rw [less_iff, less_iff]
  constructor
  · intro h
    exact le_antisymm (not_lt.1 h.2) (not_lt.1 h.1)
  · intro h
    rw [h]
    exact ⟨lt_irrefl _, lt_irrefl _⟩

instance : IsStrictWeakOrder Child Child.Less where
  irrefl l h := lt_irrefl _ ((less_iff l l).1 h)
  trans l m r h h' := (less_iff l r).2 (((less_iff l m).1 h).trans ((less_iff m r).1 h'))
  incomp_trans _ _ _ h h' := alike_iff.2 ((alike_iff.1 h).trans (alike_iff.1 h'))

structure Children where
  /-- `_nodes` -/
  nodes : OrderedSet Child Child.Less
  /-- The number of the next child. -/
  next : Nat

namespace Children

/-- The node that the code compares with the children. -/
def tmp (s : Children) (name : List Char) : Child := ⟨s.next, name, none⟩

def getNode (s : Children) (name : List Char) : Option Child := s.nodes.find (s.tmp name)

def addChild (s : Children) (name : Option (List Char)) : Option Child × Children :=
  match name with
  | none => (none, s)
  | some name =>
    match s.nodes.find (s.tmp name) with
    | some it => (some it, s)
    | none => (some (s.tmp name), { nodes := s.nodes.insert (s.tmp name), next := s.next + 1 })

/-- `eraseChild` with a variable for the object, which the caller gets. -/
def eraseChild (s : Children) (name : Option (List Char)) :
    Option (Except HRESULT (Nat × Children)) :=
  match name with
  | none => some (.error .E_INVALIDARG)
  | some name =>
    match s.nodes.find (s.tmp name) with
    | none => some (.error (.win32 ERROR_FILE_NOT_FOUND))
    | some it =>
      match it.mount with
      | none => none
      | some ob => some (.ok (ob, { s with nodes := s.nodes.erase it }))

/-- `next` -/
def nextNode (s : Children) (p : Option Child) : Option Child :=
  if s.nodes.elements = [] then none
  else
    match p with
    | none => s.nodes.elements.head?
    | some p => s.nodes.upperBound p

/-- What `it->_mount` becomes. -/
def setMount (s : Children) (it : Child) (mount : Option Nat) : Children where
  nodes := s.nodes.map (fun e => if e.id = it.id then { e with mount := mount } else e)
    fun a b hab => by
      have hname : ∀ e : Child, (if e.id = it.id then { e with mount := mount } else e).name =
          e.name := by
        intro e
        split <;> rfl
      unfold Child.Less
      rw [hname, hname]
      exact hab
  next := s.next

/-- `it->mount(ob)` -/
def mount (s : Children) (it : Child) (ob : Option Nat) : Except HRESULT Children :=
  match ob, it.mount with
  | none, _ => .error .E_INVALIDARG
  | some _, some _ => .error .E_UNEXPECTED
  | some ob, none => .ok (s.setMount it (some ob))

/-- `it->unmount()` -/
def unmount (s : Children) (it : Child) : Except HRESULT Children :=
  match it.mount with
  | none => .error .E_UNEXPECTED
  | some _ => .ok (s.setMount it none)

/-- A node without children. -/
def new : Children := ⟨.empty, 0⟩

end Children

/-! ## Runs -/

inductive ChildCall where
  | addChild (name : Option (List Char))
  | getNode (name : List Char)
  | eraseChild (name : Option (List Char))
  /-- `mount` and `unmount` of the child that `getNode` gives for a name. -/
  | mount (name : List Char) (ob : Option Nat)
  | unmount (name : List Char)

namespace Children

/-- A call that fails leaves the children as they are. -/
def after (s : Children) : Except HRESULT Children → Children
  | .ok t => t
  | .error _ => s

def call (s : Children) : ChildCall → Option Children
  | .addChild name => some (s.addChild name).2
  | .getNode _ => some s
  | .eraseChild name => (s.eraseChild name).map fun r => s.after (r.map Prod.snd)
  | .mount name ob => (s.getNode name).map fun it => s.after (s.mount it ob)
  | .unmount name => (s.getNode name).map fun it => s.after (s.unmount it)

abbrev Step (s : Children) (c : ChildCall) (t : Children) : Prop := s.call c = some t

/-- What is expected of the children of a node. -/
structure ChildrenLaw (s : Children) : Prop where
  /-- No two names are equal up to case. -/
  distinct : s.nodes.elements.Pairwise fun e f => fold e.name ≠ fold f.name
  getNode : ∀ name e, s.getNode name = some e ↔
    e ∈ s.nodes.elements ∧ fold e.name = fold name
  addChild : ∀ name e, e ∈ s.nodes.elements → fold e.name = fold name →
    s.addChild (some name) = (some e, s)
  /-- `next` comes to every child once, in the order of the names, and then to nothing. -/
  visits : ∃ visited,
    OrderedSet.visits s.nextNode (s.nodes.elements.length + 1) none = some visited ∧
      (∀ e, e ∈ visited ↔ e ∈ s.nodes.elements) ∧ (visited.map Child.id).Nodup ∧
      visited.Pairwise fun e f => fold e.name < fold f.name

end Children

namespace Kvfs

/-- `s` has the children that the node at `p` has in the tree. -/
def HasChildren (fs : Kvfs) (p : NodePath) (s : Children) : Prop :=
  ∀ name, (fs.nodes (fold name :: p)).map (fun n => (n.name, n.mount)) =
    (s.getNode name).map fun e => (e.name, e.mount)

end Kvfs

end Vin64.Kernel
