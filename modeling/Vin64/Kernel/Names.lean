import Vin64.Kernel.Vfs

/-!
# What the tree of kernel objects is for

Paths name the places of a tree of names, and each object knows the node it is mounted on.
-/

namespace Vin64.Kernel

open Vin64.Lib

/-- The runs of characters between slashes. -/
def components (path : List Char) : List (List Char) :=
  (path.splitOnP (· == '\\')).filter (· ≠ [])

/-- The root has no parent; the creator makes a node of this name for it. -/
def above : List Char := "..".toList

def partOf (dir : List Char) : PathPart (List Char) :=
  if dir = ".".toList then .here else if dir = "..".toList then .up else .down (fold dir)

def parts (path : List Char) : List (PathPart (List Char)) := (components path).map partOf

namespace Kvfs

def names (fs : Kvfs) : NameTree (List Char) where
  has := fun p => (fs.nodes p).isSome
  link := fun p => (fs.linkTarget p).map parts

structure WellFormed (fs : Kvfs) : Prop where
  root : (fs.nodes []).isSome
  parent : ∀ a q, (fs.nodes (a :: q)).isSome → (fs.nodes q).isSome
  fresh : ∀ p n, fs.nodes p = some n → n.id < fs.next
  distinct : ∀ p q n m, fs.nodes p = some n → fs.nodes q = some m → n.id = m.id → p = q

def Mounted (fs : Kvfs) (p : NodePath) (ob : Nat) : Prop :=
  ∃ n, fs.nodes p = some n ∧ n.mount = some ob

/-- The object is bound to a node exactly when this node is in the tree, with the object. -/
def BoundAt (fs : Kvfs) (ob : Nat) : Prop :=
  ∀ i, (fs.objects ob).node = some i ↔ ∃ p n, fs.nodes p = some n ∧ n.id = i ∧ n.mount = some ob

def Bound (fs : Kvfs) : Prop := ∀ ob, fs.Live ob → fs.BoundAt ob

/-- A place where an object can be mounted. -/
def Vacant (fs : Kvfs) (p : NodePath) : Prop := ∀ ob, ¬ fs.Mounted p ob

/-- An object is not mounted a second time, and what is erased has no object that others refer
to, apart from the one that the caller asks for. -/
def Orderly (fs : Kvfs) : VfsCall → Prop
  | .mount p (some ob) => fs.Vacant p → ∀ q, ¬ fs.Mounted q ob
  | .createPath path _ (some ob) root => ∀ n made dropped,
      fs.names.Makes above (root.getD []) (parts path) n made dropped → fs.Vacant n →
        ∀ q, ¬ fs.Mounted q ob
  | .eraseChild p (some name) pp => ∀ q ob, fold name :: p <:+ q → fs.Mounted q ob →
      fs.held ob = true → pp = true ∧ q = fold name :: p
  | _ => True

end Kvfs

end Vin64.Kernel
