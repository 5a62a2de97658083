import Mathlib.Logic.Function.Basic
import Vin64.Lib.NameTree
import Vin64.Lib.Run
import Vin64.Vram.Manager

/-!
# The tree of kernel objects (`vfs` and `kvfs` of `rammgr.h`)

A node is known by the names that lead to it from the root, the last name first, each in the
form in which `stricmp` compares it.  An object is its address.
-/

namespace Vin64.Kernel

open Vin64.Lib Vin64.Vram

def ERROR_FILE_NOT_FOUND : Nat := 2

/-- Names that are equal for `stricmp` have one form. -/
def fold (name : List Char) : List Char := name.map Char.toLower

abbrev NodePath := List (List Char)

structure KoMountable where
  /-- The target of a `KoSymbolLink`; other objects have none. -/
  target : Option (List Char)
  /-- `_node`, by the number of the node. -/
  node : Option Nat
deriving Repr, DecidableEq

structure Node where
  /-- No two nodes have one number, also when one of them was erased before the other was made. -/
  id : Nat
  name : List Char
  /-- `_parent`, by the number of the node. -/
  parent : Option Nat
  mount : Option Nat
deriving Repr, DecidableEq

structure Kvfs where
  nodes : NodePath → Option Node
  objects : Nat → KoMountable
  /-- Whether others than the tree refer to an object. -/
  held : Nat → Bool
  /-- The number of the next node. -/
  next : Nat

namespace Kvfs

/-- The constructor; no object has been made yet. -/
def new (objects : Nat → KoMountable) : Kvfs where
  nodes := fun p => if p = [] then some ⟨0, [], none, none⟩ else none
  objects := objects
  held := fun _ => false
  next := 1

/-! ## `node_t` -/

def parent : NodePath → Option NodePath
  | [] => none
  | _ :: q => some q

def getNode (fs : Kvfs) (p : NodePath) (name : List Char) : Option NodePath :=
  if (fs.nodes (fold name :: p)).isSome then some (fold name :: p) else none

def setNode (fs : Kvfs) (p : NodePath) (n : Node) : Kvfs :=
  { fs with nodes := Function.update fs.nodes p (some n) }

/-- `KoMountable::bindNode` -/
def bindNode (fs : Kvfs) (ob : Nat) (node : Option Nat) : Kvfs :=
  { fs with objects := Function.update fs.objects ob { fs.objects ob with node := node } }

def hold (fs : Kvfs) (ob : Nat) (is_held : Bool) : Kvfs :=
  { fs with held := Function.update fs.held ob is_held }

/-- The access to a node that is not in the tree has no meaning. -/
def mount (fs : Kvfs) (p : NodePath) (ob : Option Nat) : Option (Except HRESULT Kvfs) :=
  match fs.nodes p with
  | none => none
  | some n =>
    match ob, n.mount with
    | none, _ => some (.error .E_INVALIDARG)
    | some _, some _ => some (.error .E_UNEXPECTED)
    | some ob, none => some (.ok ((fs.setNode p { n with mount := some ob }).bindNode ob n.id))

def unmount (fs : Kvfs) (p : NodePath) : Option (Except HRESULT Kvfs) :=
  match fs.nodes p with
  | none => none
  | some n =>
    match n.mount with
    | none => some (.error .E_UNEXPECTED)
    | some ob => some (.ok ((fs.bindNode ob none).setNode p { n with mount := none }))

def addChild (fs : Kvfs) (p : NodePath) (name : Option (List Char)) : Option NodePath × Kvfs :=
  match name with
  | none => (none, fs)
  | some name =>
    match fs.getNode p name with
    | some q => (some q, fs)
    | none =>
      (some (fold name :: p),
        { fs.setNode (fold name :: p) ⟨fs.next, name, (fs.nodes p).map Node.id, none⟩ with
          next := fs.next + 1 })

/-- `_nodes.erase`: the child goes with all that is below it. -/
def erase (fs : Kvfs) (child : NodePath) : Kvfs :=
  { fs with nodes := fun q => if child <:+ q then none else fs.nodes q }

/-- `pp` is whether the caller passes a variable for the object of the child; it then has a
reference to this object. -/
def eraseChild (fs : Kvfs) (p : NodePath) (name : Option (List Char)) (pp : Bool) :
    Option (Except HRESULT Kvfs) :=
  match name with
  | none => some (.error .E_INVALIDARG)
  | some name =>
    match fs.nodes (fold name :: p) with
    | none => some (.error (.win32 ERROR_FILE_NOT_FOUND))
    | some child =>
      if pp then
        match child.mount with
        | none => none
        | some ob => some (.ok (((fs.bindNode ob none).hold ob true).erase (fold name :: p)))
      else
        -- `unmount` is called on the node, not on the child
        match fs.unmount p with
        | none => none
        | some (.error _) => some (.ok (fs.erase (fold name :: p)))
        | some (.ok fs') => some (.ok (fs'.erase (fold name :: p)))

/-- `p->parent()` of the node `n` at `p`; a pointer to another node than the one above has no
place. -/
def parentNode (fs : Kvfs) (p : NodePath) (n : Node) : Option (Option NodePath) :=
  match n.parent with
  | none => some none
  | some i =>
    match parent p with
    | none => none
    | some q => if (fs.nodes q).map Node.id = some i then some (some q) else none

/-- The loop of `getFullPath`. -/
def getFullPathLoop (fs : Kvfs) : Nat → Option NodePath → List Char → Option (List Char)
  | 0, _, _ => none
  | _ + 1, none, rName => some rName
  | fuel + 1, some p, rName =>
    match fs.nodes p with
    | none => none
    | some n =>
      match fs.parentNode p n with
      | none => none
      | some up => getFullPathLoop fs fuel up ('\\' :: (n.name ++ rName))

def getFullPath (fs : Kvfs) (fuel : Nat) (p : NodePath) (rName : List Char) : Option (List Char) :=
  getFullPathLoop fs fuel (some p) rName

/-- The target of the `KoSymbolLink` that is mounted on a node. -/
def linkTarget (fs : Kvfs) (p : NodePath) : Option (List Char) :=
  (fs.nodes p).bind fun n => n.mount.bind fun ob => (fs.objects ob).target

end Kvfs

/-! ## `pather` -/

def skip_slash (p : List Char) : List Char := p.dropWhile (· == '\\')

def skip_not_slash (p : List Char) : List Char := p.dropWhile (· != '\\')

theorem length_skip_lt {p : List Char} (h : p ≠ []) :
    (skip_slash (skip_not_slash p)).length < p.length := by
  unfold skip_slash skip_not_slash
  cases p with
  | nil => exact absurd rfl h
  | cons c p =>
      by_cases hc : c = '\\'
      · have htail := (p.dropWhile_suffix (· == '\\')).length_le
        have hdrop : ((c :: p).dropWhile (· != '\\')).dropWhile (· == '\\') =
            p.dropWhile (· == '\\') := by
          simp [hc]
        rw [hdrop, List.length_cons]
        omega
      · have hrest := (p.dropWhile_suffix (· != '\\')).length_le
        have hslash := ((p.dropWhile (· != '\\')).dropWhile_suffix (· == '\\')).length_le
        have hdrop : (c :: p).dropWhile (· != '\\') = p.dropWhile (· != '\\') := by
          simp [hc]
        rw [hdrop, List.length_cons]
        omega

variable {σ : Type}

/-- The loop of `parse`; the last component of the result is where `p` is left. -/
def parseLoop (onPathPart : σ → List Char → Int × σ) (s : σ) (p : List Char) :
    Int × σ × List Char :=
  if _h : p = [] then (0, s, [])
  else
    let part := onPathPart s (p.takeWhile (· != '\\'))
    if part.1 < 0 then (part.1, part.2, skip_not_slash p)
    else parseLoop onPathPart part.2 (skip_slash (skip_not_slash p))
termination_by p.length
decreasing_by exact length_skip_lt _h

def parse (onPathPart : σ → List Char → Int × σ) (s : σ) (p : List Char) : Int × σ × List Char :=
  parseLoop onPathPart s (skip_slash p)

def PATH_OK : Int := 0
def PATH_REPARSE_POINT_REACHED : Int := -1
def PATH_NOT_FOUND : Int := -2

structure Creator where
  fs : Kvfs
  current : NodePath
  force : Bool

def Creator.onPathPart (c : Creator) (dir : List Char) : Int × Creator :=
  let update :=
    if dir = ".".toList then some c.current
    else if dir = "..".toList then Kvfs.parent c.current
    else c.fs.getNode c.current dir
  let made :=
    match update with
    | some p => some (p, c.fs)
    | none =>
      if c.force then
        match c.fs.addChild c.current (some dir) with
        | (some p, fs) => some (p, fs)
        | (none, _) => none
      else none
  match made with
  | none => (PATH_NOT_FOUND, c)
  | some (p, fs) =>
    if (fs.linkTarget p).isSome then (PATH_REPARSE_POINT_REACHED, { c with fs := fs, current := p })
    else (PATH_OK, { c with fs := fs, current := p })

/-- The state of the finder is `_current`; once it is null it is not read. -/
def Kvfs.findPart (fs : Kvfs) (reparse : Bool) (current : NodePath) (dir : List Char) :
    Int × NodePath :=
  let update :=
    if dir = ".".toList then some current
    else if dir = "..".toList then Kvfs.parent current
    else fs.getNode current dir
  match update with
  | none => (PATH_NOT_FOUND, current)
  | some p =>
    if reparse && (fs.linkTarget p).isSome then (PATH_REPARSE_POINT_REACHED, p) else (PATH_OK, p)

/-! ## `kvfs`

A walk that goes on for more rounds than `fuel` allows has no result. -/

namespace Kvfs

/-- The loop of `createPath`; `none` as the node is a null pointer. -/
def createPathLoop (ob : Option Nat) : Nat → Creator → List Char → Option (Option NodePath × Kvfs)
  | 0, _, _ => none
  | fuel + 1, mkpath, path =>
    match parse Creator.onPathPart mkpath path with
    | (lr, mkpath, _) =>
      if lr = PATH_REPARSE_POINT_REACHED then
        match mkpath.fs.linkTarget mkpath.current with
        | none => none
        | some target => createPathLoop ob fuel { mkpath with current := [] } target
      else if lr < 0 then some (none, mkpath.fs)
      else
        match ob with
        | none => some (some mkpath.current, mkpath.fs)
        | some ob =>
          match mkpath.fs.mount mkpath.current (some ob) with
          | none => none
          | some (.error _) => some (none, mkpath.fs)
          | some (.ok fs) => some (some mkpath.current, fs)

/-- `force` is not passed to the creator, which has `true` of its own. -/
def createPath (fs : Kvfs) (fuel : Nat) (path : List Char) (_force : Bool) (ob : Option Nat)
    (root : Option NodePath) : Option (Option NodePath × Kvfs) :=
  createPathLoop ob fuel ⟨fs, root.getD [], true⟩ path

/-- The loop of `getNodeByPath` with the finder at `current`. -/
def getNodeByPathLoop (fs : Kvfs) : Nat → Bool → NodePath → List Char → Option (Option NodePath)
  | 0, _, _, _ => none
  | fuel + 1, reparse, current, path =>
    if path = [] then some (some current)
    else
      match parse (fs.findPart reparse) current path with
      | (lr, current, path) =>
        if lr = PATH_REPARSE_POINT_REACHED then
          match fs.linkTarget current with
          | none => none
          | some target =>
            match getNodeByPathLoop fs fuel true [] target with
            | none => none
            | some none => some none
            | some (some node) => getNodeByPathLoop fs fuel reparse node (skip_slash path)
        else if lr < 0 then some none
        else getNodeByPathLoop fs fuel reparse current path

def getNodeByPath (fs : Kvfs) (fuel : Nat) (path : List Char) (reparse : Bool)
    (root : Option NodePath) : Option (Option NodePath) :=
  getNodeByPathLoop fs fuel reparse (root.getD []) path

/-! ## Runs -/

/-- An object that others refer to or that is mounted; any other one is deleted. -/
def Live (fs : Kvfs) (ob : Nat) : Prop :=
  fs.held ob = true ∨ ∃ p n, fs.nodes p = some n ∧ n.mount = some ob

end Kvfs

inductive VfsCall where
  /-- The constructor of an object. -/
  | create (ob : Nat) (target : Option (List Char))
  | hold (ob : Nat)
  | release (ob : Nat)
  | mount (p : NodePath) (ob : Option Nat)
  | unmount (p : NodePath)
  | addChild (p : NodePath) (name : Option (List Char))
  | eraseChild (p : NodePath) (name : Option (List Char)) (pp : Bool)
  | createPath (path : List Char) (force : Bool) (ob : Option Nat) (root : Option NodePath)

namespace Kvfs

/-- The tree a call leaves: a call that fails leaves it as it is. -/
def after (fs : Kvfs) : Except HRESULT Kvfs → Kvfs
  | .ok fs' => fs'
  | .error _ => fs

/-- Callers pass nodes of the tree and live objects. -/
inductive Step : Kvfs → VfsCall → Kvfs → Prop
  | create {fs : Kvfs} {ob : Nat} (target : Option (List Char)) : ¬ fs.Live ob →
      Step fs (.create ob target)
        { fs with
          objects := Function.update fs.objects ob ⟨target, none⟩
          held := Function.update fs.held ob true }
  | hold {fs : Kvfs} {ob : Nat} : fs.Live ob → Step fs (.hold ob) (fs.hold ob true)
  | release (fs : Kvfs) (ob : Nat) : Step fs (.release ob) (fs.hold ob false)
  | mount {fs : Kvfs} {p : NodePath} {ob : Option Nat} {r : Except HRESULT Kvfs} :
      (∀ o ∈ ob, fs.Live o) → fs.mount p ob = some r → Step fs (.mount p ob) (fs.after r)
  | unmount {fs : Kvfs} {p : NodePath} {r : Except HRESULT Kvfs} : fs.unmount p = some r →
      Step fs (.unmount p) (fs.after r)
  | addChild {fs : Kvfs} {p : NodePath} (name : Option (List Char)) : (fs.nodes p).isSome →
      Step fs (.addChild p name) (fs.addChild p name).2
  | eraseChild {fs : Kvfs} {p : NodePath} {name : Option (List Char)} {pp : Bool}
      {r : Except HRESULT Kvfs} : (fs.nodes p).isSome → fs.eraseChild p name pp = some r →
      Step fs (.eraseChild p name pp) (fs.after r)
  | createPath {fs fs' : Kvfs} {fuel : Nat} {path : List Char} {force : Bool} {ob : Option Nat}
      {root r : Option NodePath} : (∀ o ∈ ob, fs.Live o) → (fs.nodes (root.getD [])).isSome →
      fs.createPath fuel path force ob root = some (r, fs') →
      Step fs (.createPath path force ob root) fs'

end Kvfs

end Vin64.Kernel
