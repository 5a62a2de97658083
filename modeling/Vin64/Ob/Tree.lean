import Vin64.Kernel.Tokens

/-!
# Walks of the object tree (`include/vin64/kovfs.h`)

The operations of the nodes are parameters: their bodies are not there, or call themselves.  A
walk that uses a null pointer has no result.
-/

namespace Vin64.Ob

open Vin64.Kernel

def VFS_S_OK : Int := 0

def VIN_NO_ERROR : Int := 0
def VIN_PATH_NOT_FOUND : Int := 2
def VIN_NEED_REPARSE : Int := 3

/-- What a tree of type `T` with nodes of type `N` does. -/
structure NodeOps (T N : Type) where
  root : T → N
  parent : T → N → Option N
  get_node : T → N → List Char → Option N
  add_child : T → N → List Char → Option N × T
  /-- The target of the `KoSymbolLink` that is mounted on a node, if there is one. -/
  link : T → N → Option (List Char)

/-! ## `pather` -/

section

variable {σ : Type} (onPathPart : σ → List Char → Option (Int × σ))

/-- The loop of `parse`; the last component of the result is where `p` is left. -/
def parseLoop (s : σ) (p : List Char) : Option (Int × σ × List Char) :=
  if _h : p = [] then some (VFS_S_OK, s, [])
  else
    match onPathPart s (p.takeWhile (· != '\\')) with
    | none => none
    | some (lr, s) =>
      if lr < 0 then some (lr, s, skip_not_slash p)
      else parseLoop s (skip_slash (skip_not_slash p))
termination_by p.length
decreasing_by exact length_skip_lt _h

def parse (s : σ) (p : List Char) : Option (Int × σ × List Char) :=
  parseLoop onPathPart s (skip_slash p)

/-- Components that all report `VIN_NO_ERROR` lead from one state to another. -/
def LeadsTo : σ → List (List Char) → σ → Prop
  | s, [], t => s = t
  | s, dir :: dirs, t => ∃ s', onPathPart s dir = some (VIN_NO_ERROR, s') ∧ LeadsTo s' dirs t

/-- `parse` stops at the first component that reports anything else, and reports it. -/
def Reports (s : σ) (p : List Char) : Prop :=
  ∀ before dir rest t lr u, PartAt p before dir rest →
    LeadsTo onPathPart s (components before) t → onPathPart t dir = some (lr, u) →
    lr ≠ VIN_NO_ERROR → parse onPathPart s p = some (lr, u, rest)

end

namespace NodeOps

variable {T N : Type} (ops : NodeOps T N)

/-! ## `creator` and `finder` -/

/-- `creator::onPathPart`; the state is the tree with `_current`. -/
def creatorPart (force : Bool) (s : T × N) (dir : List Char) : Option (Int × T × N) :=
  let update :=
    if dir = ".".toList then some s.2
    else if dir = "..".toList then ops.parent s.1 s.2
    else ops.get_node s.1 s.2 dir
  let made : Option N × T :=
    match update with
    | some p => (some p, s.1)
    | none => if force then ops.add_child s.1 s.2 dir else (none, s.1)
  match made with
  | (none, t) => some (VIN_PATH_NOT_FOUND, t, s.2)
  | (some p, t) =>
    if (ops.link t p).isSome then some (VIN_PATH_NOT_FOUND, t, p)
    else some (VIN_NO_ERROR, t, p)

/-- `finder::onPathPart`; the state is `_current`, which may be null. -/
def finderPart (t : T) (reparse : Bool) (current : Option N) (dir : List Char) :
    Option (Int × Option N) :=
  let update : Option (Option N) :=
    if dir = ".".toList then some current
    else if dir = "..".toList then current.map (ops.parent t)
    else current.map fun n => ops.get_node t n dir
  match update with
  | none => none
  | some none => some (VIN_PATH_NOT_FOUND, none)
  | some (some p) =>
    if reparse && (ops.link t p).isSome then some (VIN_NEED_REPARSE, some p)
    else some (VIN_NO_ERROR, some p)

/-! ## `KsObTree` -/

/-- The loop of `get_node_by_path`; a walk that needs more than `fuel` rounds has no result. -/
def getNodeLoop (t : T) : Nat → Bool → Option N → List Char → Option (Option N)
  | 0, _, _, _ => none
  | fuel + 1, reparse, current, path =>
    if path = [] then some current
    else
      match parse (ops.finderPart t reparse) current path with
      | none => none
      | some (lr, current, path) =>
        if lr = VIN_NEED_REPARSE then
          match current.bind (ops.link t) with
          | none => none
          | some target =>
            match getNodeLoop t fuel true (some (ops.root t)) target with
            | none => none
            | some none => some none
            | some (some node) => getNodeLoop t fuel reparse (some node) (skip_slash path)
        else if lr < 0 then some none
        else getNodeLoop t fuel reparse current path

def get_node_by_path (t : T) (fuel : Nat) (path : List Char) (reparse : Bool) (root : Option N) :
    Option (Option N) :=
  ops.getNodeLoop t fuel reparse (some (root.getD (ops.root t))) path

/-! ## Walks that should succeed -/

/-- Where one component leads -/
def next (t : T) (n : N) (dir : List Char) : Option N :=
  if dir = ".".toList then some n
  else if dir = "..".toList then ops.parent t n
  else ops.get_node t n dir

/-- Where one component leads when the nodes that are missing are made -/
def reach (force : Bool) (t : T) (n : N) (dir : List Char) : Option N × T :=
  match ops.next t n dir with
  | some p => (some p, t)
  | none => if force then ops.add_child t n dir else (none, t)

/-- Every component leads to a node, and none of them is a link that is to be followed. -/
def Finds (t : T) (reparse : Bool) : N → List (List Char) → Prop
  | _, [] => True
  | n, dir :: dirs => ∃ p, ops.next t n dir = some p ∧
      ¬ (reparse = true ∧ (ops.link t p).isSome = true) ∧ Finds t reparse p dirs

/-- Every component leads to a node or makes one, and none of them is a link. -/
def Makes (force : Bool) : T → N → List (List Char) → Prop
  | _, _, [] => True
  | t, n, dir :: dirs => ∃ p t', ops.reach force t n dir = (some p, t') ∧
      ¬ (ops.link t' p).isSome = true ∧ Makes force t' p dirs

/-- What the finder is for: its reports stop `parse`, it never steps from a null pointer, a path
with an absent component has no node, and a link is reported to be parsed again. -/
structure FinderOk (t : T) (reparse : Bool) (n : N) (path : List Char) : Prop where
  reports : Reports (ops.finderPart t reparse) (some n) path
  steps : parse (ops.finderPart t reparse) (some n) path ≠ none
  absent : ∀ before dir rest m, PartAt path before dir rest →
    LeadsTo (ops.finderPart t reparse) (some n) (components before) (some m) →
    ops.next t m dir = none → ∃ fuel, ops.get_node_by_path t fuel path reparse (some n) = some none
  links : ∀ before dir rest m p, PartAt path before dir rest →
    LeadsTo (ops.finderPart t reparse) (some n) (components before) (some m) →
    ops.next t m dir = some p → reparse = true → (ops.link t p).isSome = true →
    parse (ops.finderPart t reparse) (some n) path = some (VIN_NEED_REPARSE, some p, rest)

/-- What the creator is for: its reports stop `parse`, and it never steps from a null pointer. -/
structure CreatorOk (force : Bool) (t : T) (n : N) (path : List Char) : Prop where
  reports : Reports (ops.creatorPart force) (t, n) path
  steps : parse (ops.creatorPart force) (t, n) path ≠ none

end NodeOps

end Vin64.Ob
