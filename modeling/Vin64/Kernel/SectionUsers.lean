import Mathlib.Data.Finset.Basic
import Vin64.Lib.Run

/-!
# Sections and their users (`pagetable.h`)

The link between a section and its users: `_section` of a `KoSectionUser` and `_users` of a
`KoSection`.  Users and sections are their addresses; `none` is an access through null.
-/

namespace Vin64.Kernel

open Vin64.Lib

structure KoSectionUser where
  section_ : Option Nat
  /-- The fields of a `UoView`. -/
  off : BitVec 64
  size : BitVec 64

structure KoSection where
  users : Finset Nat
  size : BitVec 64
  /-- Whether `destroy` was called. -/
  destroyed : Bool

structure Links where
  users : Nat → KoSectionUser
  sections : Nat → KoSection

namespace Links

def setUser (s : Links) (u : Nat) (user : KoSectionUser) : Links :=
  { s with users := Function.update s.users u user }

def setSection (s : Links) (x : Nat) (sec : KoSection) : Links :=
  { s with sections := Function.update s.sections x sec }

def insertUser (s : Links) (x u : Nat) : Links :=
  s.setSection x { s.sections x with users := insert u (s.sections x).users }

def removeUser (s : Links) (x u : Nat) : Links :=
  s.setSection x { s.sections x with users := (s.sections x).users.erase u }

/-- `KoSectionUser::create` -/
def userCreate (s : Links) (u : Nat) (sec : Option Nat) : Bool × Links :=
  match sec, (s.users u).section_ with
  | some x, none => (true, (s.setUser u { s.users u with section_ := some x }).insertUser x u)
  | _, _ => (false, s)

/-- `KoSectionUser::close` -/
def userClose (s : Links) (u : Nat) : Bool × Links :=
  let s' := match (s.users u).section_ with
    | some x => s.removeUser x u
    | none => s
  (true, s'.setUser u { s'.users u with section_ := none })

/-- `UoView::create` -/
def viewCreate (s : Links) (u : Nat) (sec : Option Nat) (off size : BitVec 64) :
    Option (Bool × Links) :=
  match sec with
  | none => none
  | some x =>
    let vend := off + size
    if vend ≥ (s.sections x).size then some (false, s)
    else
      match s.userCreate u (some x) with
      | (false, s) => some (false, s)
      | (true, s) => some (true, s.setUser u { s.users u with off := off, size := size })

/-- `UoView::close` -/
def viewClose (s : Links) (u : Nat) : Bool × Links :=
  (s.setUser u { s.users u with off := 0, size := 0 }).userClose u

/-- `UoView::onSectionBlockInvalid`; the offset in the view that it reports, if it does not return
at once. -/
def viewBlockInvalid (s : Links) (u : Nat) (off : BitVec 64) : Option (BitVec 64) :=
  if off < (s.users u).off then none
  else
    let voff := off - (s.users u).off
    some voff

/-- `KoSection::close`; the blocks it frees have no part in the link. -/
def sectionClose (s : Links) (x : Nat) : Bool × Links := ((s.sections x).users = ∅, s)

/-- `KoSection::create` -/
def sectionCreate (s : Links) (x : Nat) (size : BitVec 64) : Bool × Links :=
  (true, s.setSection x { s.sections x with size := size })

/-- `KoSection::destroy` -/
def sectionDestroy (s : Links) (x : Nat) : Links :=
  ((s.setSection x { s.sections x with users := ∅, destroyed := true }).sectionClose x).2

end Links

inductive LinkCall where
  | userCreate (u : Nat) (sec : Option Nat)
  | userClose (u : Nat)
  | viewCreate (u : Nat) (sec : Option Nat) (off size : BitVec 64)
  | viewClose (u : Nat)
  | sectionCreate (x : Nat) (size : BitVec 64)
  | sectionClose (x : Nat)
  | sectionDestroy (x : Nat)

namespace Links

def call (s : Links) : LinkCall → Option Links
  | .userCreate u sec => some (s.userCreate u sec).2
  | .userClose u => some (s.userClose u).2
  | .viewCreate u sec off size => (s.viewCreate u sec off size).map Prod.snd
  | .viewClose u => some (s.viewClose u).2
  | .sectionCreate x size => some (s.sectionCreate x size).2
  | .sectionClose x => some (s.sectionClose x).2
  | .sectionDestroy x => some (s.sectionDestroy x)

abbrev Step (s : Links) (c : LinkCall) (t : Links) : Prop := s.call c = some t

/-- Users and sections as the constructors leave them; the other fields hold anything. -/
structure Fresh (s : Links) : Prop where
  users : ∀ u, (s.users u).section_ = none
  sections : ∀ x, (s.sections x).users = ∅ ∧ (s.sections x).destroyed = false

/-- Both sides of the link agree, and no user refers to a section that was destroyed. -/
structure Linked (s : Links) : Prop where
  agree : ∀ u x, (s.users u).section_ = some x ↔ u ∈ (s.sections x).users
  live : ∀ u x, (s.users u).section_ = some x → (s.sections x).destroyed = false

/-- A user is given a section that was not destroyed, and a section is destroyed when it has no
users. -/
def Orderly (s : Links) : LinkCall → Prop
  | .userCreate _ (some x) | .viewCreate _ (some x) _ _ => (s.sections x).destroyed = false
  | .sectionDestroy x => (s.sections x).users = ∅
  | _ => True

/-- The view is not closed. -/
def Keeps (u : Nat) (_ : Links) : LinkCall → Prop
  | .userClose v | .viewClose v => v ≠ u
  | _ => True

/-- What a view of a part of a section is to do. -/
structure ViewLaw (s : Links) (u x : Nat) (off size o : BitVec 64) : Prop where
  /-- It is created when the part lies in the section. -/
  creates : (∃ t, s.viewCreate u (some x) off size = some (true, t)) ↔
    off.toNat + size.toNat ≤ (s.sections x).size.toNat
  /-- Until it is closed, the block at `o` is its own when `o` lies in the part. -/
  owns : ∀ calls t later, s.viewCreate u (some x) off size = some (true, t) →
    Run (When (Keeps u) Step) t calls later →
    ((later.viewBlockInvalid u o).isSome ↔ off ≤ o ∧ o.toNat < off.toNat + size.toNat)

end Links

end Vin64.Kernel
