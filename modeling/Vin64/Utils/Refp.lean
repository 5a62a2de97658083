import Vin64.Lib.Run
import Vin64.Lib.SortedMap
import Mathlib.Order.Nat

/-!
# Counted references (`include/refable.h`)

A handle (`refp`) and an object that implements `REFABLE_IMP` are their addresses.  An object
may have handles among its members: `delete` destroys them, so one release can destroy a chain
of objects.  `none` is the outcome of an access to a destroyed object or handle.
-/

namespace Vin64.Utils

open Vin64.Lib

structure RefableImp where
  refCount : BitVec 32
  /-- The handles among the members. -/
  members : List Nat
  /-- Whether `_reference` was ever called. -/
  referenced : Bool
  destroyed : Bool

structure RefHeap where
  /-- The objects that were ever made. -/
  objects : Nat → Option RefableImp
  /-- `m_p` of the handles that exist. -/
  refps : SortedMap Nat (Option Nat)

namespace RefHeap

def setObject (s : RefHeap) (o : Nat) (ob : RefableImp) : RefHeap :=
  { s with objects := Function.update s.objects o (some ob) }

/-- The object at `o`, which `delete` did not reach. -/
def alive (s : RefHeap) (o : Nat) : Option RefableImp :=
  match s.objects o with
  | none => none
  | some ob => if ob.destroyed then none else some ob

/-- `_reference` -/
def reference (s : RefHeap) (o : Nat) : Option RefHeap :=
  match s.alive o with
  | none => none
  | some ob => some (s.setObject o { ob with refCount := ob.refCount + 1, referenced := true })

/-- The destructors of members: the handles go, and what they held is still to be released. -/
def destroyMembers : List Nat → SortedMap Nat (Option Nat) → List Nat × SortedMap Nat (Option Nat)
  | [], hs => ([], hs)
  | k :: ks, hs =>
    match hs.find k with
    | none => destroyMembers ks hs
    | some p =>
      let rest := destroyMembers ks (hs.erase k)
      (p.toList ++ rest.1, rest.2)

theorem length_destroyMembers (ks : List Nat) (hs : SortedMap Nat (Option Nat)) :
    (destroyMembers ks hs).1.length + (destroyMembers ks hs).2.entries.length ≤
      hs.entries.length := by
  induction ks generalizing hs with
  | nil => simp [destroyMembers]
  | cons k ks ih =>
      unfold destroyMembers
      cases hfind : hs.find k with
      | none => exact ih hs
      | some p =>
          have hrest := ih (hs.erase k)
          have herase := SortedMap.length_erase_lt hfind
          have hp : p.toList.length ≤ 1 := by cases p <;> simp
          simp only [List.length_append]
          omega

/-- `_release` of each object of the list; the last reference deletes the object, whose
members are then released before the rest. -/
def release (s : RefHeap) (todo : List Nat) : Option RefHeap :=
  match todo with
  | [] => some s
  | o :: todo =>
    match s.alive o with
    | none => none
    | some ob =>
      let r := ob.refCount - 1
      if r ≠ 0 then release (s.setObject o { ob with refCount := r }) todo
      else
        let gone := destroyMembers ob.members.reverse s.refps
        release
          { s.setObject o { ob with refCount := r, destroyed := true } with refps := gone.2 }
          (gone.1 ++ todo)
termination_by s.refps.entries.length + todo.length
decreasing_by
  · simp [setObject]
  · have h := length_destroyMembers ob.members.reverse s.refps
    simp only [List.length_append, List.length_cons]
    omega

/-- `m_p` is cleared after the release, which may have destroyed the handle itself. -/
def dispose (s : RefHeap) (h : Nat) : Option RefHeap :=
  match s.refps.find h with
  | none => none
  | some none => some s
  | some (some o) => do
    let s ← s.release [o]
    match s.refps.find h with
    | none => none
    | some _ => some { s with refps := s.refps.assign h none }

def bind (s : RefHeap) (h : Nat) (p : Option Nat) (rf : Bool) : Option RefHeap := do
  let s ← s.dispose h
  let s := { s with refps := s.refps.assign h p }
  match p with
  | some o => if rf then s.reference o else some s
  | none => some s

def attach (s : RefHeap) (h : Nat) (p : Option Nat) : Option RefHeap := do
  let s ← s.dispose h
  some { s with refps := s.refps.assign h p }

def detach (s : RefHeap) (h : Nat) : Option (Option Nat × RefHeap) :=
  match s.refps.find h with
  | none => none
  | some p => some (p, { s with refps := s.refps.assign h none })

end RefHeap

/-! ## Runs -/

inductive RefpOp where
  /-- `new` of an object with some handles among its members. -/
  | create (o : Nat) (members : List Nat)
  | ctor (h : Nat)
  | ctorPtr (h : Nat) (p : Option Nat)
  | ctorCopy (h r : Nat)
  | assign (h t : Nat)
  | assignPtr (h : Nat) (p : Option Nat)
  | bind (h : Nat) (p : Option Nat) (rf : Bool)
  | attach (h : Nat) (p : Option Nat)
  | detach (h : Nat)
  | dispose (h : Nat)
  | destruct (h : Nat)

structure RefRun where
  heap : RefHeap
  /-- The references that `detach` gave out and that no handle took over again. -/
  out : Nat → Nat

namespace RefRun

def start : RefRun := ⟨⟨fun _ => none, SortedMap.empty⟩, fun _ => 0⟩

/-- A reference given out by `detach` comes back. -/
def takeOver (out : Nat → Nat) (p : Option Nat) : Nat → Nat :=
  match p with
  | none => out
  | some o => Function.update out o (out o - 1)

def giveOut (out : Nat → Nat) (p : Option Nat) : Nat → Nat :=
  match p with
  | none => out
  | some o => Function.update out o (out o + 1)

/-- A constructor makes an empty handle first. -/
def construct (s : RefRun) (h : Nat) : RefHeap :=
  { s.heap with refps := s.heap.refps.assign h none }

def pointee (s : RefRun) (h : Nat) : Option Nat := (s.heap.refps.find h).join

def onHeap (s : RefRun) (x : Option RefHeap) : Option RefRun := x.map fun heap => { s with heap }

def step (s : RefRun) : RefpOp → Option RefRun
  | .create o members =>
    some { s with heap := ⟨Function.update s.heap.objects o (some ⟨0, members, false, false⟩),
      members.foldl (fun hs k => hs.assign k none) s.heap.refps⟩ }
  | .ctor h => some { s with heap := s.construct h }
  | .ctorPtr h p => s.onHeap ((s.construct h).bind h p true)
  | .ctorCopy h r => s.onHeap ((s.construct h).bind h (s.pointee r) true)
  | .assign h t => s.onHeap (s.heap.bind h (s.pointee t) true)
  | .assignPtr h p => s.onHeap (s.heap.bind h p true)
  | .bind h p true => s.onHeap (s.heap.bind h p true)
  | .bind h p false => (s.heap.bind h p false).map fun heap => ⟨heap, takeOver s.out p⟩
  | .attach h p => (s.heap.attach h p).map fun heap => ⟨heap, takeOver s.out p⟩
  | .detach h => (s.heap.detach h).map fun r => ⟨r.2, giveOut s.out r.1⟩
  | .dispose h => s.onHeap (s.heap.dispose h)
  | .destruct h => do
    let heap ← s.heap.dispose h
    some { s with heap := { heap with refps := heap.refps.erase h } }

abbrev Step (s : RefRun) (op : RefpOp) (t : RefRun) : Prop := s.step op = some t

def Made (s : RefRun) (h : Nat) : Prop := s.heap.refps.find h ≠ none

def Holds (s : RefRun) (h o : Nat) : Prop := s.heap.refps.find h = some (some o)

def MemberOf (s : RefRun) (h o : Nat) : Prop :=
  ∃ ob, s.heap.alive o = some ob ∧ h ∈ ob.members

/-- The operations a program can apply: handles are made where there is none, and the handles
of an object are destroyed by the object. -/
def Legal (s : RefRun) : RefpOp → Prop
  | .create o members => s.heap.objects o = none ∧ ∀ k ∈ members, ¬ s.Made k
  | .ctor h | .ctorPtr h _ => ¬ s.Made h
  | .ctorCopy h r => ¬ s.Made h ∧ s.Made r
  | .assign h t => s.Made h ∧ s.Made t
  | .assignPtr h _ | .bind h _ _ | .attach h _ | .detach h | .dispose h => s.Made h
  | .destruct h => s.Made h ∧ ∀ o, ¬ s.MemberOf h o

/-- The objects that go when `h` gives up its reference: what refers to them is `h` and
handles of objects that go. -/
inductive Doomed (s : RefRun) (h : Nat) : Nat → Prop
  | mk {o : Nat} (home : Nat → Nat) : s.out o = 0 → (∃ k, s.Holds k o) →
      (∀ k, s.Holds k o → k ≠ h → s.MemberOf k (home k)) →
      (∀ k, s.Holds k o → k ≠ h → Doomed s h (home k)) → Doomed s h o

/-- The handle `k` is destroyed with the reference that `h` gives up. -/
def Goes (s : RefRun) (h k : Nat) : Prop := ∃ o, s.MemberOf k o ∧ s.Doomed h o

/-- `h` is not a part of what goes with its reference. -/
def Survives (s : RefRun) (h : Nat) : Prop := ∀ o, s.MemberOf h o → ¬ s.Doomed h o

/-- How many references to `o` there are. -/
def references (s : RefRun) (o : Nat) : Nat := s.heap.refps.count (some o) + s.out o

/-- What `h` may be bound to: an object that is there, does not go with the reference that `h`
gives up, and has room in its count. -/
def Bindable (s : RefRun) (h : Nat) : Option Nat → Prop
  | none => True
  | some o => s.heap.alive o ≠ none ∧ ¬ s.Doomed h o ∧
      (s.references o + 1 < 2147483648 ∨ s.Holds h o)

/-- What `h` may take over: a reference that was given out. -/
def Attachable (s : RefRun) : Option Nat → Prop
  | none => True
  | some o => 0 < s.out o

def Careful (s : RefRun) : RefpOp → Prop
  | .create _ _ | .ctor _ | .detach _ => True
  | .ctorPtr h p => s.Bindable h p
  | .ctorCopy h r => s.Bindable h (s.pointee r)
  | .assign h t => s.Survives h ∧ s.Bindable h (s.pointee t)
  | .assignPtr h p | .bind h p true => s.Survives h ∧ s.Bindable h p
  | .bind h p false | .attach h p => s.Survives h ∧ s.Attachable p
  | .dispose h | .destruct h => s.Survives h

/-- The counts are the numbers of references, and what a handle holds is there. -/
structure Counted (s : RefRun) : Prop where
  counted : ∀ o ob, s.heap.objects o = some ob → ob.refCount.toInt = s.references o
  destroyed : ∀ o ob, s.heap.objects o = some ob →
    (ob.destroyed = true ↔ ob.referenced = true ∧ ob.refCount = 0)
  held : ∀ h o, s.Holds h o → s.heap.alive o ≠ none

end RefRun

end Vin64.Utils
