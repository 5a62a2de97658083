import Vin64.Utils.Proofs.Refp

/-!
# Exactly the doomed objects go

`Doomed` says which objects go with the reference that a handle gives up.  The proofs of the
releases show that no others go; here it is that all of these do, and that a handle which is
itself among them is accessed after its destruction.
-/

namespace Vin64.Utils

open Vin64.Lib

namespace RefHeap

/-- What releases do to a heap: objects and handles go, none comes, and the handles that go are
those of the objects that go. -/
structure Shrinks (s t : RefHeap) : Prop where
  handles : ∀ k v, t.refps.find k = some v → s.refps.find k = some v
  objects : ∀ x, ∃ r d, t.objects x =
    (s.objects x).map fun ob => { ob with refCount := r, destroyed := ob.destroyed || d }
  gone : ∀ k v, s.refps.find k = some v → t.refps.find k = none →
    ∃ x ob, s.alive x = some ob ∧ k ∈ ob.members ∧ t.alive x = none
  emptied : ∀ x ob, s.alive x = some ob → t.alive x = none → ∀ k ∈ ob.members,
    t.refps.find k = none

namespace Shrinks

variable {s t u : RefHeap}

/-- An object that is there was there. -/
theorem alive (hst : Shrinks s t) {x : Nat} {ob : RefableImp} (hob : t.alive x = some ob) :
    ∃ ob', s.alive x = some ob' ∧ ob.members = ob'.members := by
  obtain ⟨hmem, hdead⟩ := alive_eq_some_iff.1 hob
  obtain ⟨r, d, hobjects⟩ := hst.objects x
  rw [hmem] at hobjects
  obtain ⟨ob', hob', heq⟩ := Option.map_eq_some_iff.1 hobjects.symm
  refine ⟨ob', alive_eq_some_iff.2 ⟨hob', ?_⟩, ?_⟩
  · rw [← heq] at hdead
    exact (Bool.or_eq_false_iff.1 hdead).1
  · rw [← heq]

theorem dead (hst : Shrinks s t) {x : Nat} (hx : s.alive x = none) : t.alive x = none := by
  cases hob : t.alive x with
  | none => rfl
  | some ob =>
      obtain ⟨ob', hob', -⟩ := hst.alive hob
      rw [hx] at hob'
      cases hob'

theorem missing (hst : Shrinks s t) {k : Nat} (hk : s.refps.find k = none) :
    t.refps.find k = none := by
  cases hfind : t.refps.find k with
  | none => rfl
  | some v =>
      have hbefore := hst.handles k v hfind
      rw [hk] at hbefore
      cases hbefore

theorem refl (s : RefHeap) : Shrinks s s where
  handles _ _ hk := hk
  objects x := by
    cases hob : s.objects x with
    | none => exact ⟨0, false, rfl⟩
    | some ob => exact ⟨ob.refCount, false, by rw [Option.map_some, Bool.or_false]⟩
  gone k v hk hnone := by
    rw [hk] at hnone
    cases hnone
  emptied x ob hob hdead := by
    rw [hob] at hdead
    cases hdead

theorem trans (hst : Shrinks s t) (htu : Shrinks t u) : Shrinks s u where
  handles k v hk := hst.handles k v (htu.handles k v hk)
  objects x := by
    obtain ⟨r, d, ht⟩ := hst.objects x
    obtain ⟨r', d', hu⟩ := htu.objects x
    refine ⟨r', d || d', ?_⟩
    rw [hu, ht, Option.map_map]
    refine congrArg (Option.map · _) (funext fun ob => ?_)
    simp only [Function.comp_apply, Bool.or_assoc]
  gone k v hk hnone := by
    cases hfind : t.refps.find k with
    | none =>
        obtain ⟨x, ob, hob, hmem, hdead⟩ := hst.gone k v hk hfind
        exact ⟨x, ob, hob, hmem, htu.dead hdead⟩
    | some w =>
        obtain ⟨x, ob, hob, hmem, hdead⟩ := htu.gone k w hfind hnone
        obtain ⟨ob', hob', heq⟩ := hst.alive hob
        exact ⟨x, ob', hob', heq ▸ hmem, hdead⟩
  emptied x ob hob hdead k hk := by
    cases hmid : t.alive x with
    | none => exact htu.missing (hst.emptied x ob hob hmid k hk)
    | some ob' =>
        obtain ⟨ob'', hob'', heq⟩ := hst.alive hmid
        rw [hob] at hob''
        cases hob''
        exact htu.emptied x ob' hmid hdead k (heq ▸ hk)

/-- An object loses a reference. -/
theorem decrement {x : Nat} {ob : RefableImp} (hob : s.alive x = some ob) :
    Shrinks s (s.setObject x { ob with refCount := ob.refCount - 1 }) := by
  obtain ⟨hmem, hdead⟩ := alive_eq_some_iff.1 hob
  have halive : ∀ y, s.alive y ≠ none →
      (s.setObject x { ob with refCount := ob.refCount - 1 }).alive y ≠ none := by
    intro y hy
    rw [alive_setObject]
    split
    · simp [hdead]
    · exact hy
  refine ⟨fun k v hk => hk, fun y => ?_, fun k v hk hnone => ?_, fun y ob' hy hgone => ?_⟩
  · by_cases hy : y = x
    · subst hy
      refine ⟨ob.refCount - 1, false, Eq.trans (Function.update_self ..) ?_⟩
      rw [hmem, Option.map_some, Bool.or_false]
    · obtain ⟨r, d, heq⟩ := (refl s).objects y
      exact ⟨r, d, Eq.trans (Function.update_of_ne hy ..) heq⟩
  · have hnone' : s.refps.find k = none := hnone
    rw [hk] at hnone'
    cases hnone'
  · exact absurd hgone (halive y (by rw [hy]; simp))

/-- An object goes, and with it its members. -/
theorem delete {x : Nat} {ob : RefableImp} (hob : s.alive x = some ob) :
    Shrinks s { s.setObject x { ob with refCount := ob.refCount - 1, destroyed := true } with
      refps := (destroyMembers ob.members.reverse s.refps).2 } := by
  obtain ⟨hmem, hdead⟩ := alive_eq_some_iff.1 hob
  have hfind : ∀ k, (destroyMembers ob.members.reverse s.refps).2.find k =
      if k ∈ ob.members.reverse then none else s.refps.find k := find_destroyMembers _ _
  have hgone : (s.setObject x
      { ob with refCount := ob.refCount - 1, destroyed := true }).alive x = none := by
    rw [alive_setObject, if_pos rfl, if_pos rfl]
  refine ⟨fun k v hk => ?_, fun y => ?_, fun k v hk hnone => ?_, fun y ob' hy hnone k hk => ?_⟩
  · rw [hfind] at hk
    split at hk
    · cases hk
    · exact hk
  · by_cases hy : y = x
    · subst hy
      refine ⟨ob.refCount - 1, true, Eq.trans (Function.update_self ..) ?_⟩
      rw [hmem, Option.map_some, Bool.or_true]
    · obtain ⟨r, d, heq⟩ := (refl s).objects y
      exact ⟨r, d, Eq.trans (Function.update_of_ne hy ..) heq⟩
  · rw [hfind] at hnone
    split at hnone
    · rename_i hin
      exact ⟨x, ob, hob, List.mem_reverse.1 hin, hgone⟩
    · rw [hk] at hnone
      cases hnone
  · by_cases hyx : y = x
    · subst hyx
      rw [hob] at hy
      cases hy
      rw [hfind, if_pos (List.mem_reverse.2 hk)]
    · have hstill : (s.setObject x
          { ob with refCount := ob.refCount - 1, destroyed := true }).alive y = none := hnone
      rw [alive_setObject, if_neg hyx, hy] at hstill
      cases hstill

theorem release {todo : List Nat} (hrun : s.release todo = some t) : Shrinks s t := by
  induction s, todo using RefHeap.release.induct with
  | case1 s =>
      rw [RefHeap.release] at hrun
      cases hrun
      exact refl t
  | case2 s x todo hgone =>
      rw [RefHeap.release] at hrun
      simp only [hgone] at hrun
      cases hrun
  | case3 s x todo ob hob r hmore ih =>
      rw [RefHeap.release] at hrun
      simp only [hob] at hrun
      rw [if_pos hmore] at hrun
      exact (decrement hob).trans (ih hrun)
  | case4 s x todo ob hob r hlast gone ih =>
      rw [RefHeap.release] at hrun
      simp only [hob] at hrun
      rw [if_neg hlast] at hrun
      have hzero : r = 0 := Decidable.not_not.1 hlast
      exact (delete hob).trans (ih hrun)

end Shrinks

end RefHeap

namespace RefRun

open RefHeap (Shrinks)

variable {s : RefRun} {h o x : Nat}

/-- A release that leaves the handle with which it began went as the counts say. -/
theorem Releasing.of_release {heap heap' : RefHeap} {todo : List Nat}
    (hr : Releasing s h o heap todo) (hrun : heap.release todo = some heap')
    (hheld : heap'.refps.find h ≠ none) : Releasing s h o heap' [] := by
  induction heap, todo using RefHeap.release.induct with
  | case1 heap =>
      rw [RefHeap.release] at hrun
      cases hrun
      exact hr
  | case2 heap x todo hgone =>
      rw [RefHeap.release] at hrun
      simp only [hgone] at hrun
      cases hrun
  | case3 heap x todo ob hob r hmore ih =>
      rw [RefHeap.release] at hrun
      simp only [hob] at hrun
      rw [if_pos hmore] at hrun
      exact ih (hr.decrement hob hmore) hrun
  | case4 heap x todo ob hob r hlast gone ih =>
      rw [RefHeap.release] at hrun
      simp only [hob] at hrun
      rw [if_neg hlast] at hrun
      have hzero : ob.refCount - 1 = 0 := Decidable.not_not.1 hlast
      refine ih (hr.delete hob hzero fun hin => hheld ?_) hrun
      -- a handle that is destroyed does not come back
      refine (Shrinks.release hrun).missing ?_
      show gone.2.find h = none
      rw [RefHeap.find_destroyMembers, if_pos hin]

/-- The objects that are doomed are gone in the end. -/
theorem Releasing.dead {heap : RefHeap} (hs : s.Sound) (hr : Releasing s h o heap [])
    (hshrinks : Shrinks s.heap heap) (hdoomed : s.Doomed h x) : heap.alive x = none := by
  induction hdoomed with
  | @mk x home hout hheld hmember hdoomed ih =>
      have hzero : (heap.refps.erase h).count (some x) = 0 := by
        by_contra hne
        obtain ⟨e, he, hx⟩ := List.countP_pos_iff.1 (Nat.pos_of_ne_zero hne)
        have hfind : (heap.refps.erase h).find e.1 = some (some x) := by
          rw [SortedMap.find_eq_some_iff, ← of_decide_eq_true hx]
          exact he
        rw [SortedMap.find_erase] at hfind
        split at hfind
        · cases hfind
        · rename_i hne
          have hk : s.Holds e.1 x := hshrinks.handles _ _ hfind
          obtain ⟨ob, hob, hin⟩ := hmember e.1 hk hne
          have hnone := hshrinks.emptied _ ob hob (ih e.1 hk hne) e.1 hin
          rw [hfind] at hnone
          cases hnone
      obtain ⟨k, hk⟩ := hheld
      have hpos := SortedMap.count_pos_of_find hk
      obtain ⟨ob, hob, -⟩ := Balanced.exists_alive hs (o := x) (by unfold references; omega)
      have hreferenced := Balanced.referenced hs x ob hob
        (Balanced.toNat_ne_zero hs hob (by unfold references; omega))
      obtain ⟨r, d, hafter⟩ := hshrinks.objects x
      rw [hob, Option.map_some] at hafter
      have hcount := hr.balanced.counted x _ hafter
      have hr0 : r = 0 := by
        refine BitVec.eq_of_toNat_eq ?_
        rw [show r.toNat = _ from hcount, hzero, hout]
        rfl
      have hdestroyed := (hr.balanced.destroyed x _ hafter).2 ⟨hreferenced, hr0⟩
      unfold RefHeap.alive
      rw [hafter]
      exact if_pos hdestroyed

/-- What `dispose` leaves, and what it takes away. -/
structure Cleared (s : RefRun) (h : Nat) (heap : RefHeap) : Prop extends Disposed s h heap where
  survives : s.Survives h
  kept : ∀ k, k ≠ h → ¬ s.Goes h k → heap.refps.find k = s.heap.refps.find k
  gone : ∀ k, s.Goes h k → heap.refps.find k = none
  members : ∀ x ob, heap.alive x = some ob →
    ∃ ob', s.heap.alive x = some ob' ∧ ob.members = ob'.members
  dead : ∀ x, s.Doomed h x → heap.alive x = none
  unknown : ∀ x, s.heap.objects x = none → heap.objects x = none

theorem Sound.cleared {heap : RefHeap} (hs : s.Sound) (hrun : s.heap.dispose h = some heap) :
    s.Cleared h heap := by
  cases hp : s.heap.refps.find h with
  | none =>
      simp only [RefHeap.dispose, hp] at hrun
      cases hrun
  | some p =>
      have hmade : s.Made h := by
        rw [Made, hp]
        simp
      cases p with
      | none =>
          have hnone : ∀ x, ¬ s.Doomed h x := by
            refine not_doomed_of_empty fun x hx => ?_
            rw [Holds, hp] at hx
            cases hx
          have hsafe : s.Survives h := fun x _ => hnone x
          obtain ⟨heap', hrun', hd⟩ := hs.dispose hmade hsafe
          obtain rfl : heap' = heap := Option.some.inj (hrun'.symm.trans hrun)
          simp only [RefHeap.dispose, hp] at hrun
          cases hrun
          exact ⟨hd, hsafe, fun _ _ _ => rfl, fun k hk => absurd hk.choose_spec.2 (hnone _),
            fun x ob hob => ⟨ob, hob, rfl⟩, fun x hx => absurd hx (hnone x), fun _ hx => hx⟩
      | some o =>
          simp only [RefHeap.dispose, hp, Option.bind_eq_bind] at hrun
          obtain ⟨end', hrelease, hend⟩ := Option.bind_eq_some_iff.1 hrun
          have hheld : end'.refps.find h ≠ none := by
            intro hnone
            simp only [hnone] at hend
            cases hend
          have hr := (hs.releasing hp).of_release hrelease hheld
          have hshrinks := Shrinks.release hrelease
          have hsafe : s.Survives h := by
            rintro x ⟨ob, hob, hin⟩ hdoomed
            exact hheld (hshrinks.emptied x ob hob (hr.dead hs hshrinks hdoomed) h hin)
          obtain ⟨heap', hrun', hd⟩ := hs.dispose hmade hsafe
          have hheap : { end' with refps := end'.refps.assign h none } = heap := by
            rw [hr.held] at hend
            exact Option.some.inj hend
          have hrun'' : s.heap.dispose h = some heap := by
            simp only [RefHeap.dispose, hp, hrelease, Option.bind_eq_bind, Option.bind_some]
            exact hend
          obtain rfl : heap' = heap := Option.some.inj (hrun'.symm.trans hrun'')
          have hfind : ∀ k, k ≠ h → heap'.refps.find k = end'.refps.find k := by
            intro k hk
            rw [← hheap]
            exact SortedMap.find_assign_of_ne _ hk
          have halive : ∀ x, heap'.alive x = end'.alive x := fun x => by rw [← hheap]; rfl
          refine ⟨hd, hsafe, fun k hk hgoes => ?_, fun k hgoes => ?_, fun x ob hob => ?_,
            fun x hx => ?_, fun x hx => ?_⟩
          · rw [hfind k hk]
            cases hbefore : s.heap.refps.find k with
            | none => exact hshrinks.missing hbefore
            | some v =>
                rcases hr.gone k v hbefore with hstill | hgone
                · exact hstill
                · exact absurd hgone hgoes
          · obtain ⟨x, ⟨ob, hob, hin⟩, hdoomed⟩ := hgoes
            have hne : k ≠ h := by
              rintro rfl
              exact hsafe x ⟨ob, hob, hin⟩ hdoomed
            rw [hfind k hne]
            exact hshrinks.emptied x ob hob (hr.dead hs hshrinks hdoomed) k hin
          · rw [halive] at hob
            exact hshrinks.alive hob
          · rw [halive]
            exact hr.dead hs hshrinks hx
          · obtain ⟨r, d, hafter⟩ := hshrinks.objects x
            rw [hx] at hafter
            rw [← hheap]
            exact hafter

/-- `dispose` accesses nothing destroyed exactly when the handle is not a part of what goes. -/
theorem Sound.dispose_iff (hs : s.Sound) (hmade : s.Made h) :
    (∃ heap, s.heap.dispose h = some heap) ↔ s.Survives h := by
  constructor
  · rintro ⟨heap, hrun⟩
    exact (hs.cleared hrun).survives
  · intro hsafe
    obtain ⟨heap, hrun, -⟩ := hs.dispose hmade hsafe
    exact ⟨heap, hrun⟩

end RefRun

end Vin64.Utils
