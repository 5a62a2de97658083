import Vin64.Utils.Refp

/-!
# What releases leave

The references to an object are those of the handles, those given out and, in the middle of a
release, those still to be released.  Each step of the code moves one of them.
-/

namespace Vin64.Utils

open Vin64.Lib

namespace RefHeap

theorem alive_eq_some_iff {s : RefHeap} {o : Nat} {ob : RefableImp} :
    s.alive o = some ob ↔ s.objects o = some ob ∧ ob.destroyed = false := by
  unfold alive
  cases hob : s.objects o with
  | none => simp
  | some ob' =>
      cases hdead : ob'.destroyed <;> simp [hdead]
      · rintro rfl
        exact hdead
      · rintro rfl
        exact hdead

theorem alive_setObject {heap : RefHeap} {x y : Nat} {ob : RefableImp} :
    (heap.setObject x ob).alive y =
      if y = x then if ob.destroyed then none else some ob else heap.alive y := by
  unfold alive setObject
  by_cases hy : y = x
  · rw [if_pos hy, hy]
    simp only [Function.update_self]
  · rw [if_neg hy]
    simp only [Function.update_of_ne hy]

theorem alive_setObject_live {ob : RefableImp} (hdead : ob.destroyed = false) (heap : RefHeap)
    (x y : Nat) : (heap.setObject x ob).alive y = if y = x then some ob else heap.alive y := by
  rw [alive_setObject, hdead]
  rfl

/-- Giving up a reference that is not the last one. -/
theorem dispose_shared {heap : RefHeap} {h x : Nat} {ob : RefableImp}
    (hfind : heap.refps.find h = some (some x)) (hob : heap.alive x = some ob)
    (hmore : ob.refCount - 1 ≠ 0) :
    heap.dispose h = some { heap.setObject x { ob with refCount := ob.refCount - 1 } with
      refps := heap.refps.assign h none } := by
  have hrelease : heap.release [x] =
      some (heap.setObject x { ob with refCount := ob.refCount - 1 }) := by
    rw [release]
    simp only [hob]
    rw [if_pos hmore, release]
  have hfind' : (heap.setObject x { ob with refCount := ob.refCount - 1 }).refps.find h =
      some (some x) := hfind
  simp only [dispose, hfind, hrelease, hfind', Option.bind_eq_bind, Option.bind_some]
  rfl

theorem find_destroyMembers (ks : List Nat) (hs : SortedMap Nat (Option Nat)) (k : Nat) :
    (destroyMembers ks hs).2.find k = if k ∈ ks then none else hs.find k := by
  induction ks generalizing hs with
  | nil => simp [destroyMembers]
  | cons j ks ih =>
      unfold destroyMembers
      cases hfind : hs.find j with
      | none =>
          simp only [ih, List.mem_cons]
          by_cases hj : k = j
          · simp [hj, hfind]
          · simp [hj]
      | some p =>
          simp only [ih, List.mem_cons, SortedMap.find_erase]
          by_cases hj : k = j <;> simp [hj]

theorem mem_destroyMembers {ks : List Nat} {hs : SortedMap Nat (Option Nat)} {x : Nat}
    (h : x ∈ (destroyMembers ks hs).1) : ∃ k ∈ ks, hs.find k = some (some x) := by
  induction ks generalizing hs with
  | nil => simp [destroyMembers] at h
  | cons j ks ih =>
      unfold destroyMembers at h
      cases hfind : hs.find j with
      | none =>
          rw [hfind] at h
          obtain ⟨k, hk, hx⟩ := ih h
          exact ⟨k, List.mem_cons_of_mem _ hk, hx⟩
      | some p =>
          rw [hfind] at h
          rcases List.mem_append.1 h with hp | hrest
          · have hpx : p = some x := by simpa [Option.mem_def] using hp
            exact ⟨j, List.mem_cons_self .., by rw [hfind, hpx]⟩
          · obtain ⟨k, hk, hx⟩ := ih hrest
            rw [SortedMap.find_erase] at hx
            split at hx
            · cases hx
            · exact ⟨k, List.mem_cons_of_mem _ hk, hx⟩

/-- The references of destroyed members are still to be released. -/
theorem count_destroyMembers (ks : List Nat) (hs : SortedMap Nat (Option Nat)) (x : Nat) :
    (destroyMembers ks hs).2.count (some x) + (destroyMembers ks hs).1.count x =
      hs.count (some x) := by
  induction ks generalizing hs with
  | nil => simp [destroyMembers]
  | cons j ks ih =>
      unfold destroyMembers
      cases hfind : hs.find j with
      | none => exact ih hs
      | some p =>
          have hih := ih (hs.erase j)
          have hone : p.toList.count x = if some p = some (some x) then 1 else 0 := by
            cases p with
            | none => rfl
            | some y => by_cases hy : y = x <;> simp [hy]
          calc (destroyMembers ks (hs.erase j)).2.count (some x) +
                (p.toList ++ (destroyMembers ks (hs.erase j)).1).count x
              = (hs.erase j).count (some x) + p.toList.count x := by
                rw [List.count_append, ← hih]
                omega
            _ = hs.count (some x) := by
                rw [SortedMap.count_eq_erase_add hs j, hfind, hone]

theorem destroyMembers_erase {ks : List Nat} {h : Nat} (hs : SortedMap Nat (Option Nat))
    (hks : h ∉ ks) :
    destroyMembers ks (hs.erase h) =
      ((destroyMembers ks hs).1, (destroyMembers ks hs).2.erase h) := by
  induction ks generalizing hs with
  | nil => rfl
  | cons j ks ih =>
      have hne : j ≠ h := fun heq => hks (heq ▸ List.mem_cons_self ..)
      have hrest : h ∉ ks := fun hmem => hks (List.mem_cons_of_mem _ hmem)
      unfold destroyMembers
      rw [SortedMap.find_erase_of_ne hne]
      cases hs.find j with
      | none => exact ih hs hrest
      | some p => simp only [SortedMap.erase_comm hs h j, ih (hs.erase j) hrest]

end RefHeap

/-- The counts are `refs`, and the objects without references are those that were never
referenced and those that were destroyed. -/
structure Exact (objects : Nat → Option RefableImp) (refs : Nat → Nat) : Prop where
  counted : ∀ o ob, objects o = some ob → ob.refCount.toNat = refs o
  destroyed : ∀ o ob, objects o = some ob →
    (ob.destroyed = true ↔ ob.referenced = true ∧ ob.refCount = 0)
  referenced : ∀ o ob, objects o = some ob → ob.refCount ≠ 0 → ob.referenced = true
  known : ∀ o, 0 < refs o → objects o ≠ none

namespace Exact

variable {objects : Nat → Option RefableImp} {refs : Nat → Nat} {o : Nat} {ob : RefableImp}

theorem congr {refs' : Nat → Nat} (he : Exact objects refs) (h : ∀ x, refs x = refs' x) :
    Exact objects refs' := funext h ▸ he

theorem toNat_ne_zero (he : Exact objects refs) (hob : objects o = some ob)
    (hrefs : 0 < refs o) : ob.refCount ≠ 0 := by
  intro hzero
  have hcount := he.counted o ob hob
  rw [hzero] at hcount
  have hz : (0 : BitVec 32).toNat = 0 := rfl
  omega

/-- What is referred to is there. -/
theorem exists_alive (he : Exact objects refs) (hrefs : 0 < refs o) :
    ∃ ob, objects o = some ob ∧ ob.destroyed = false := by
  obtain ⟨ob, hob⟩ := Option.ne_none_iff_exists'.1 (he.known o hrefs)
  refine ⟨ob, hob, ?_⟩
  by_contra hdead
  have hdestroyed := (he.destroyed o ob hob).1 (by simpa using hdead)
  exact he.toNat_ne_zero hob hrefs hdestroyed.2

theorem not_last (he : Exact objects refs) (hob : objects o = some ob) (hmore : 2 ≤ refs o) :
    ob.refCount - 1 ≠ 0 := by
  intro hzero
  have hadd : ob.refCount - 1 + 1 = ob.refCount := BitVec.sub_add_cancel ..
  have hcount := he.counted o ob hob
  rw [← hadd, hzero] at hcount
  have hone : ((0 : BitVec 32) + 1).toNat = 1 := rfl
  omega

/-- One reference goes, and the object with the last one. -/
theorem release (he : Exact objects refs) (hob : objects o = some ob) (hrefs : 0 < refs o)
    {d : Bool} (hd : d = true ↔ ob.refCount - 1 = 0) :
    Exact
      (Function.update objects o
        (some { ob with refCount := ob.refCount - 1, destroyed := d }))
      (Function.update refs o (refs o - 1)) := by
  have hne := he.toNat_ne_zero hob hrefs
  have hcount := he.counted o ob hob
  have hbound := ob.refCount.isLt
  have hone : (1 : BitVec 32).toNat = 1 := rfl
  have hsub : (ob.refCount - 1).toNat = refs o - 1 := by
    rw [BitVec.toNat_sub, hone]
    omega
  refine ⟨fun x ob' => ?_, fun x ob' => ?_, fun x ob' => ?_, fun x => ?_⟩ <;>
    by_cases hx : x = o <;> simp only [hx, Function.update_self, ne_eq, not_false_eq_true,
      Function.update_of_ne]
  · rintro ⟨⟩
    exact hsub
  · exact he.counted x ob'
  · rintro ⟨⟩
    exact ⟨fun h => ⟨he.referenced o ob hob hne, hd.1 h⟩, fun h => hd.2 h.2⟩
  · exact he.destroyed x ob'
  · rintro ⟨⟩ -
    exact he.referenced o ob hob hne
  · exact he.referenced x ob'
  · simp
  · exact he.known x

/-- One reference comes. -/
theorem reference (he : Exact objects refs) (hob : objects o = some ob)
    (halive : ob.destroyed = false) (hroom : refs o + 1 < 4294967296) :
    Exact
      (Function.update objects o
        (some { ob with refCount := ob.refCount + 1, referenced := true }))
      (Function.update refs o (refs o + 1)) := by
  have hcount := he.counted o ob hob
  have hone : (1 : BitVec 32).toNat = 1 := rfl
  have hadd : (ob.refCount + 1).toNat = refs o + 1 := by
    rw [BitVec.toNat_add, hone]
    omega
  have hne : ob.refCount + 1 ≠ 0 := by
    intro hzero
    rw [hzero] at hadd
    have hz : (0 : BitVec 32).toNat = 0 := rfl
    omega
  refine ⟨fun x ob' => ?_, fun x ob' => ?_, fun x ob' => ?_, fun x => ?_⟩ <;>
    by_cases hx : x = o <;> simp only [hx, Function.update_self, ne_eq, not_false_eq_true,
      Function.update_of_ne]
  · rintro ⟨⟩
    exact hadd
  · exact he.counted x ob'
  · rintro ⟨⟩
    simp only [halive, Bool.false_eq_true, false_iff]
    exact fun h => hne h.2
  · exact he.destroyed x ob'
  · rintro ⟨⟩ -
    rfl
  · exact he.referenced x ob'
  · simp
  · exact he.known x

/-- An object comes, with one reference. -/
theorem create (he : Exact objects refs) (hnew : objects o = none) (members : List Nat) :
    Exact (Function.update objects o (some ⟨1, members, true, false⟩))
      fun y => refs y + if o = y then 1 else 0 := by
  have hzero : refs o = 0 := by
    by_contra hne
    exact he.known o (Nat.pos_of_ne_zero hne) hnew
  refine ⟨fun y ob => ?_, fun y ob => ?_, fun y ob => ?_, fun y => ?_⟩ <;>
    by_cases hy : y = o <;> simp only [hy, Function.update_self, ne_eq, not_false_eq_true,
      Function.update_of_ne, if_true, hzero]
  · rintro ⟨⟩
    rfl
  · rw [if_neg (Ne.symm hy)]
    exact he.counted y ob
  · rintro ⟨⟩
    simp
  · exact he.destroyed y ob
  · rintro ⟨⟩ -
    rfl
  · exact he.referenced y ob
  · simp
  · rw [if_neg (Ne.symm hy)]
    exact he.known y

end Exact

/-- The counts are `refs` and fit into a `long`, and the objects without references are those
that were never referenced and those that were destroyed. -/
structure Balanced (objects : Nat → Option RefableImp) (refs : Nat → Nat) : Prop where
  counted : ∀ o ob, objects o = some ob → ob.refCount.toNat = refs o
  bounded : ∀ o ob, objects o = some ob → ob.refCount.toNat < 2147483648
  destroyed : ∀ o ob, objects o = some ob →
    (ob.destroyed = true ↔ ob.referenced = true ∧ ob.refCount = 0)
  referenced : ∀ o ob, objects o = some ob → ob.refCount ≠ 0 → ob.referenced = true
  known : ∀ o, 0 < refs o → objects o ≠ none

namespace Balanced

variable {objects : Nat → Option RefableImp} {refs : Nat → Nat} {o : Nat} {ob : RefableImp}

theorem congr {refs' : Nat → Nat} (hb : Balanced objects refs) (h : ∀ x, refs x = refs' x) :
    Balanced objects refs' := funext h ▸ hb

theorem exact (hb : Balanced objects refs) : Exact objects refs :=
  ⟨hb.counted, hb.destroyed, hb.referenced, hb.known⟩

theorem refs_lt (hb : Balanced objects refs) (o : Nat) : refs o < 2147483648 := by
  by_cases hzero : refs o = 0
  · omega
  · obtain ⟨ob, hob⟩ := Option.ne_none_iff_exists'.1 (hb.known o (Nat.pos_of_ne_zero hzero))
    have hcount := hb.counted o ob hob
    have hbound := hb.bounded o ob hob
    omega

theorem of_exact (he : Exact objects refs) (hbound : ∀ o, refs o < 2147483648) :
    Balanced objects refs :=
  ⟨he.counted, fun o ob hob => by rw [he.counted o ob hob]; exact hbound o, he.destroyed,
    he.referenced, he.known⟩

theorem toNat_ne_zero (hb : Balanced objects refs) (hob : objects o = some ob)
    (hrefs : 0 < refs o) : ob.refCount ≠ 0 := hb.exact.toNat_ne_zero hob hrefs

theorem exists_alive (hb : Balanced objects refs) (hrefs : 0 < refs o) :
    ∃ ob, objects o = some ob ∧ ob.destroyed = false := hb.exact.exists_alive hrefs

theorem release (hb : Balanced objects refs) (hob : objects o = some ob) (hrefs : 0 < refs o)
    {d : Bool} (hd : d = true ↔ ob.refCount - 1 = 0) :
    Balanced
      (Function.update objects o
        (some { ob with refCount := ob.refCount - 1, destroyed := d }))
      (Function.update refs o (refs o - 1)) := by
  refine of_exact (hb.exact.release hob hrefs hd) fun x => ?_
  have hx := hb.refs_lt x
  by_cases heq : x = o
  · subst heq
    rw [Function.update_self]
    omega
  · rw [Function.update_of_ne heq]
    exact hx

theorem reference (hb : Balanced objects refs) (hob : objects o = some ob)
    (halive : ob.destroyed = false) (hroom : refs o + 1 < 2147483648) :
    Balanced
      (Function.update objects o
        (some { ob with refCount := ob.refCount + 1, referenced := true }))
      (Function.update refs o (refs o + 1)) := by
  refine of_exact (hb.exact.reference hob halive (by omega)) fun x => ?_
  by_cases heq : x = o
  · subst heq
    rw [Function.update_self]
    exact hroom
  · rw [Function.update_of_ne heq]
    exact hb.refs_lt x

end Balanced

/-- Releases of references that are counted come to their end, whatever goes with them. -/
theorem RefHeap.exists_release {heap : RefHeap} {todo : List Nat} {out : Nat → Nat}
    (hb : Balanced heap.objects fun x => heap.refps.count (some x) + out x + todo.count x) :
    ∃ heap', heap.release todo = some heap' ∧
      Balanced heap'.objects fun x => heap'.refps.count (some x) + out x := by
  induction heap, todo using RefHeap.release.induct with
  | case1 heap =>
      rw [RefHeap.release]
      exact ⟨heap, rfl, hb⟩
  | case2 heap x todo hgone =>
      obtain ⟨ob, hob, halive⟩ := hb.exists_alive (o := x) (by rw [List.count_cons_self]; omega)
      rw [RefHeap.alive_eq_some_iff.2 ⟨hob, halive⟩] at hgone
      cases hgone
  | case3 heap x todo ob hob r hmore ih =>
      obtain ⟨hmem, hlive⟩ := RefHeap.alive_eq_some_iff.1 hob
      have hrelease := hb.release hmem (d := ob.destroyed) (by rw [List.count_cons_self]; omega)
        (by rw [hlive]; exact ⟨nofun, fun h => absurd h hmore⟩)
      rw [RefHeap.release]
      simp only [hob]
      rw [if_pos hmore]
      refine ih (hrelease.congr fun y => ?_)
      by_cases hy : y = x
      · subst hy
        rw [Function.update_self, List.count_cons_self]
        rfl
      · rw [Function.update_of_ne hy, List.count_cons_of_ne (Ne.symm hy)]
        rfl
  | case4 heap x todo ob hob r hlast gone ih =>
      obtain ⟨hmem, -⟩ := RefHeap.alive_eq_some_iff.1 hob
      have hzero : r = 0 := Decidable.not_not.1 hlast
      have hrelease := hb.release hmem (d := true) (by rw [List.count_cons_self]; omega)
        ⟨fun _ => hzero, fun _ => rfl⟩
      have hcount : ∀ y, gone.2.count (some y) + gone.1.count y = heap.refps.count (some y) :=
        RefHeap.count_destroyMembers ob.members.reverse heap.refps
      rw [RefHeap.release]
      simp only [hob]
      rw [if_neg hlast]
      refine ih (hrelease.congr fun y => ?_)
      have happend : (gone.1 ++ todo).count y = gone.1.count y + todo.count y := List.count_append
      show _ = gone.2.count (some y) + out y + (gone.1 ++ todo).count y
      have hy := hcount y
      by_cases heq : y = x
      · subst heq
        rw [Function.update_self, List.count_cons_self, happend]
        omega
      · rw [Function.update_of_ne heq, List.count_cons_of_ne (Ne.symm heq), happend]
        omega

namespace RefRun

/-- In the middle of a release that `h` started: its reference to `o` is no longer counted,
those in `todo` are still to be released. -/
structure Releasing (s : RefRun) (h o : Nat) (heap : RefHeap) (todo : List Nat) : Prop where
  balanced : Balanced heap.objects fun x =>
    (heap.refps.erase h).count (some x) + s.out x + todo.count x
  held : heap.refps.find h = some (some o)
  handles : ∀ k v, heap.refps.find k = some v → s.heap.refps.find k = some v
  gone : ∀ k v, s.heap.refps.find k = some v →
    heap.refps.find k = some v ∨ ∃ y, s.MemberOf k y ∧ s.Doomed h y
  owed : ∀ x ∈ todo, ∃ k, s.Holds k x
  members : ∀ x ob, heap.alive x = some ob →
    ∃ ob', s.heap.alive x = some ob' ∧ ob.members = ob'.members
  spared : ∀ x, s.heap.alive x ≠ none → heap.alive x ≠ none ∨ s.Doomed h x

namespace Releasing

variable {s : RefRun} {h o x : Nat} {heap : RefHeap} {todo : List Nat} {ob : RefableImp}

/-- An object whose last reference is released goes with the reference of `h`. -/
theorem doomed (hr : Releasing s h o heap (x :: todo)) (hob : heap.alive x = some ob)
    (hlast : ob.refCount - 1 = 0) : s.Doomed h x := by
  have hmem := RefHeap.alive_eq_some_iff.1 hob
  have hcount := hr.balanced.counted x ob hmem.1
  have hone : ob.refCount.toNat = 1 := by
    have heq : ob.refCount = 1 := by
      have hadd : ob.refCount - 1 + 1 = ob.refCount := BitVec.sub_add_cancel ..
      rw [hlast] at hadd
      exact hadd.symm
    rw [heq]
    rfl
  rw [List.count_cons_self] at hcount
  have hholds : ∀ k, s.Holds k x → k ≠ h → ∃ y, s.MemberOf k y ∧ s.Doomed h y := by
    intro k hk hne
    rcases hr.gone k _ hk with hstill | hgone
    · have herase : (heap.refps.erase h).find k = some (some x) := by
        rw [SortedMap.find_erase_of_ne hne]
        exact hstill
      have hpos := SortedMap.count_pos_of_find herase
      omega
    · exact hgone
  classical
  let home : Nat → Nat := fun k =>
    if hk : s.Holds k x ∧ k ≠ h then (hholds k hk.1 hk.2).choose else 0
  have hhome : ∀ k, s.Holds k x → k ≠ h → s.MemberOf k (home k) ∧ s.Doomed h (home k) := by
    intro k hk hne
    have heq : home k = (hholds k hk hne).choose := dif_pos ⟨hk, hne⟩
    rw [heq]
    exact (hholds k hk hne).choose_spec
  exact .mk home (by omega) (hr.owed x (List.mem_cons_self ..))
    (fun k hk hne => (hhome k hk hne).1) (fun k hk hne => (hhome k hk hne).2)

/-- A release that is not the last one. -/
theorem decrement (hr : Releasing s h o heap (x :: todo)) (hob : heap.alive x = some ob)
    (hmore : ob.refCount - 1 ≠ 0) :
    Releasing s h o (heap.setObject x { ob with refCount := ob.refCount - 1 }) todo := by
  have hmem := RefHeap.alive_eq_some_iff.1 hob
  have hbalanced := hr.balanced.release hmem.1 (d := ob.destroyed)
    (by rw [List.count_cons_self]; omega) (by rw [hmem.2]; exact ⟨nofun, fun h => absurd h hmore⟩)
  refine ⟨hbalanced.congr fun y => ?_, hr.held, hr.handles, hr.gone,
    fun y hy => hr.owed y (List.mem_cons_of_mem _ hy), ?_, ?_⟩
  · by_cases hy : y = x
    · subst hy
      rw [Function.update_self, List.count_cons_self]
      rfl
    · rw [Function.update_of_ne hy, List.count_cons_of_ne (Ne.symm hy)]
      rfl
  · intro y ob' hy
    rw [RefHeap.alive_setObject] at hy
    split at hy
    · rename_i heq
      rw [if_neg (by simp [hmem.2])] at hy
      obtain ⟨ob0, hstart, heqm⟩ := hr.members x ob hob
      cases hy
      exact ⟨ob0, heq ▸ hstart, heqm⟩
    · exact hr.members y ob' hy
  · intro y hy
    rcases hr.spared y hy with halive | hdoomed
    · left
      rw [RefHeap.alive_setObject]
      split
      · simp [hmem.2]
      · exact halive
    · exact .inr hdoomed

/-- The last release: the members of the object go too. -/
theorem delete (hr : Releasing s h o heap (x :: todo)) (hob : heap.alive x = some ob)
    (hlast : ob.refCount - 1 = 0) (houtside : h ∉ ob.members.reverse) :
    let gone := RefHeap.destroyMembers ob.members.reverse heap.refps
    Releasing s h o { heap.setObject x { ob with refCount := ob.refCount - 1, destroyed := true }
      with refps := gone.2 } (gone.1 ++ todo) := by
  intro gone
  have hmem := RefHeap.alive_eq_some_iff.1 hob
  have hdoomed := hr.doomed hob hlast
  obtain ⟨ob0, hstart, heqm⟩ := hr.members x ob hob
  have hbalanced := hr.balanced.release hmem.1 (d := true)
    (by rw [List.count_cons_self]; omega) ⟨fun _ => hlast, fun _ => rfl⟩
  have hfind : ∀ k, gone.2.find k = if k ∈ ob.members.reverse then none else heap.refps.find k :=
    RefHeap.find_destroyMembers _ _
  refine ⟨hbalanced.congr fun y => ?_, ?_, ?_, ?_, ?_, ?_, ?_⟩
  · have hcount : (gone.2.erase h).count (some y) + gone.1.count y =
        (heap.refps.erase h).count (some y) := by
      rw [← RefHeap.count_destroyMembers ob.members.reverse (heap.refps.erase h) y,
        RefHeap.destroyMembers_erase heap.refps houtside]
    have happend : (gone.1 ++ todo).count y = gone.1.count y + todo.count y := List.count_append
    show _ = (gone.2.erase h).count (some y) + s.out y + (gone.1 ++ todo).count y
    by_cases hy : y = x
    · subst hy
      rw [Function.update_self, List.count_cons_self, happend, ← hcount]
      omega
    · rw [Function.update_of_ne hy, List.count_cons_of_ne (Ne.symm hy), happend, ← hcount]
      omega
  · show gone.2.find h = _
    rw [hfind, if_neg houtside]
    exact hr.held
  · intro k v hk
    have hk' : gone.2.find k = some v := hk
    rw [hfind] at hk'
    split at hk'
    · cases hk'
    · exact hr.handles k v hk'
  · intro k v hk
    by_cases hin : k ∈ ob.members.reverse
    · exact .inr ⟨x, ⟨ob0, hstart, heqm ▸ List.mem_reverse.1 hin⟩, hdoomed⟩
    · rcases hr.gone k v hk with hstill | hgone
      · left
        show gone.2.find k = _
        rw [hfind, if_neg hin]
        exact hstill
      · exact .inr hgone
  · intro y hy
    rcases List.mem_append.1 hy with hpushed | hrest
    · obtain ⟨k, -, hk⟩ := RefHeap.mem_destroyMembers hpushed
      exact ⟨k, hr.handles k _ hk⟩
    · exact hr.owed y (List.mem_cons_of_mem _ hrest)
  · intro y ob' hy
    have hy' : (heap.setObject x
        { ob with refCount := ob.refCount - 1, destroyed := true }).alive y =
        some ob' := hy
    rw [RefHeap.alive_setObject] at hy'
    split at hy'
    · cases hy'
    · exact hr.members y ob' hy'
  · intro y hy
    by_cases hx : y = x
    · exact .inr (hx ▸ hdoomed)
    · rcases hr.spared y hy with halive | hgone
      · left
        show (heap.setObject x
          { ob with refCount := ob.refCount - 1, destroyed := true }).alive y ≠ none
        rw [RefHeap.alive_setObject, if_neg hx]
        exact halive
      · exact .inr hgone

/-- `h` is not among the members of what goes, if it survives. -/
theorem outside (hr : Releasing s h o heap (x :: todo)) (hob : heap.alive x = some ob)
    (hlast : ob.refCount - 1 = 0) (hsafe : s.Survives h) : h ∉ ob.members.reverse := by
  intro hin
  obtain ⟨ob0, hstart, heqm⟩ := hr.members x ob hob
  have hmember : s.MemberOf h x := ⟨ob0, hstart, heqm ▸ List.mem_reverse.1 hin⟩
  exact hsafe x hmember (hr.doomed hob hlast)

/-- The release comes to its end without an access to a destroyed object. -/
theorem run (hr : Releasing s h o heap todo) (hsafe : s.Survives h) :
    ∃ heap', heap.release todo = some heap' ∧ Releasing s h o heap' [] := by
  induction heap, todo using RefHeap.release.induct with
  | case1 heap =>
      unfold RefHeap.release
      exact ⟨heap, rfl, hr⟩
  | case2 heap x todo hgone =>
      have hrefs : 0 < (heap.refps.erase h).count (some x) + s.out x + (x :: todo).count x := by
        rw [List.count_cons_self]
        omega
      obtain ⟨ob, hob, halive⟩ := hr.balanced.exists_alive hrefs
      rw [RefHeap.alive_eq_some_iff.2 ⟨hob, halive⟩] at hgone
      cases hgone
  | case3 heap x todo ob hob r hmore ih =>
      obtain ⟨heap', hrun, hend⟩ := ih (hr.decrement hob hmore)
      unfold RefHeap.release
      simp only [hob]
      rw [if_pos hmore]
      exact ⟨heap', hrun, hend⟩
  | case4 heap x todo ob hob r hlast gone ih =>
      have hzero : ob.refCount - 1 = 0 := Decidable.not_not.1 hlast
      obtain ⟨heap', hrun, hend⟩ := ih (hr.delete hob hzero (hr.outside hob hzero hsafe))
      unfold RefHeap.release
      simp only [hob]
      rw [if_neg hlast]
      exact ⟨heap', hrun, hend⟩

end Releasing

/-! ## One operation -/

def Sound (s : RefRun) : Prop := Balanced s.heap.objects s.references

theorem Sound.counted {s : RefRun} (hs : s.Sound) : s.Counted where
  counted o ob hob := by
    have hcount := Balanced.counted hs o ob hob
    have hbound := Balanced.bounded hs o ob hob
    rw [BitVec.toInt_eq_toNat_of_lt (by omega), hcount]
  destroyed := Balanced.destroyed hs
  held h o hholds := by
    have hpos := SortedMap.count_pos_of_find hholds
    obtain ⟨ob, hob, halive⟩ := Balanced.exists_alive hs (o := o) (by unfold references; omega)
    rw [RefHeap.alive_eq_some_iff.2 ⟨hob, halive⟩]
    simp

/-- What `dispose` leaves. -/
structure Disposed (s : RefRun) (h : Nat) (heap : RefHeap) : Prop where
  balanced : Balanced heap.objects fun x => heap.refps.count (some x) + s.out x
  empty : heap.refps.find h = some none
  handles : ∀ k v, k ≠ h → heap.refps.find k = some v → s.heap.refps.find k = some v
  spared : ∀ x, s.heap.alive x ≠ none → ¬ s.Doomed h x → heap.alive x ≠ none

variable {s : RefRun} {h : Nat}

/-- The release of what `h` holds begins. -/
theorem Sound.releasing {o : Nat} (hs : s.Sound) (hp : s.Holds h o) :
    Releasing s h o s.heap [o] := by
  refine ⟨Balanced.congr hs fun x => ?_, hp, fun k v hk => hk, fun k v hk => .inl hk, ?_,
    fun x ob hob => ⟨ob, hob, rfl⟩, fun x hx => .inl hx⟩
  · have hfind : s.heap.refps.find h = some (some o) := hp
    have hcount := SortedMap.count_eq_erase_add s.heap.refps h (some x)
    rw [hfind] at hcount
    have hlist : [o].count x = if some (some o) = some (some x) then 1 else 0 := by
      by_cases hx : o = x <;> simp [hx]
    unfold references
    omega
  · intro x hx
    rw [List.mem_singleton.1 hx]
    exact ⟨h, hp⟩

/-- The release of what `h` holds. -/
theorem Sound.releases {o : Nat} (hs : s.Sound) (hp : s.Holds h o) (hsafe : s.Survives h) :
    ∃ heap, s.heap.release [o] = some heap ∧ Releasing s h o heap [] :=
  (hs.releasing hp).run hsafe

theorem Sound.dispose (hs : s.Sound) (hmade : s.Made h) (hsafe : s.Survives h) :
    ∃ heap, s.heap.dispose h = some heap ∧ s.Disposed h heap := by
  obtain ⟨p, hp⟩ := Option.ne_none_iff_exists'.1 hmade
  cases p with
  | none =>
      refine ⟨s.heap, ?_, hs, hp, fun k v _ hk => hk, fun x hx _ => hx⟩
      unfold RefHeap.dispose
      rw [hp]
  | some o =>
      obtain ⟨heap, hrun, hend⟩ := hs.releases hp hsafe
      refine ⟨{ heap with refps := heap.refps.assign h none }, ?_, ?_,
        SortedMap.find_assign_self .., ?_, ?_⟩
      · unfold RefHeap.dispose
        simp only [hp, hrun, Option.bind_eq_bind, Option.bind_some, hend.held]
      · refine hend.balanced.congr fun x => ?_
        show _ = (heap.refps.assign h none).count (some x) + s.out x
        rw [SortedMap.count_assign]
        simp
      · intro k v hk hfind
        have hfind' : (heap.refps.assign h none).find k = some v := hfind
        rw [SortedMap.find_assign_of_ne none hk] at hfind'
        exact hend.handles k v hfind'
      · intro x hx hspared
        rcases hend.spared x hx with halive | hdoomed
        · exact halive
        · exact absurd hdoomed hspared

theorem Disposed.count_assign {heap : RefHeap} (hd : s.Disposed h heap) (p : Option Nat) (x : Nat) :
    (heap.refps.assign h p).count (some x) =
      heap.refps.count (some x) + if p = some x then 1 else 0 := by
  have hsame := SortedMap.count_eq_erase_add heap.refps h (some x)
  rw [hd.empty] at hsame
  rw [SortedMap.count_assign, hsame]
  simp

theorem Disposed.count_erase_le {heap : RefHeap} (hd : s.Disposed h heap) (o : Nat) :
    (heap.refps.erase h).count (some o) ≤ (s.heap.refps.erase h).count (some o) := by
  refine SortedMap.count_le_of_find _ fun k v hk => ?_
  rw [SortedMap.find_erase] at hk ⊢
  split at hk
  · cases hk
  · rename_i hne
    rw [if_neg hne]
    exact hd.handles k v hne hk

/-- The reference that `h` gave up made room. -/
theorem Disposed.room {heap : RefHeap} {o : Nat} (hs : s.Sound) (hd : s.Disposed h heap)
    (hroom : s.references o + 1 < 2147483648 ∨ s.Holds h o) :
    heap.refps.count (some o) + s.out o + 1 < 2147483648 := by
  have herase := hd.count_erase_le o
  have hafter := SortedMap.count_eq_erase_add heap.refps h (some o)
  rw [hd.empty, if_neg (by simp)] at hafter
  have hbefore := SortedMap.count_eq_erase_add s.heap.refps h (some o)
  unfold references at hroom
  rcases hroom with hroom | hholds
  · omega
  · have hpos := SortedMap.count_pos_of_find hholds
    obtain ⟨ob, hob, -⟩ := Balanced.exists_alive hs (o := o) (by unfold references; omega)
    have hcount := Balanced.counted hs o ob hob
    have hbound := Balanced.bounded hs o ob hob
    unfold references at hcount
    have hfind : s.heap.refps.find h = some (some o) := hholds
    rw [if_pos hfind] at hbefore
    omega

theorem Sound.bind {p : Option Nat} (hs : s.Sound) (hmade : s.Made h) (hsafe : s.Survives h)
    (hp : s.Bindable h p) :
    ∃ heap, s.heap.bind h p true = some heap ∧ Sound { s with heap } := by
  obtain ⟨heap, hrun, hd⟩ := hs.dispose hmade hsafe
  cases p with
  | none =>
      refine ⟨{ heap with refps := heap.refps.assign h none }, ?_, ?_⟩
      · simp only [RefHeap.bind, hrun, Option.bind_eq_bind, Option.bind_some]
      · refine hd.balanced.congr fun x => ?_
        show _ = (heap.refps.assign h none).count (some x) + s.out x
        rw [hd.count_assign]
        simp
  | some o =>
      obtain ⟨halive, hspared, hroom⟩ := hp
      obtain ⟨ob, hob⟩ := Option.ne_none_iff_exists'.1 (hd.spared o halive hspared)
      have hmem := RefHeap.alive_eq_some_iff.1 hob
      have hbalanced := hd.balanced.reference hmem.1 hmem.2 (hd.room hs hroom)
      refine ⟨⟨Function.update heap.objects o
        (some { ob with refCount := ob.refCount + 1, referenced := true }),
        heap.refps.assign h (some o)⟩, ?_, ?_⟩
      · have hob' : RefHeap.alive { heap with refps := heap.refps.assign h (some o) } o = some ob :=
          hob
        simp only [RefHeap.bind, hrun, Option.bind_eq_bind, Option.bind_some, if_true,
          RefHeap.reference, hob']
        rfl
      · refine hbalanced.congr fun x => ?_
        show _ = (heap.refps.assign h (some o)).count (some x) + s.out x
        rw [hd.count_assign]
        by_cases hx : x = o
        · subst hx
          simp only [Function.update_self, if_true]
          omega
        · have hne : (some o : Option Nat) ≠ some x := fun heq => hx (Option.some.inj heq).symm
          rw [Function.update_of_ne hx, if_neg hne]
          rfl

/-- Handing a reference that was given out to `h`. -/
theorem Disposed.take {heap : RefHeap} {p : Option Nat} (hd : s.Disposed h heap)
    (hp : s.Attachable p) :
    Sound ⟨{ heap with refps := heap.refps.assign h p }, takeOver s.out p⟩ := by
  refine hd.balanced.congr fun x => ?_
  show _ = (heap.refps.assign h p).count (some x) + takeOver s.out p x
  rw [hd.count_assign]
  cases p with
  | none => simp [takeOver]
  | some o =>
      have hpos : 0 < s.out o := hp
      by_cases hx : x = o
      · subst hx
        simp only [takeOver, Function.update_self, if_true]
        omega
      · have hne : (some o : Option Nat) ≠ some x := fun heq => hx (Option.some.inj heq).symm
        simp only [takeOver, Function.update_of_ne hx, if_neg hne]
        rfl

theorem not_doomed_of_empty (hempty : ∀ o, ¬ s.Holds h o) (o : Nat) : ¬ s.Doomed h o := by
  intro hdoomed
  induction hdoomed with
  | mk home hout hheld hmember hdoomed ih =>
      obtain ⟨k, hk⟩ := hheld
      have hne : k ≠ h := by
        rintro rfl
        exact hempty _ hk
      exact ih k hk hne

theorem Sound.construct (hs : s.Sound) (hfree : ¬ s.Made h) :
    Sound { s with heap := s.construct h } := by
  have hnone : s.heap.refps.find h = none := Classical.not_not.1 hfree
  refine Balanced.congr hs fun x => ?_
  show s.heap.refps.count (some x) + s.out x =
    (s.heap.refps.assign h none).count (some x) + s.out x
  rw [SortedMap.count_assign, SortedMap.erase_of_find_eq_none hnone]
  simp

theorem Sound.bindConstructed {p : Option Nat} (hs : s.Sound) (hfree : ¬ s.Made h)
    (hp : s.Bindable h p) :
    ∃ heap, (s.construct h).bind h p true = some heap ∧ Sound { s with heap } := by
  have hnone : s.heap.refps.find h = none := Classical.not_not.1 hfree
  have hempty : ∀ o, ¬ RefRun.Holds { s with heap := s.construct h } h o := by
    intro o hholds
    have hfind : (s.heap.refps.assign h none).find h = some (some o) := hholds
    rw [SortedMap.find_assign_self] at hfind
    cases hfind
  have hmade : RefRun.Made { s with heap := s.construct h } h := by
    show (s.heap.refps.assign h none).find h ≠ none
    rw [SortedMap.find_assign_self]
    simp
  have hbindable : RefRun.Bindable { s with heap := s.construct h } h p := by
    cases p with
    | none => exact trivial
    | some o =>
        obtain ⟨halive, -, hroom⟩ := hp
        refine ⟨halive, not_doomed_of_empty hempty o, .inl ?_⟩
        rcases hroom with hroom | hholds
        · show (s.heap.refps.assign h none).count (some o) + s.out o + 1 < _
          rw [SortedMap.count_assign, SortedMap.erase_of_find_eq_none hnone]
          simpa [references] using hroom
        · rw [Holds, hnone] at hholds
          cases hholds
  exact (hs.construct hfree).bind hmade (fun o _ => not_doomed_of_empty hempty o) hbindable

theorem Sound.create {o : Nat} {members : List Nat} (hs : s.Sound) (hnew : s.heap.objects o = none)
    (hfree : ∀ k ∈ members, ¬ s.Made k) :
    Sound { s with heap := ⟨Function.update s.heap.objects o (some ⟨0, members, false, false⟩),
      members.foldl (fun hs k => hs.assign k none) s.heap.refps⟩ } := by
  have hcount : ∀ x (ks : List Nat) (hs : SortedMap Nat (Option Nat)),
      (∀ k ∈ ks, ∀ v, hs.find k ≠ some (some v)) →
        (ks.foldl (fun hs k => hs.assign k none) hs).count (some x) = hs.count (some x) := by
    intro x ks
    induction ks with
    | nil => intro hs _; rfl
    | cons k ks ih =>
        intro hs hks
        have hk : hs.find k ≠ some (some x) := hks k (List.mem_cons_self ..) x
        rw [List.foldl_cons, ih, SortedMap.count_assign, SortedMap.count_eq_erase_add hs k,
          if_neg hk]
        · simp
        · intro j hj v
          rw [SortedMap.find_assign]
          split
          · simp
          · exact hks j (List.mem_cons_of_mem _ hj) v
  have hempty : ∀ k ∈ members, ∀ v, s.heap.refps.find k ≠ some (some v) := by
    intro k hk v hfind
    exact hfree k hk (by rw [Made, hfind]; simp)
  have hzero : s.references o = 0 := by
    by_contra hne
    exact Balanced.known hs o (by omega) hnew
  have hsame : ∀ x, s.references x = (members.foldl (fun hs k => hs.assign k none)
      s.heap.refps).count (some x) + s.out x := by
    intro x
    rw [hcount x members s.heap.refps hempty]
    rfl
  refine Balanced.congr
    ⟨fun x ob => ?_, fun x ob => ?_, fun x ob => ?_, fun x ob => ?_, fun x => ?_⟩ hsame <;>
    by_cases hx : x = o <;> simp only [hx, Function.update_self, ne_eq, not_false_eq_true,
      Function.update_of_ne]
  · rintro ⟨⟩
    rw [hzero]
    rfl
  · exact Balanced.counted hs x ob
  · rintro ⟨⟩
    show (0 : BitVec 32).toNat < 2147483648
    decide
  · exact Balanced.bounded hs x ob
  · rintro ⟨⟩
    simp
  · exact Balanced.destroyed hs x ob
  · rintro ⟨⟩ hne
    exact absurd rfl hne
  · exact Balanced.referenced hs x ob
  · simp
  · exact Balanced.known hs x

theorem Sound.detach (hs : s.Sound) (hmade : s.Made h) :
    ∃ r, s.heap.detach h = some r ∧ Sound ⟨r.2, giveOut s.out r.1⟩ := by
  obtain ⟨p, hp⟩ := Option.ne_none_iff_exists'.1 hmade
  refine ⟨(p, { s.heap with refps := s.heap.refps.assign h none }), ?_, ?_⟩
  · unfold RefHeap.detach
    rw [hp]
  · refine Balanced.congr hs fun x => ?_
    have hcount := SortedMap.count_eq_erase_add s.heap.refps h (some x)
    rw [hp] at hcount
    show s.references x = (s.heap.refps.assign h none).count (some x) + giveOut s.out p x
    rw [SortedMap.count_assign, references, hcount]
    cases p with
    | none => simp [giveOut]
    | some o =>
        by_cases hx : x = o
        · subst hx
          simp only [giveOut, Function.update_self, if_true]
          simp
          omega
        · simp [giveOut, Function.update_of_ne hx, Ne.symm hx]

theorem Sound.attach {p : Option Nat} (hs : s.Sound) (hmade : s.Made h) (hsafe : s.Survives h)
    (hp : s.Attachable p) :
    ∃ heap, s.heap.attach h p = some heap ∧ Sound ⟨heap, takeOver s.out p⟩ := by
  obtain ⟨heap, hrun, hd⟩ := hs.dispose hmade hsafe
  refine ⟨_, ?_, hd.take hp⟩
  simp only [RefHeap.attach, hrun, Option.bind_eq_bind, Option.bind_some]

/-- Without the count, binding is attaching. -/
theorem bind_false (heap : RefHeap) (h : Nat) (p : Option Nat) :
    heap.bind h p false = heap.attach h p := by
  unfold RefHeap.bind RefHeap.attach
  cases p <;> rfl

theorem onHeap_sound {x : Option RefHeap} (h : ∃ heap, x = some heap ∧ Sound { s with heap }) :
    ∃ t, s.onHeap x = some t ∧ t.Sound := by
  obtain ⟨heap, rfl, hsound⟩ := h
  exact ⟨_, rfl, hsound⟩

theorem step_sound {op : RefpOp} (hs : s.Sound) (hlegal : s.Legal op) (hcareful : s.Careful op) :
    ∃ t, s.step op = some t ∧ t.Sound := by
  cases op with
  | create o members => exact ⟨_, rfl, hs.create hlegal.1 hlegal.2⟩
  | ctor h => exact ⟨_, rfl, hs.construct hlegal⟩
  | ctorPtr h p => exact onHeap_sound (hs.bindConstructed hlegal hcareful)
  | ctorCopy h r => exact onHeap_sound (hs.bindConstructed hlegal.1 hcareful)
  | assign h t => exact onHeap_sound (hs.bind hlegal.1 hcareful.1 hcareful.2)
  | assignPtr h p => exact onHeap_sound (hs.bind hlegal hcareful.1 hcareful.2)
  | bind h p rf =>
      cases rf with
      | true => exact onHeap_sound (hs.bind hlegal hcareful.1 hcareful.2)
      | false =>
          obtain ⟨heap, hrun, hsound⟩ := hs.attach hlegal hcareful.1 hcareful.2
          refine ⟨_, ?_, hsound⟩
          simp only [step, bind_false, hrun, Option.map_some]
  | attach h p =>
      obtain ⟨heap, hrun, hsound⟩ := hs.attach hlegal hcareful.1 hcareful.2
      refine ⟨_, ?_, hsound⟩
      simp only [step, hrun, Option.map_some]
  | detach h =>
      obtain ⟨r, hrun, hsound⟩ := hs.detach hlegal
      refine ⟨_, ?_, hsound⟩
      simp only [step, hrun, Option.map_some]
  | dispose h =>
      obtain ⟨heap, hrun, hd⟩ := hs.dispose hlegal hcareful
      exact onHeap_sound ⟨heap, hrun, hd.balanced⟩
  | destruct h =>
      obtain ⟨heap, hrun, hd⟩ := hs.dispose hlegal.1 hcareful
      refine ⟨{ s with heap := { heap with refps := heap.refps.erase h } }, ?_, ?_⟩
      · simp only [step, hrun, Option.bind_eq_bind, Option.bind_some]
      · refine hd.balanced.congr fun x => ?_
        have hcount := SortedMap.count_eq_erase_add heap.refps h (some x)
        rw [hd.empty] at hcount
        rw [hcount]
        simp [references]

theorem start_sound : start.Sound where
  counted := nofun
  bounded := nofun
  destroyed := nofun
  referenced := nofun
  known o h := by
    have hzero : start.references o = 0 := rfl
    omega

/-- In a run of careful operations the counts are the numbers of references, no handle holds a
destroyed object and no operation accesses one. -/
theorem run_counted {ops : List RefpOp} {s : RefRun}
    (hrun : Run (When (fun s op => s.Legal op ∧ s.Careful op) Step) start ops s) :
    s.Counted ∧ ∀ op, s.Legal op → s.Careful op → ∃ t, s.Step op t := by
  have hsound : s.Sound := by
    refine hrun.invariant start_sound fun s op t hs hstep => ?_
    obtain ⟨t', hrun', hsound⟩ := step_sound hs hstep.1.1 hstep.1.2
    have heq : t' = t := Option.some.inj (hrun'.symm.trans hstep.2)
    exact heq ▸ hsound
  refine ⟨hsound.counted, fun op hlegal hcareful => ?_⟩
  obtain ⟨t, hstep, -⟩ := step_sound hsound hlegal hcareful
  exact ⟨t, hstep⟩

/-- An object, and a handle that holds it. -/
def held : List RefpOp := [.ctorPtr 1 (some 0), .create 0 []]

theorem run_counted_held : ∃ s, Counted s ∧
    ∀ op, s.Legal op → s.Careful op → ∃ t, s.Step op t := by
  refine ⟨_, @run_counted held _ (.snoc (.snoc .nil ⟨⟨⟨rfl, nofun⟩, trivial⟩, rfl⟩)
    ⟨⟨fun h => h rfl, ?_, ?_, .inl ?_⟩, rfl⟩)⟩
  · intro h
    cases h
  · exact not_doomed_of_empty (fun o h => by cases h) 0
  · decide

/-- Assigning to itself the only handle of an object destroys the object first. -/
theorem assign_self_accesses_destroyed : ∃ s, Run Step start held s ∧ s.Legal (.assign 1 1) ∧
    s.step (.assign 1 1) = none := by
  refine ⟨_, .snoc (.snoc .nil rfl) rfl, ⟨?_, ?_⟩, ?_⟩
  · intro h
    cases h
  · intro h
    cases h
  · refine Option.isNone_iff_eq_none.1 ?_
    decide +kernel

end RefRun

end Vin64.Utils
