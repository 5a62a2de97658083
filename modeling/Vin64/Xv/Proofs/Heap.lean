import Vin64.Utils.Proofs.Doomed
import Vin64.Xv.Sharing

/-!
# Steps of a heap of values

Each step of the code is one of a few changes to a heap: a value comes, gets a pointer, is
cleared or goes; an object comes or changes its data.  `Linked` goes through each of them, and
the counts stay exact.
-/

namespace Vin64.Xv

open Vin64.Lib Vin64.Utils

namespace ValueHeap

variable {x : Header} {s t : ValueHeap} {pv l o : Nat}

/-! ## Values and objects that are there -/

theorem made_iff : s.refs.Made l ↔ ∃ p, s.refs.heap.refps.find l = some p :=
  Option.ne_none_iff_exists'

theorem find_eq_pointee (hmade : s.refs.Made l) :
    s.refs.heap.refps.find l = some (s.refs.pointee l) := by
  obtain ⟨p, hp⟩ := made_iff.1 hmade
  rw [RefRun.pointee, hp]
  rfl

theorem holds_iff : s.refs.Holds l o ↔ s.refs.pointee l = some o := by
  unfold RefRun.Holds RefRun.pointee
  cases s.refs.heap.refps.find l with
  | none => simp
  | some p => simp

theorem made_of_pointee (hp : s.refs.pointee l = some o) : s.refs.Made l := by
  rw [made_iff]
  exact ⟨_, holds_iff.2 hp⟩

theorem pointee_of_not_made (hl : ¬ s.refs.Made l) : s.refs.pointee l = none := by
  have hnone : s.refs.heap.refps.find l = none := Classical.not_not.1 hl
  rw [RefRun.pointee, hnone]
  rfl

theorem slot_of_made (hmade : s.refs.Made l) : s.slot l = some (s.slots l) := by
  rw [slot, find_eq_pointee hmade]
  rfl

theorem made_of_slot {v : Slot} (hv : s.slot l = some v) : s.refs.Made l ∧ v = s.slots l := by
  obtain ⟨p, hp, heq⟩ := Option.map_eq_some_iff.1 hv
  exact ⟨made_iff.2 ⟨p, hp⟩, heq.symm⟩

theorem content_eq_some {c : Content} (hc : s.content o = some c) :
    (∃ ob, s.refs.heap.alive o = some ob) ∧ c = s.contents o := by
  obtain ⟨ob, hob, heq⟩ := Option.map_eq_some_iff.1 hc
  exact ⟨⟨ob, hob⟩, heq.symm⟩

theorem content_of_alive {ob : RefableImp} (hob : s.refs.heap.alive o = some ob) :
    s.content o = some (s.contents o) := by
  rw [content, hob]
  rfl

theorem Linked.lt_of_made (hs : Linked x s) (hl : s.refs.Made l) : l < s.next := by
  by_contra hge
  exact hs.freshValue l (by omega) hl

theorem Linked.lt_of_alive {ob : RefableImp} (hs : Linked x s)
    (hob : s.refs.heap.alive o = some ob) : o < s.next := by
  by_contra hge
  have hnone := hs.freshObject o (by omega)
  rw [(RefHeap.alive_eq_some_iff.1 hob).1] at hnone
  cases hnone

theorem Linked.memberOf_iff (hs : Linked x s) {ob : RefableImp}
    (hob : s.refs.heap.alive o = some ob) :
    s.refs.MemberOf l o ↔ ∃ key, (s.contents o).elements.find key = some l := by
  constructor
  · rintro ⟨ob', hob', hin⟩
    rw [hs.members o ob' hob'] at hin
    obtain ⟨e, he, rfl⟩ := List.mem_map.1 hin
    exact ⟨e.1, SortedMap.find_eq_some_iff.2 he⟩
  · rintro ⟨key, hkey⟩
    refine ⟨ob, hob, ?_⟩
    rw [hs.members o ob hob]
    exact List.mem_map.2 ⟨_, SortedMap.find_eq_some_iff.1 hkey, rfl⟩

/-- What refers to an object keeps it. -/
theorem alive_of_pointee (he : Exact s.refs.heap.objects s.refs.references)
    (hp : s.refs.pointee l = some o) : ∃ ob, s.refs.heap.alive o = some ob := by
  have hpos := SortedMap.count_pos_of_find (holds_iff.2 hp)
  obtain ⟨ob, hob, halive⟩ := he.exists_alive (o := o) (by unfold RefRun.references; omega)
  exact ⟨ob, RefHeap.alive_eq_some_iff.2 ⟨hob, halive⟩⟩

/-- The edges of the view lead to values. -/
theorem Linked.made_child (hs : Linked x s) (he : Exact s.refs.heap.objects s.refs.references)
    {key : Key} {e : Nat} (hchild : s.view.child l key = some e) : s.refs.Made e := by
  obtain ⟨o, hp, hkey⟩ := Option.bind_eq_some_iff.1 hchild
  obtain ⟨ob, hob⟩ := alive_of_pointee he hp
  exact hs.made e o ((hs.memberOf_iff hob).2 ⟨key, hkey⟩)

theorem Linked.made_of_reaches (hs : Linked x s) (he : Exact s.refs.heap.objects s.refs.references)
    (hreach : s.view.Reaches pv l) (hpv : s.refs.Made pv) : s.refs.Made l :=
  hreach.invariant hpv fun _ _ _ _ _ hchild => hs.made_child he hchild

/-! ## The changes -/

@[simp] theorem refs_setSlot (s : ValueHeap) (pv : Nat) (v : Slot) :
    (s.setSlot pv v).refs = s.refs := rfl

@[simp] theorem contents_setSlot (s : ValueHeap) (pv : Nat) (v : Slot) :
    (s.setSlot pv v).contents = s.contents := rfl

@[simp] theorem next_setSlot (s : ValueHeap) (pv : Nat) (v : Slot) :
    (s.setSlot pv v).next = s.next := rfl

theorem slots_setSlot (s : ValueHeap) (pv : Nat) (v : Slot) (l : Nat) :
    (s.setSlot pv v).slots l = if l = pv then v else s.slots l := Function.update_apply ..

@[simp] theorem slots_setPointer (s : ValueHeap) (pv : Nat) (p : Option Nat) :
    (s.setPointer pv p).slots = s.slots := rfl

@[simp] theorem contents_setPointer (s : ValueHeap) (pv : Nat) (p : Option Nat) :
    (s.setPointer pv p).contents = s.contents := rfl

/-- A change of the values that makes no object and changes no data. -/
theorem Linked.of_sub (hs : Linked x s)
    (hsub : ∀ o ob, t.refs.heap.alive o = some ob →
      ∃ ob', s.refs.heap.alive o = some ob' ∧ ob.members = ob'.members)
    (hcontents : t.contents = s.contents) (hnext : s.next ≤ t.next)
    (hmade : ∀ l o, t.refs.MemberOf l o → t.refs.Made l)
    (htyped : ∀ l, t.refs.Made l → (t.slots l).Holds ((t.refs.pointee l).map s.contents))
    (hvalue : ∀ l, t.next ≤ l → ¬ t.refs.Made l)
    (hobject : ∀ o, s.refs.heap.objects o = none → t.refs.heap.objects o = none) :
    Linked x t := by
  have hmember : ∀ l o, t.refs.MemberOf l o → s.refs.MemberOf l o := by
    rintro l o ⟨ob, hob, hin⟩
    obtain ⟨ob', hob', heq⟩ := hsub o ob hob
    exact ⟨ob', hob', heq ▸ hin⟩
  refine ⟨?_, ?_, hmade, ?_, ?_, ?_, hvalue, ?_⟩
  · rw [hcontents]
    exact htyped
  · intro o ob hob
    obtain ⟨ob', hob', heq⟩ := hsub o ob hob
    rw [heq, hcontents, hs.members o ob' hob']
  · exact fun l o o' h h' => hs.home l o o' (hmember l o h) (hmember l o' h')
  · intro o ob hob
    obtain ⟨ob', hob', heq⟩ := hsub o ob hob
    exact heq ▸ hs.distinct o ob' hob'
  · intro o ob hob
    obtain ⟨ob', hob', -⟩ := hsub o ob hob
    exact hcontents ▸ hs.valid o ob' hob'
  · exact fun o ho => hobject o (hs.freshObject o (by omega))

theorem Linked.setSlot (hs : Linked x s) {v : Slot}
    (hv : v.Holds ((s.refs.pointee pv).map s.contents)) : Linked x (s.setSlot pv v) := by
  refine hs.of_sub (fun o ob hob => ⟨ob, hob, rfl⟩) rfl le_rfl hs.made (fun l hl => ?_)
    hs.freshValue fun _ h => h
  rw [slots_setSlot]
  split
  · rename_i heq
    exact heq ▸ hv
  · exact hs.typed l hl

theorem pointee_setPointer (s : ValueHeap) (pv : Nat) (p : Option Nat) (l : Nat) :
    (s.setPointer pv p).refs.pointee l = if l = pv then p else s.refs.pointee l := by
  show ((s.refs.heap.refps.assign pv p).find l).join = _
  rw [SortedMap.find_assign]
  split <;> rfl

theorem made_setPointer (s : ValueHeap) (pv : Nat) (p : Option Nat) (l : Nat) :
    (s.setPointer pv p).refs.Made l ↔ l = pv ∨ s.refs.Made l := by
  show (s.refs.heap.refps.assign pv p).find l ≠ none ↔ _
  rw [SortedMap.find_assign]
  split
  · rename_i h
    simp [h]
  · rename_i h
    simp only [h, false_or]
    rfl

/-- A pointer comes to a value without one. -/
theorem references_setPointer (hpv : s.refs.pointee pv = none) (p : Option Nat) (o : Nat) :
    (s.setPointer pv p).refs.references o =
      s.refs.references o + if p = some o then 1 else 0 := by
  have hbefore := SortedMap.count_eq_erase_add s.refs.heap.refps pv (some o)
  have hne : s.refs.heap.refps.find pv ≠ some (some o) := by
    intro h
    rw [RefRun.pointee, h] at hpv
    cases hpv
  rw [if_neg hne] at hbefore
  show (s.refs.heap.refps.assign pv p).count (some o) + s.refs.out o = _
  rw [SortedMap.count_assign]
  unfold RefRun.references
  omega

/-! ### A value comes -/

@[simp] theorem next_newValue (s : ValueHeap) : s.newValue.next = s.next + 1 := rfl

@[simp] theorem contents_newValue (s : ValueHeap) : s.newValue.contents = s.contents := rfl

theorem slots_newValue (s : ValueHeap) (l : Nat) :
    s.newValue.slots l = if l = s.next then .null else s.slots l := Function.update_apply ..

theorem made_newValue (s : ValueHeap) (l : Nat) :
    s.newValue.refs.Made l ↔ l = s.next ∨ s.refs.Made l := made_setPointer s s.next none l

theorem pointee_newValue (s : ValueHeap) (l : Nat) :
    s.newValue.refs.pointee l = if l = s.next then none else s.refs.pointee l :=
  pointee_setPointer s s.next none l

theorem Linked.pointee_next (hs : Linked x s) : s.refs.pointee s.next = none :=
  pointee_of_not_made (hs.freshValue s.next le_rfl)

theorem Linked.references_newValue (hs : Linked x s) (o : Nat) :
    s.newValue.refs.references o = s.refs.references o := by
  have hrefs := references_setPointer hs.pointee_next none o
  rw [if_neg nofun] at hrefs
  exact hrefs

theorem Linked.exact_newValue (hs : Linked x s)
    (he : Exact s.refs.heap.objects s.refs.references) :
    Exact s.newValue.refs.heap.objects s.newValue.refs.references :=
  he.congr fun o => (hs.references_newValue o).symm

theorem Linked.newValue (hs : Linked x s) : Linked x s.newValue := by
  refine hs.of_sub (fun o ob hob => ⟨ob, hob, rfl⟩) rfl (Nat.le_succ _) (fun l o h => ?_)
    (fun l hl => ?_) (fun l hl => ?_) fun _ h => h
  · exact (made_newValue s l).2 (.inr (hs.made l o h))
  · rw [slots_newValue, pointee_newValue]
    split
    · exact ⟨rfl, nofun⟩
    · rename_i hne
      exact hs.typed l (((made_newValue s l).1 hl).resolve_left hne)
  · have hl' : s.next + 1 ≤ l := hl
    rw [made_newValue]
    rintro (heq | hmade)
    · omega
    · exact hs.freshValue l (by omega) hmade

/-! ### A value is cleared -/

theorem find_of_dispose {heap heap' : RefHeap} {h : Nat} (hrun : heap.dispose h = some heap') :
    heap'.refps.find h = some none := by
  unfold RefHeap.dispose at hrun
  cases hp : heap.refps.find h with
  | none =>
      simp only [hp] at hrun
      cases hrun
  | some p =>
      cases p with
      | none =>
          simp only [hp] at hrun
          cases hrun
          exact hp
      | some o =>
          simp only [hp, Option.bind_eq_bind] at hrun
          obtain ⟨heap1, -, hend⟩ := Option.bind_eq_some_iff.1 hrun
          split at hend
          · cases hend
          · cases hend
            exact SortedMap.find_assign_self ..

theorem valueInit_of_find (hfind : s.refs.heap.refps.find pv = some none) :
    s.valueInit pv = s.setSlot pv .null := by
  unfold valueInit setPointer withHeap
  rw [SortedMap.assign_of_find hfind]

theorem Linked.dispose_of_empty (hmade : s.refs.Made pv) (hempty : s.refs.pointee pv = none) :
    s.refs.heap.dispose pv = some s.refs.heap := by
  have hfind := find_eq_pointee hmade
  rw [hempty] at hfind
  unfold RefHeap.dispose
  rw [hfind]

/-- A value has a pointer only where its type has an object. -/
theorem Linked.pointee_of_scalar (hs : Linked x s) (hmade : s.refs.Made pv)
    (hnew : newContent (s.slots pv).type = none) (hknown : (s.slots pv).type ≠ .dUnknown) :
    s.refs.pointee pv = none := by
  have htyped := hs.typed pv hmade
  cases hp : s.refs.pointee pv with
  | none => rfl
  | some o =>
      rw [hp] at htyped
      rcases htyped.2 with hcontent | hunknown
      · rw [hnew] at hcontent
        cases hcontent
      · exact absurd hunknown.1 hknown

/-- Whatever the type is, the reference goes. -/
theorem Linked.valueClear_eq (hs : Linked x s) (hmade : s.refs.Made pv) :
    s.valueClear pv =
      (s.refs.heap.dispose pv).map fun heap => (s.withHeap heap).setSlot pv .null := by
  have hdispose : ((s.refs.heap.dispose pv).bind fun heap =>
      some ((s.withHeap heap).valueInit pv)) =
      (s.refs.heap.dispose pv).map fun heap => (s.withHeap heap).setSlot pv .null := by
    cases hrun : s.refs.heap.dispose pv with
    | none => rfl
    | some heap =>
        rw [Option.bind_some, Option.map_some]
        exact congrArg some (valueInit_of_find (s := s.withHeap heap) (find_of_dispose hrun))
  have hscalar : newContent (s.slots pv).type = none → (s.slots pv).type ≠ .dUnknown →
      some (s.valueInit pv) =
        (s.refs.heap.dispose pv).map fun heap => (s.withHeap heap).setSlot pv .null := by
    intro hnew hknown
    have hempty := hs.pointee_of_scalar hmade hnew hknown
    have hfind := find_eq_pointee hmade
    rw [hempty] at hfind
    rw [dispose_of_empty hmade hempty, Option.map_some, valueInit_of_find hfind]
    rfl
  rw [valueClear, slot_of_made hmade]
  simp only [Option.bind_eq_bind, Option.bind_some]
  cases htype : (s.slots pv).type <;> rw [htype] at hscalar <;>
    first
    | exact hscalar rfl nofun
    | exact hdispose

theorem Linked.valueClear_of_empty (hs : Linked x s) (hmade : s.refs.Made pv)
    (hempty : s.refs.pointee pv = none) : s.valueClear pv = some (s.setSlot pv .null) := by
  rw [hs.valueClear_eq hmade, dispose_of_empty hmade hempty]
  rfl

/-- What `ValueClear` leaves. -/
structure Clears (x : Header) (s : ValueHeap) (pv : Nat) (t : ValueHeap) : Prop where
  wellFormed : WellFormed x t
  survives : s.refs.Survives pv
  made : ∀ l, t.refs.Made l ↔ s.refs.Made l ∧ ¬ s.refs.Goes pv l
  pointee : ∀ l, t.refs.Made l → t.refs.pointee l = if l = pv then none else s.refs.pointee l
  slots : ∀ l, t.slots l = if l = pv then .null else s.slots l
  contents : t.contents = s.contents
  next : t.next = s.next
  alive : ∀ o, t.refs.heap.alive o ≠ none ↔ s.refs.heap.alive o ≠ none ∧ ¬ s.refs.Doomed pv o
  references : ∀ o, t.refs.references o ≤ s.refs.references o

theorem made_of_valueClear (hrun : s.valueClear pv = some t) : s.refs.Made pv := by
  obtain ⟨v, hv, -⟩ := Option.bind_eq_some_iff.1 hrun
  exact (made_of_slot hv).1

theorem WellFormed.valueClear_iff (hs : WellFormed x s) (hmade : s.refs.Made pv) :
    (∃ t, s.valueClear pv = some t) ↔ s.refs.Survives pv := by
  rw [hs.valueClear_eq hmade, ← RefRun.Sound.dispose_iff hs.sound hmade]
  constructor
  · rintro ⟨t, ht⟩
    obtain ⟨heap, hheap, -⟩ := Option.map_eq_some_iff.1 ht
    exact ⟨heap, hheap⟩
  · rintro ⟨heap, hheap⟩
    exact ⟨_, Option.map_eq_some_iff.2 ⟨heap, hheap, rfl⟩⟩

theorem WellFormed.clears (hs : WellFormed x s) (hrun : s.valueClear pv = some t) :
    Clears x s pv t := by
  have hmade := made_of_valueClear hrun
  rw [hs.valueClear_eq hmade] at hrun
  obtain ⟨heap, hdispose, rfl⟩ := Option.map_eq_some_iff.1 hrun
  have hc := RefRun.Sound.cleared hs.sound hdispose
  have hpv : ¬ s.refs.Goes pv pv := fun ⟨o, hin, hdoomed⟩ => hc.survives o hin hdoomed
  have hfind : ∀ l, heap.refps.find l ≠ none ↔ s.refs.Made l ∧ ¬ s.refs.Goes pv l := by
    intro l
    by_cases hl : l = pv
    · subst hl
      rw [hc.empty]
      simpa using ⟨hmade, hpv⟩
    · by_cases hgoes : s.refs.Goes pv l
      · simp [hc.gone l hgoes, hgoes]
      · rw [hc.kept l hl hgoes]
        exact ⟨fun h => ⟨h, hgoes⟩, fun h => h.1⟩
  have hpointee : ∀ l, heap.refps.find l ≠ none →
      (heap.refps.find l).join = if l = pv then none else s.refs.pointee l := by
    intro l hl
    split
    · rename_i heq
      rw [heq, hc.empty]
      rfl
    · rename_i hne
      rw [hc.kept l hne ((hfind l).1 hl).2]
      rfl
  have hreferences : ∀ o, heap.refps.count (some o) + s.refs.out o ≤ s.refs.references o := by
    intro o
    have hle := hc.count_erase_le o
    have hafter := SortedMap.count_eq_erase_add heap.refps pv (some o)
    rw [hc.empty, if_neg (by simp)] at hafter
    have hbefore := SortedMap.count_eq_erase_add s.refs.heap.refps pv (some o)
    unfold RefRun.references
    omega
  refine ⟨⟨?_, hc.balanced⟩, hc.survives, hfind, hpointee, slots_setSlot (s.withHeap heap) pv .null,
    rfl, rfl, fun o => ?_, hreferences⟩
  · refine hs.toLinked.of_sub (fun o ob hob => ?_) rfl le_rfl (fun l o hin => ?_) (fun l hl => ?_)
      (fun l hl hmade' => ?_) (fun o ho => ?_)
    · obtain ⟨ob', hob', heq⟩ := hc.members o ob hob
      exact ⟨ob', hob', heq⟩
    · -- an element goes only with its container
      obtain ⟨ob, hob, hin⟩ := hin
      obtain ⟨ob', hob', heq⟩ := hc.members o ob hob
      have hmember : s.refs.MemberOf l o := ⟨ob', hob', heq ▸ hin⟩
      refine (hfind l).2 ⟨hs.made l o hmember, ?_⟩
      rintro ⟨o', hin', hdoomed⟩
      rw [← hs.home l o o' hmember hin'] at hdoomed
      have hdead := hc.dead o hdoomed
      have hob'' : heap.alive o = some ob := hob
      rw [hdead] at hob''
      cases hob''
    · rw [slots_setSlot]
      have hp : ((s.withHeap heap).setSlot pv .null).refs.pointee l =
          if l = pv then none else s.refs.pointee l := hpointee l hl
      rw [hp]
      split
      · exact ⟨rfl, nofun⟩
      · exact hs.typed l ((hfind l).1 hl).1
    · exact hs.freshValue l hl ((hfind l).1 hmade').1
    · exact hc.unknown o ho
  · constructor
    · intro halive
      obtain ⟨ob, hob⟩ := Option.ne_none_iff_exists'.1 halive
      obtain ⟨ob', hob', -⟩ := hc.members o ob hob
      refine ⟨by rw [hob']; simp, fun hdoomed => halive (hc.dead o hdoomed)⟩
    · rintro ⟨halive, hspared⟩
      exact hc.spared o halive hspared

/-! ### A value gets a pointer -/

/-- A value becomes `v` with the pointer `p`, and no object comes or goes. -/
structure Repoints (s : ValueHeap) (pv : Nat) (v : Slot) (p : Option Nat) (t : ValueHeap) :
    Prop where
  made : ∀ l, t.refs.Made l ↔ s.refs.Made l
  pointee : ∀ l, t.refs.pointee l = if l = pv then p else s.refs.pointee l
  slots : ∀ l, t.slots l = if l = pv then v else s.slots l
  contents : t.contents = s.contents
  next : t.next = s.next
  alive : ∀ o ob, t.refs.heap.alive o = some ob →
    ∃ ob', s.refs.heap.alive o = some ob' ∧ ob.members = ob'.members
  kept : ∀ o, s.refs.heap.alive o ≠ none → t.refs.heap.alive o ≠ none
  objects : ∀ o, s.refs.heap.objects o = none → t.refs.heap.objects o = none

/-- The value had no pointer. -/
structure Points (s : ValueHeap) (pv : Nat) (v : Slot) (p : Option Nat) (t : ValueHeap) :
    Prop extends Repoints s pv v p t where
  references : ∀ o, t.refs.references o = s.refs.references o + if p = some o then 1 else 0

theorem Repoints.memberOf {v : Slot} {p : Option Nat} (hp : Repoints s pv v p t)
    (hin : t.refs.MemberOf l o) : s.refs.MemberOf l o := by
  obtain ⟨ob, hob, hin⟩ := hin
  obtain ⟨ob', hob', heq⟩ := hp.alive o ob hob
  exact ⟨ob', hob', heq ▸ hin⟩

theorem Repoints.linked {v : Slot} {p : Option Nat} (hp : Repoints s pv v p t) (hs : Linked x s)
    (hv : v.Holds (p.map s.contents)) : Linked x t := by
  refine hs.of_sub hp.alive hp.contents hp.next.ge (fun l o hin => ?_) (fun l hl => ?_)
    (fun l hl => ?_) hp.objects
  · exact (hp.made l).2 (hs.made l o (hp.memberOf hin))
  · rw [hp.slots, hp.pointee]
    split
    · exact hv
    · exact hs.typed l ((hp.made l).1 hl)
  · rw [hp.made]
    exact hs.freshValue l (hp.next ▸ hl)

theorem Repoints.trans_slot {v w : Slot} {p : Option Nat}
    (hp : Repoints (s.setSlot pv w) pv v p t) : Repoints s pv v p t where
  made := hp.made
  pointee := hp.pointee
  slots l := by
    rw [hp.slots, slots_setSlot]
    split <;> rfl
  contents := hp.contents
  next := hp.next
  alive := hp.alive
  kept := hp.kept
  objects := hp.objects

theorem Repoints.setSlot {w : Slot} {p : Option Nat} (hp : Repoints s pv w p t) (v : Slot) :
    Repoints s pv v p (t.setSlot pv v) where
  made := hp.made
  pointee := hp.pointee
  slots l := by
    rw [slots_setSlot, hp.slots]
    split <;> rfl
  contents := hp.contents
  next := hp.next
  alive := hp.alive
  kept := hp.kept
  objects := hp.objects

theorem Points.trans_slot {v w : Slot} {p : Option Nat} (hp : Points (s.setSlot pv w) pv v p t) :
    Points s pv v p t := ⟨hp.toRepoints.trans_slot, hp.references⟩

theorem points_setSlot (hempty : s.refs.pointee pv = none) (v : Slot) :
    Points s pv v none (s.setSlot pv v) where
  made _ := Iff.rfl
  pointee l := by
    split
    · rename_i heq
      rw [heq]
      exact hempty
    · rfl
  slots := slots_setSlot s pv v
  contents := rfl
  next := rfl
  alive o ob hob := ⟨ob, hob, rfl⟩
  kept _ h := h
  objects _ h := h
  references o := by simp

/-- A pointer changes, and with it the count of an object. -/
theorem repoints_setObject {ob : RefableImp} (hmade : s.refs.Made pv)
    (hob : s.refs.heap.alive o = some ob) (p : Option Nat) (ob' : RefableImp)
    (hmembers : ob'.members = ob.members) (hlive : ob'.destroyed = false) :
    Repoints s pv (s.slots pv) p
      ((s.setPointer pv p).withHeap ((s.setPointer pv p).refs.heap.setObject o ob')) := by
  have halive : ∀ y, ((s.setPointer pv p).refs.heap.setObject o ob').alive y =
      if y = o then some ob' else s.refs.heap.alive y :=
    RefHeap.alive_setObject_live hlive (s.setPointer pv p).refs.heap o
  refine ⟨fun l => ?_, pointee_setPointer s pv p, fun l => ?_, rfl, rfl, fun y ob'' hy => ?_,
    fun y hy => ?_, fun y hy => ?_⟩
  · exact (made_setPointer s pv p l).trans ⟨fun h => h.elim (fun heq => heq ▸ hmade) id, .inr⟩
  · split
    · rename_i heq
      rw [heq]
      rfl
    · rfl
  · have hy' := (halive y).symm.trans hy
    split at hy'
    · rename_i heq
      cases hy'
      exact ⟨ob, heq ▸ hob, hmembers⟩
    · exact ⟨ob'', hy', rfl⟩
  · show ((s.setPointer pv p).refs.heap.setObject o ob').alive y ≠ none
    rw [halive]
    split
    · simp
    · exact hy
  · have hne : y ≠ o := by
      rintro rfl
      rw [(RefHeap.alive_eq_some_iff.1 hob).1] at hy
      cases hy
    exact (Function.update_of_ne hne ..).trans hy

theorem points_share {ob : RefableImp} (hmade : s.refs.Made pv) (hempty : s.refs.pointee pv = none)
    (hob : s.refs.heap.alive o = some ob) :
    ∃ t, s.share pv o = some t ∧ Points s pv (s.slots pv) (some o) t ∧
      (Exact s.refs.heap.objects s.refs.references → s.refs.references o + 1 < 4294967296 →
        Exact t.refs.heap.objects t.refs.references) := by
  obtain ⟨hmem, hdead⟩ := RefHeap.alive_eq_some_iff.1 hob
  have hob' : (s.setPointer pv (some o)).refs.heap.alive o = some ob := hob
  let ob' : RefableImp := { ob with refCount := ob.refCount + 1, referenced := true }
  have hreferences : ∀ y, (s.setPointer pv (some o)).refs.references y =
      Function.update s.refs.references o (s.refs.references o + 1) y := by
    intro y
    rw [references_setPointer hempty]
    by_cases hy : y = o
    · rw [hy, if_pos rfl, Function.update_self]
    · rw [if_neg (by simpa using Ne.symm hy), Function.update_of_ne hy]
      rfl
  refine ⟨(s.setPointer pv (some o)).withHeap
      ((s.setPointer pv (some o)).refs.heap.setObject o ob'), ?_,
    ⟨repoints_setObject hmade hob (some o) ob' rfl hdead, references_setPointer hempty (some o)⟩,
    fun he hroom => ?_⟩
  · simp only [share, RefHeap.reference, hob', Option.bind_eq_bind, Option.bind_some]
    rfl
  · exact (he.reference hmem hdead hroom).congr fun y => (hreferences y).symm

/-- A value gives up a reference to an object that has another one. -/
theorem Linked.valueClear_shared (hs : Linked x s)
    (he : Exact s.refs.heap.objects s.refs.references) (hp : s.refs.pointee pv = some o)
    (hmore : 2 ≤ s.refs.references o) :
    ∃ t, s.valueClear pv = some t ∧ Repoints s pv .null none t ∧
      (∀ y, t.refs.references y = s.refs.references y - if o = y then 1 else 0) ∧
      Exact t.refs.heap.objects t.refs.references := by
  have hmade := made_of_pointee hp
  obtain ⟨ob, hob⟩ := alive_of_pointee he hp
  obtain ⟨hmem, hdead⟩ := RefHeap.alive_eq_some_iff.1 hob
  have hne := he.not_last hmem hmore
  have hfind : s.refs.heap.refps.find pv = some (some o) := holds_iff.2 hp
  let ob' : RefableImp := { ob with refCount := ob.refCount - 1 }
  let heap := (s.setPointer pv none).refs.heap.setObject o ob'
  have hreferences : ∀ y, heap.refps.count (some y) + s.refs.out y =
      s.refs.references y - if o = y then 1 else 0 := by
    intro y
    have hbefore := SortedMap.count_eq_erase_add s.refs.heap.refps pv (some y)
    have hafter := SortedMap.count_assign s.refs.heap.refps pv (some y) none
    rw [if_neg (Option.some_ne_none _).symm] at hafter
    have hsame : heap.refps.count (some y) = (s.refs.heap.refps.assign pv none).count (some y) :=
      rfl
    rw [hfind] at hbefore
    unfold RefRun.references
    by_cases hy : o = y
    · rw [if_pos (congrArg (fun z => some (some z)) hy)] at hbefore
      rw [if_pos hy]
      omega
    · rw [if_neg (by simpa using hy)] at hbefore
      rw [if_neg hy]
      omega
  refine ⟨((s.setPointer pv none).withHeap heap).setSlot pv .null, ?_, ?_, hreferences, ?_⟩
  · rw [hs.valueClear_eq hmade, RefHeap.dispose_shared hfind hob hne]
    rfl
  · exact (repoints_setObject hmade hob none ob' rfl hdead).setSlot .null
  · have hexact := he.release hmem (by omega) (d := ob.destroyed)
      (by rw [hdead]; exact ⟨fun h => absurd h Bool.false_ne_true, fun h => absurd h hne⟩)
    refine hexact.congr fun y => ?_
    refine Eq.trans ?_ (hreferences y).symm
    by_cases hy : y = o
    · rw [hy, Function.update_self, if_pos rfl]
    · rw [Function.update_of_ne hy, if_neg (Ne.symm hy), Nat.sub_zero]

/-- After `vpOut` was cleared, `ValueSet` makes it what `vpIn` is. -/
theorem Linked.valueSet_of_clear {vpIn vpOut : Nat} {u : ValueHeap} (hu : Linked x u)
    (he : Exact u.refs.heap.objects u.refs.references) (hclear : s.valueClear vpOut = some u)
    (hout : u.refs.Made vpOut) (hempty : u.refs.pointee vpOut = none) (hin : u.refs.Made vpIn) :
    ∃ t, s.valueSet vpIn vpOut = some (true, t) ∧
      Points u vpOut (u.slots vpIn) (u.refs.pointee vpIn) t ∧
      ((∀ o, u.refs.pointee vpIn = some o → u.refs.references o + 1 < 4294967296) →
        Exact t.refs.heap.objects t.refs.references) := by
  have htyped := hu.typed vpIn hin
  unfold valueSet
  simp only [hclear, Option.bind_eq_bind, Option.bind_some, slot_of_made hin, refs_setSlot]
  generalize u.slots vpIn = v at htyped ⊢
  obtain ⟨vt, vs, anyval⟩ := v
  cases hp : u.refs.pointee vpIn with
  | none =>
      rw [hp] at htyped
      have hscalar : Points u vpOut ⟨vt, vs, anyval⟩ none
          ((u.setSlot vpOut ⟨vt, vs, 0⟩).setSlot vpOut ⟨vt, vs, anyval⟩) :=
        Points.trans_slot (points_setSlot (s := u.setSlot vpOut ⟨vt, vs, 0⟩) hempty _)
      cases vt with
      | dNull => exact ⟨_, rfl, hscalar, fun _ => he⟩
      | dInt => exact ⟨_, rfl, hscalar, fun _ => he⟩
      | dReal => exact ⟨_, rfl, hscalar, fun _ => he⟩
      | dUnknown =>
          obtain rfl : anyval = 0 := htyped.2 rfl
          exact ⟨_, rfl, points_setSlot hempty _, fun _ => he⟩
      | dLocalStr => exact absurd htyped.1 nofun
      | dUtf8Str => exact absurd htyped.1 nofun
      | dUniStr => exact absurd htyped.1 nofun
      | dArray => exact absurd htyped.1 nofun
      | dObject => exact absurd htyped.1 nofun
      | dBuffer => exact absurd htyped.1 nofun
  | some o =>
      rw [hp] at htyped
      have hcontent := htyped.2
      obtain rfl : anyval = 0 := htyped.1
      obtain ⟨ob, hob⟩ := alive_of_pointee he hp
      obtain ⟨t, hshare, hpoints, hexact⟩ :=
        points_share (s := u.setSlot vpOut ⟨vt, vs, 0⟩) hout hempty hob
      rw [slots_setSlot, if_pos rfl] at hpoints
      have hdone : ∃ t, ((u.setSlot vpOut ⟨vt, vs, 0⟩).share vpOut o).map (true, ·) =
          some (true, t) ∧ Points u vpOut ⟨vt, vs, 0⟩ (some o) t ∧
            ((∀ o', some o = some o' → u.refs.references o' + 1 < 4294967296) →
              Exact t.refs.heap.objects t.refs.references) :=
        ⟨t, by rw [hshare]; rfl, hpoints.trans_slot, fun hroom => hexact he (hroom o rfl)⟩
      cases vt with
      | dNull => exact hcontent.elim nofun nofun
      | dInt => exact hcontent.elim nofun nofun
      | dReal => exact hcontent.elim nofun nofun
      | dLocalStr => exact hdone
      | dUtf8Str => exact hdone
      | dUniStr => exact hdone
      | dArray => exact hdone
      | dObject => exact hdone
      | dBuffer => exact hdone
      | dUnknown => exact hdone

end ValueHeap

end Vin64.Xv
