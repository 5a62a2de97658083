import Vin64.Kernel.Children
import Vin64.Kernel.Proofs.Mounts

/-!
# One child for each name

The children are found, added and gone through by one comparison, that of the forms of their
names; what a set sorted by it does is all that is used of `std::set`.
-/

namespace Vin64.Kernel

open Vin64.Lib Vin64.Vram

namespace Children

variable {s t : Children} {name : List Char} {e f it : Child}

/-! ## Lookup -/

theorem getNode_eq_some_iff :
    s.getNode name = some e ↔ e ∈ s.nodes.elements ∧ fold e.name = fold name := by
  unfold getNode
  rw [OrderedSet.find_eq_some_iff, alike_iff]
  rfl

theorem getNode_eq_none_iff :
    s.getNode name = none ↔ ∀ e ∈ s.nodes.elements, fold e.name ≠ fold name := by
  unfold getNode
  rw [OrderedSet.find_eq_none_iff]
  simp only [alike_iff]
  rfl

theorem addChild_old (h : s.getNode name = some e) : s.addChild (some name) = (some e, s) := by
  unfold getNode at h
  simp only [addChild, h]

theorem addChild_new (h : s.getNode name = none) : s.addChild (some name) =
    (some (s.tmp name), { nodes := s.nodes.insert (s.tmp name), next := s.next + 1 }) := by
  unfold getNode at h
  simp only [addChild, h]

theorem nextNode_eq : s.nextNode = s.nodes.next := by
  funext p
  unfold nextNode
  by_cases hempty : s.nodes.elements = []
  · rw [if_pos hempty]
    cases p with
    | none => simp [OrderedSet.next, hempty]
    | some p => simp [OrderedSet.next, OrderedSet.upperBound, hempty]
  · rw [if_neg hempty]
    cases p <;> rfl

theorem eraseChild_absent (h : s.getNode name = none) :
    s.eraseChild (some name) = some (.error (.win32 ERROR_FILE_NOT_FOUND)) := by
  unfold getNode at h
  simp only [eraseChild, h]

theorem eraseChild_found {ob : Nat} (h : s.getNode name = some it) (hmount : it.mount = some ob) :
    s.eraseChild (some name) = some (.ok (ob, { s with nodes := s.nodes.erase it })) := by
  unfold getNode at h
  simp only [eraseChild, h, hmount]

/-! ## What a call leaves -/

theorem mem_addChild_new (h : s.getNode name = none) :
    e ∈ (s.addChild (some name)).2.nodes.elements ↔ e = s.tmp name ∨ e ∈ s.nodes.elements := by
  rw [addChild_new h]
  exact OrderedSet.mem_insert h

theorem mem_erase :
    e ∈ (s.nodes.erase it).elements ↔ e ∈ s.nodes.elements ∧ fold e.name ≠ fold it.name := by
  rw [OrderedSet.mem_erase, alike_iff]

theorem mem_setMount {mount : Option Nat} : f ∈ (s.setMount it mount).nodes.elements ↔
    ∃ e ∈ s.nodes.elements, (if e.id = it.id then { e with mount := mount } else e) = f :=
  List.mem_map

theorem eraseChild_cases {name : Option (List Char)} {r : Except HRESULT (Nat × Children)}
    (h : s.eraseChild name = some r) : (∃ e, r = .error e) ∨
      ∃ it ob, r = .ok (ob, { s with nodes := s.nodes.erase it }) := by
  cases name with
  | none => exact .inl ⟨_, (Option.some.inj h).symm⟩
  | some name =>
      cases hget : s.getNode name with
      | none =>
          rw [eraseChild_absent hget] at h
          exact .inl ⟨_, (Option.some.inj h).symm⟩
      | some it =>
          cases hmount : it.mount with
          | none =>
              unfold getNode at hget
              simp only [eraseChild, hget, hmount] at h
              cases h
          | some ob =>
              rw [eraseChild_found hget hmount] at h
              exact .inr ⟨it, ob, (Option.some.inj h).symm⟩

theorem mount_cases (s : Children) (it : Child) (ob : Option Nat) :
    (∃ e, s.mount it ob = .error e) ∨ ∃ m, s.mount it ob = .ok (s.setMount it m) := by
  unfold mount
  split
  · exact .inl ⟨_, rfl⟩
  · exact .inl ⟨_, rfl⟩
  · exact .inr ⟨_, rfl⟩

theorem unmount_cases (s : Children) (it : Child) :
    (∃ e, s.unmount it = .error e) ∨ ∃ m, s.unmount it = .ok (s.setMount it m) := by
  unfold unmount
  split
  · exact .inl ⟨_, rfl⟩
  · exact .inr ⟨_, rfl⟩

/-! ## Numbers -/

/-- No child has the number of another one, or of a later one. -/
structure Numbered (s : Children) : Prop where
  below : ∀ e ∈ s.nodes.elements, e.id < s.next
  unique : ∀ e ∈ s.nodes.elements, ∀ f ∈ s.nodes.elements, e.id = f.id → e = f

theorem elements_nodup (s : Children) : s.nodes.elements.Nodup := by
  refine s.nodes.sorted.imp fun {a b} hlt => ?_
  rintro rfl
  exact irrefl a hlt

theorem Numbered.nodup (h : s.Numbered) : (s.nodes.elements.map Child.id).Nodup :=
  (List.nodup_map_iff_inj_on (elements_nodup s)).2 h.unique

theorem Numbered.addChild (h : s.Numbered) (name : Option (List Char)) :
    (s.addChild name).2.Numbered := by
  cases name with
  | none => exact h
  | some name =>
      cases hget : s.getNode name with
      | some e =>
          rw [addChild_old hget]
          exact h
      | none =>
          have hmem := fun e => mem_addChild_new (e := e) hget
          have hnext : (s.addChild (some name)).2.next = s.next + 1 := by rw [addChild_new hget]
          constructor
          · intro e he
            rw [hnext]
            rcases (hmem e).1 he with rfl | he
            · exact Nat.lt_succ_self _
            · exact (h.below e he).trans (Nat.lt_succ_self _)
          · intro e he f hf hid
            rcases (hmem e).1 he with rfl | he
            · rcases (hmem f).1 hf with rfl | hf
              · rfl
              · exact absurd hid.symm (h.below f hf).ne
            · rcases (hmem f).1 hf with rfl | hf
              · exact absurd hid (h.below e he).ne
              · exact h.unique e he f hf hid

theorem Numbered.erase (h : s.Numbered) (it : Child) :
    Numbered { s with nodes := s.nodes.erase it } where
  below e he := h.below e (mem_erase.1 he).1
  unique e he f hf := h.unique e (mem_erase.1 he).1 f (mem_erase.1 hf).1

theorem Numbered.setMount (h : s.Numbered) (it : Child) (mount : Option Nat) :
    (s.setMount it mount).Numbered := by
  have hid : ∀ e : Child, (if e.id = it.id then { e with mount := mount } else e).id = e.id := by
    intro e
    split <;> rfl
  constructor
  · intro f hf
    obtain ⟨e, he, rfl⟩ := mem_setMount.1 hf
    rw [hid]
    exact h.below e he
  · intro f hf f' hf' heq
    obtain ⟨e, he, rfl⟩ := mem_setMount.1 hf
    obtain ⟨e', he', rfl⟩ := mem_setMount.1 hf'
    rw [hid, hid] at heq
    rw [h.unique e he e' he' heq]

theorem Numbered.call {c : ChildCall} (h : s.Numbered) (hstep : s.Step c t) : t.Numbered := by
  cases c with
  | addChild name =>
      cases hstep
      exact h.addChild name
  | getNode name =>
      cases hstep
      exact h
  | eraseChild name =>
      obtain ⟨r, hr, rfl⟩ := Option.map_eq_some_iff.1 hstep
      rcases eraseChild_cases hr with ⟨e, rfl⟩ | ⟨it, ob, rfl⟩
      · exact h
      · exact h.erase it
  | mount name ob =>
      obtain ⟨it, -, rfl⟩ := Option.map_eq_some_iff.1 hstep
      rcases mount_cases s it ob with ⟨e, hr⟩ | ⟨m, hr⟩
      · rw [hr]
        exact h
      · rw [hr]
        exact h.setMount it m
  | unmount name =>
      obtain ⟨it, -, rfl⟩ := Option.map_eq_some_iff.1 hstep
      rcases unmount_cases s it with ⟨e, hr⟩ | ⟨m, hr⟩
      · rw [hr]
        exact h
      · rw [hr]
        exact h.setMount it m

theorem run_numbered {calls : List ChildCall} (hrun : Run Step new calls s) : s.Numbered :=
  hrun.invariant ⟨nofun, nofun⟩ fun _ _ _ h hstep => h.call hstep

/-- Numbered children have one name each, are found and not added again under it, and `next` goes
through them in its order. -/
theorem Numbered.law (h : s.Numbered) : s.ChildrenLaw := by
  have hsorted : s.nodes.elements.Pairwise fun e f => fold e.name < fold f.name :=
    s.nodes.sorted.imp fun hlt => (less_iff _ _).1 hlt
  refine ⟨hsorted.imp fun hlt => hlt.ne, fun name e => getNode_eq_some_iff, ?_, ?_⟩
  · intro name e he hname
    exact addChild_old (getNode_eq_some_iff.2 ⟨he, hname⟩)
  · rw [nextNode_eq]
    exact ⟨_, OrderedSet.visits_all s.nodes, fun _ => Iff.rfl, h.nodup, hsorted⟩

/-- After any calls the children have one name each, are found and not added again under it, and
`next` goes through them in its order. -/
theorem run_childrenLaw {calls : List ChildCall} (hrun : Run Step new calls s) :
    s.ChildrenLaw := (run_numbered hrun).law

/-- Two children, looked up under a name in another case. -/
theorem run_childrenLaw_two : ∃ s, ChildrenLaw s ∧ s.nodes.elements.length = 2 ∧
    s.getNode ['C', 'O', 'M'] = some ⟨0, ['C', 'o', 'm'], some 7⟩ := by
  have hrun : Run Step new
      [.mount ['c', 'o', 'm'] (some 7), .addChild (some ['A', '1']),
        .addChild (some ['c', 'o', 'm']), .addChild (some ['C', 'o', 'm'])] _ :=
    (((Run.nil.snoc rfl).snoc rfl).snoc rfl).snoc rfl
  exact ⟨_, run_childrenLaw hrun, by decide, by decide⟩

/-! ## Lookups after a call -/

theorem getNode_addChild_new {dir : List Char} (h : s.getNode name = none) :
    (s.addChild (some name)).2.getNode dir =
      if fold dir = fold name then some (s.tmp name) else s.getNode dir := by
  refine Option.ext fun e => ?_
  rw [getNode_eq_some_iff, mem_addChild_new h]
  by_cases hdir : fold dir = fold name
  · rw [if_pos hdir, hdir]
    constructor
    · rintro ⟨rfl | he, hname⟩
      · rfl
      · exact absurd hname (getNode_eq_none_iff.1 h e he)
    · intro he
      obtain rfl := Option.some.inj he
      exact ⟨.inl rfl, rfl⟩
  · rw [if_neg hdir, getNode_eq_some_iff]
    constructor
    · rintro ⟨rfl | he, hname⟩
      · exact absurd hname.symm hdir
      · exact ⟨he, hname⟩
    · intro ⟨he, hname⟩
      exact ⟨.inr he, hname⟩

theorem getNode_erase {dir : List Char} (h : s.getNode name = some it) :
    getNode { s with nodes := s.nodes.erase it } dir =
      if fold dir = fold name then none else s.getNode dir := by
  have hit := (getNode_eq_some_iff.1 h).2
  refine Option.ext fun e => ?_
  rw [getNode_eq_some_iff, mem_erase, hit]
  by_cases hdir : fold dir = fold name
  · rw [if_pos hdir, hdir]
    exact ⟨fun he => absurd he.2 he.1.2, nofun⟩
  · rw [if_neg hdir, getNode_eq_some_iff]
    constructor
    · intro h
      exact ⟨h.1.1, h.2⟩
    · intro ⟨he, hname⟩
      exact ⟨⟨he, fun hold => hdir (hname.symm.trans hold)⟩, hname⟩

theorem getNode_setMount {dir : List Char} (hnum : s.Numbered) (h : s.getNode name = some it)
    (m : Option Nat) : (s.setMount it m).getNode dir =
      if fold dir = fold name then some { it with mount := m } else s.getNode dir := by
  obtain ⟨hit, hname⟩ := getNode_eq_some_iff.1 h
  have hmem : ∀ e ∈ s.nodes.elements, e.id = it.id ↔ e = it := by
    intro e he
    exact ⟨hnum.unique e he it hit, fun heq => heq ▸ rfl⟩
  refine Option.ext fun f => ?_
  rw [getNode_eq_some_iff, mem_setMount]
  by_cases hdir : fold dir = fold name
  · rw [if_pos hdir, hdir]
    constructor
    · rintro ⟨⟨e, he, rfl⟩, hf⟩
      by_cases hid : e.id = it.id
      · rw [if_pos hid, (hmem e he).1 hid]
      · rw [if_neg hid] at hf
        have heq := Option.some.inj ((getNode_eq_some_iff.2 ⟨he, hf⟩).symm.trans h)
        exact absurd ((hmem e he).2 heq) hid
    · intro hf
      obtain rfl := Option.some.inj hf
      exact ⟨⟨it, hit, if_pos rfl⟩, hname⟩
  · rw [if_neg hdir, getNode_eq_some_iff]
    constructor
    · rintro ⟨⟨e, he, rfl⟩, hf⟩
      by_cases hid : e.id = it.id
      · rw [if_pos hid] at hf
        obtain rfl := (hmem e he).1 hid
        exact absurd (hf.symm.trans hname) hdir
      · rw [if_neg hid] at hf ⊢
        exact ⟨he, hf⟩
    · intro ⟨hf, hfname⟩
      refine ⟨⟨f, hf, if_neg fun hid => ?_⟩, hfname⟩
      obtain rfl := (hmem f hf).1 hid
      exact hdir (hfname.symm.trans hname)

end Children

end Vin64.Kernel
