import Vin64.Kernel.SectionUsers

/-!
# Both sides of the link between sections and users
-/

namespace Vin64.Kernel.Links

open Vin64.Lib

variable {s : Links}

theorem users_setUser (s : Links) (u : Nat) (user : KoSectionUser) (v : Nat) :
    (s.setUser u user).users v = if v = u then user else s.users v := Function.update_apply ..

theorem sections_setSection (s : Links) (x : Nat) (sec : KoSection) (y : Nat) :
    (s.setSection x sec).sections y = if y = x then sec else s.sections y :=
  Function.update_apply ..

/-- Attaching a user that has no section to a section that was not destroyed. -/
theorem Linked.attach {u x : Nat} (h : s.Linked) (hfree : (s.users u).section_ = none)
    (hlive : (s.sections x).destroyed = false) :
    Linked ((s.setUser u { s.users u with section_ := some x }).insertUser x u) := by
  have huser : ∀ v, ((s.setUser u { s.users u with section_ := some x }).insertUser x u).users v =
      if v = u then { s.users u with section_ := some x } else s.users v :=
    users_setUser s u _
  have hsection : ∀ y, ((s.setUser u { s.users u with section_ := some x }).insertUser x u).sections y =
      if y = x then { s.sections x with users := insert u (s.sections x).users } else s.sections y :=
    sections_setSection _ x _
  refine ⟨fun v y => ?_, fun v y hv => ?_⟩
  · rw [huser, hsection]
    by_cases hv : v = u
    · subst hv
      by_cases hy : y = x
      · subst hy
        simp
      · have hout : v ∉ (s.sections y).users := fun hmem => by
          rw [(h.agree v y).2 hmem] at hfree
          cases hfree
        simp [hy, Ne.symm hy, hout]
    · rw [if_neg hv, h.agree v y]
      by_cases hy : y = x
      · subst hy
        simp [hv]
      · rw [if_neg hy]
  · rw [huser] at hv
    rw [hsection]
    have hold : y ≠ x → (s.sections y).destroyed = false := by
      intro hy
      by_cases hvu : v = u
      · rw [if_pos hvu] at hv
        exact absurd (Option.some.inj hv).symm hy
      · rw [if_neg hvu] at hv
        exact h.live v y hv
    by_cases hy : y = x
    · rw [if_pos hy]
      exact hlive
    · rw [if_neg hy]
      exact hold hy

theorem Linked.userCreate {u : Nat} {sec : Option Nat} (h : s.Linked)
    (hlive : ∀ x, sec = some x → (s.sections x).destroyed = false) :
    (s.userCreate u sec).2.Linked := by
  unfold Links.userCreate
  split
  · rename_i x hfree
    exact h.attach hfree (hlive x rfl)
  · exact h

/-- Fields without a part in the link. -/
theorem Linked.setView {u : Nat} (h : s.Linked) (off size : BitVec 64) :
    Linked (s.setUser u { s.users u with off := off, size := size }) := by
  have huser : ∀ v, ((s.setUser u { s.users u with off := off, size := size }).users v).section_ =
      (s.users v).section_ := by
    intro v
    rw [users_setUser]
    split
    · rename_i hv
      rw [hv]
    · rfl
  exact ⟨fun v y => by rw [huser]; exact h.agree v y, fun v y hv => h.live v y (huser v ▸ hv)⟩

theorem Linked.userClose (h : s.Linked) (u : Nat) : (s.userClose u).2.Linked := by
  have huser : ∀ v, ((s.userClose u).2.users v).section_ =
      if v = u then none else (s.users v).section_ := by
    intro v
    unfold Links.userClose
    rw [users_setUser]
    split
    · rfl
    · cases hsec : (s.users u).section_ <;> rfl
  have hsection : ∀ y, (s.userClose u).2.sections y =
      { s.sections y with users := (s.sections y).users.erase u } := by
    intro y
    unfold Links.userClose
    cases hsec : (s.users u).section_ with
    | none =>
        have hout : u ∉ (s.sections y).users := fun hmem => by
          rw [(h.agree u y).2 hmem] at hsec
          cases hsec
        show s.sections y = _
        rw [Finset.erase_eq_of_notMem hout]
    | some x =>
        show (s.removeUser x u).sections y = _
        unfold removeUser
        rw [sections_setSection]
        split
        · rename_i hy
          rw [hy]
        · rename_i hy
          have hout : u ∉ (s.sections y).users := fun hmem => by
            rw [(h.agree u y).2 hmem] at hsec
            exact hy (Option.some.inj hsec)
          rw [Finset.erase_eq_of_notMem hout]
  refine ⟨fun v y => ?_, fun v y hv => ?_⟩
  · rw [huser, hsection]
    by_cases hvu : v = u
    · simp [hvu]
    · rw [if_neg hvu, h.agree v y]
      simp [hvu]
  · rw [huser] at hv
    rw [hsection]
    split at hv
    · cases hv
    · exact h.live v y hv

/-- Destroying a section that has users leaves them with it. -/
theorem Linked.sectionDestroy_iff {x : Nat} (h : s.Linked) :
    (s.sectionDestroy x).Linked ↔ (s.sections x).users = ∅ := by
  have hsection : ∀ y, (s.sectionDestroy x).sections y =
      if y = x then { s.sections x with users := ∅, destroyed := true } else s.sections y :=
    sections_setSection s x _
  constructor
  · intro hafter
    refine Finset.eq_empty_of_forall_notMem fun u hu => ?_
    have hlive := hafter.live u x ((h.agree u x).2 hu)
    rw [hsection, if_pos rfl] at hlive
    cases hlive
  · intro hempty
    refine ⟨fun u y => ?_, fun u y hu => ?_⟩
    · rw [hsection]
      split
      · rename_i hy
        rw [hy]
        exact (h.agree u x).trans (by rw [hempty])
      · exact h.agree u y
    · rw [hsection]
      split
      · rename_i hy
        have hmem := (h.agree u x).1 (hy ▸ hu)
        rw [hempty] at hmem
        cases hmem
      · exact h.live u y hu

theorem Linked.sectionCreate {x : Nat} {size : BitVec 64} (h : s.Linked) :
    (s.sectionCreate x size).2.Linked := by
  have hsection : ∀ y, (((s.sectionCreate x size).2.sections y).users = (s.sections y).users) ∧
      ((s.sectionCreate x size).2.sections y).destroyed = (s.sections y).destroyed := by
    intro y
    unfold Links.sectionCreate
    rw [sections_setSection]
    split
    · rename_i hy
      rw [hy]
      exact ⟨rfl, rfl⟩
    · exact ⟨rfl, rfl⟩
  refine ⟨fun u y => ?_, fun u y hu => ?_⟩
  · rw [(hsection y).1]
    exact h.agree u y
  · rw [(hsection y).2]
    exact h.live u y hu

theorem Linked.call {c : LinkCall} {t : Links} (h : s.Linked) (horderly : s.Orderly c)
    (hstep : s.Step c t) : t.Linked := by
  cases c with
  | userCreate u sec =>
      cases hstep
      refine h.userCreate fun x hx => ?_
      subst hx
      exact horderly
  | userClose u =>
      cases hstep
      exact h.userClose u
  | viewCreate u sec off size =>
      obtain ⟨r, hr, rfl⟩ := Option.map_eq_some_iff.1 hstep
      cases sec with
      | none => cases hr
      | some x =>
          have hcreate : (s.userCreate u (some x)).2.Linked := by
            refine h.userCreate fun y hy => ?_
            cases hy
            exact horderly
          simp only [Links.viewCreate] at hr
          split at hr
          · cases hr
            exact h
          · cases hcall : s.userCreate u (some x) with
            | mk ok s' =>
                rw [hcall] at hr hcreate
                cases ok with
                | false =>
                    cases hr
                    exact hcreate
                | true =>
                    cases hr
                    exact hcreate.setView off size
  | viewClose u =>
      cases hstep
      exact (h.setView 0 0).userClose u
  | sectionCreate x size =>
      cases hstep
      exact h.sectionCreate
  | sectionClose x =>
      cases hstep
      exact h
  | sectionDestroy x =>
      cases hstep
      exact h.sectionDestroy_iff.2 horderly

theorem Fresh.linked (h : s.Fresh) : s.Linked where
  agree u x := by
    rw [h.users u, (h.sections x).1]
    exact ⟨nofun, nofun⟩
  live u x hu := by
    rw [h.users u] at hu
    cases hu

/-- In a run in which sections are destroyed after their users both sides of the link agree. -/
theorem run_linked {calls : List LinkCall} {start s : Links} (hstart : start.Fresh)
    (hrun : Run (When Orderly Step) start calls s) : s.Linked :=
  hrun.invariant hstart.linked fun _ _ _ h hstep => h.call hstep.1 hstep.2

def freshLinks : Links := ⟨fun _ => ⟨none, 0, 0⟩, fun _ => ⟨∅, 0, false⟩⟩

theorem freshLinks_fresh : freshLinks.Fresh := ⟨fun _ => rfl, fun _ => ⟨rfl, rfl⟩⟩

/-- Two users of a section, of which the first is closed, and a section without users. -/
theorem run_linked_closed : ∃ s, Run (When Orderly Step) freshLinks
    [.userClose 0, .sectionDestroy 1, .userCreate 1 (some 0), .userCreate 0 (some 0)] s ∧
      s.Linked ∧ (s.users 0).section_ = none ∧ (s.users 1).section_ = some 0 ∧
      (s.sections 0).users = {1} ∧ (s.sections 1).destroyed = true := by
  have hrun : ∃ s, Run (When Orderly Step) freshLinks
      [.userClose 0, .sectionDestroy 1, .userCreate 1 (some 0), .userCreate 0 (some 0)] s ∧
        (s.users 0).section_ = none ∧ (s.users 1).section_ = some 0 ∧
        (s.sections 0).users = {1} ∧ (s.sections 1).destroyed = true :=
    ⟨_, .snoc (.snoc (.snoc (.snoc .nil ⟨rfl, rfl⟩) ⟨rfl, rfl⟩) ⟨rfl, rfl⟩) ⟨trivial, rfl⟩,
      rfl, rfl, by decide, rfl⟩
  obtain ⟨s, hs, hrest⟩ := hrun
  exact ⟨s, hs, run_linked freshLinks_fresh hs, hrest⟩

/-- A section destroyed under its user. -/
theorem destroy_leaves_user : ∃ s, Run Step freshLinks [.sectionDestroy 0, .userCreate 0 (some 0)] s ∧
    (s.users 0).section_ = some 0 ∧ (s.sections 0).destroyed = true ∧ 0 ∉ (s.sections 0).users :=
  ⟨_, .snoc (.snoc .nil rfl) rfl, rfl, rfl, Finset.notMem_empty 0⟩

end Vin64.Kernel.Links
