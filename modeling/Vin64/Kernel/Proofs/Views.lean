import Mathlib.Algebra.Group.Nat.Defs
import Vin64.Kernel.Proofs.SectionUsers

/-!
# The part of a section that a view shows

The end of the part is computed modulo `2 ^ 64` and must lie below the end of the section; a block
is taken for the view's own by the start of the part alone.
-/

namespace Vin64.Kernel.Links

open Vin64.Lib

variable {s t : Links} {u x : Nat} {off size o : BitVec 64}

/-! ## Creating a view -/

/-- A view of this part of some section. -/
structure Shows (s : Links) (u : Nat) (off size : BitVec 64) : Prop where
  attached : (s.users u).section_ ≠ none
  off : (s.users u).off = off
  size : (s.users u).size = size

theorem viewCreate_fresh (x : Nat) (off size : BitVec 64)
    (hfresh : (s.users u).section_ = none) :
    ∃ t, t.Shows u off size ∧ s.viewCreate u (some x) off size =
      some (if (s.sections x).size ≤ off + size then (false, s) else (true, t)) := by
  have hcreate : s.userCreate u (some x) =
      (true, (s.setUser u { s.users u with section_ := some x }).insertUser x u) := by
    unfold userCreate
    rw [hfresh]
  generalize hs' : (s.setUser u { s.users u with section_ := some x }).insertUser x u = s'
    at hcreate
  have hattached : (s'.users u).section_ = some x := by
    rw [← hs']
    show ((s.setUser u _).users u).section_ = some x
    rw [users_setUser, if_pos rfl]
  refine ⟨s'.setUser u { s'.users u with off := off, size := size }, ?_, ?_⟩
  · constructor
    · rw [users_setUser, if_pos rfl, hattached]
      exact Option.some_ne_none x
    · rw [users_setUser, if_pos rfl]
    · rw [users_setUser, if_pos rfl]
  · simp only [viewCreate, hcreate]
    by_cases hend : (s.sections x).size ≤ off + size
    · rw [if_pos hend, if_pos hend]
    · rw [if_neg hend, if_neg hend]

theorem viewCreate_iff (hfresh : (s.users u).section_ = none) :
    (∃ t, s.viewCreate u (some x) off size = some (true, t)) ↔
      off + size < (s.sections x).size := by
  obtain ⟨t, _, hcreate⟩ := viewCreate_fresh x off size hfresh
  rw [hcreate, ← BitVec.not_le]
  by_cases hend : (s.sections x).size ≤ off + size
  · rw [if_pos hend]
    exact ⟨fun ⟨_, h⟩ => (nomatch h), fun h => absurd hend h⟩
  · rw [if_neg hend]
    exact ⟨fun _ => hend, fun _ => ⟨t, rfl⟩⟩

theorem shows_of_viewCreate (hfresh : (s.users u).section_ = none)
    (hcreate : s.viewCreate u (some x) off size = some (true, t)) : t.Shows u off size := by
  obtain ⟨t', hshows, heq⟩ := viewCreate_fresh x off size hfresh
  rw [heq] at hcreate
  split at hcreate
  · cases hcreate
  · cases hcreate
    exact hshows

/-! ## Keeping it -/

theorem Shows.setUser {v : Nat} {user : KoSectionUser} (h : s.Shows u off size) (hv : v ≠ u) :
    (s.setUser v user).Shows u off size := by
  have hsame : (s.setUser v user).users u = s.users u := by
    rw [users_setUser, if_neg (Ne.symm hv)]
  exact ⟨hsame ▸ h.attached, hsame ▸ h.off, hsame ▸ h.size⟩

theorem Shows.setSection {sec : KoSection} (h : s.Shows u off size) :
    (s.setSection x sec).Shows u off size := ⟨h.attached, h.off, h.size⟩

/-- No user that is attached is created again. -/
theorem Shows.userCreate (h : s.Shows u off size) (v : Nat) (sec : Option Nat) :
    (s.userCreate v sec).2.Shows u off size ∧ ((s.userCreate v sec).1 = true → v ≠ u) := by
  unfold Links.userCreate
  split
  · rename_i hfree
    have hv : v ≠ u := by
      intro hv
      exact h.attached (hv ▸ hfree)
    exact ⟨(h.setUser hv).setSection, fun _ => hv⟩
  · exact ⟨h, nofun⟩

theorem Shows.viewCreate {v : Nat} {sec : Option Nat} {off' size' : BitVec 64} {r : Bool × Links}
    (h : s.Shows u off size) (hcreate : s.viewCreate v sec off' size' = some r) :
    r.2.Shows u off size := by
  cases sec with
  | none => cases hcreate
  | some y =>
      have hattach := h.userCreate v (some y)
      simp only [Links.viewCreate] at hcreate
      split at hcreate
      · cases hcreate
        exact h
      · cases hcall : s.userCreate v (some y) with
        | mk ok s' =>
            rw [hcall] at hcreate hattach
            cases ok with
            | false =>
                cases hcreate
                exact hattach.1
            | true =>
                cases hcreate
                exact hattach.1.setUser (hattach.2 rfl)

theorem Shows.userClose {v : Nat} (h : s.Shows u off size) (hv : v ≠ u) :
    (s.userClose v).2.Shows u off size := by
  unfold Links.userClose
  cases (s.users v).section_ with
  | none => exact h.setUser hv
  | some y => exact h.setSection.setUser hv

theorem Shows.call {c : LinkCall} (h : s.Shows u off size) (hkeeps : Keeps u s c)
    (hstep : s.Step c t) : t.Shows u off size := by
  cases c with
  | userCreate v sec =>
      cases hstep
      exact (h.userCreate v sec).1
  | userClose v =>
      cases hstep
      exact h.userClose hkeeps
  | viewCreate v sec off' size' =>
      obtain ⟨r, hr, rfl⟩ := Option.map_eq_some_iff.1 hstep
      exact h.viewCreate hr
  | viewClose v =>
      cases hstep
      exact (h.setUser hkeeps).userClose hkeeps
  | sectionCreate y size' =>
      cases hstep
      exact h.setSection
  | sectionClose y =>
      cases hstep
      exact h
  | sectionDestroy y =>
      cases hstep
      exact h.setSection

/-- The blocks that a view takes for its own. -/
theorem Shows.blockInvalid (h : s.Shows u off size) :
    (s.viewBlockInvalid u o).isSome ↔ off ≤ o := by
  unfold viewBlockInvalid
  rw [h.off, ← BitVec.not_lt]
  by_cases ho : o < off
  · simp [ho]
  · simp [ho]

/-! ## The law -/

/-- The law holds where the part neither ends with the section nor, past `2 ^ 64`, in it, and no
later block is asked for. -/
theorem viewLaw_iff (hfresh : (s.users u).section_ = none) :
    ViewLaw s u x off size o ↔
      off.toNat + size.toNat ≠ (s.sections x).size.toNat ∧
      (2 ^ 64 ≤ off.toNat + size.toNat →
        (s.sections x).size.toNat + 2 ^ 64 ≤ off.toNat + size.toNat) ∧
      (off.toNat + size.toNat < (s.sections x).size.toNat →
        off ≤ o → o.toNat < off.toNat + size.toNat) := by
  have hsection := (s.sections x).size.isLt
  have hoff := off.isLt
  have hsize := size.isLt
  have hsum : off + size < (s.sections x).size ↔
      (off.toNat + size.toNat) % 2 ^ 64 < (s.sections x).size.toNat := by
    rw [BitVec.lt_def, BitVec.toNat_add]
  constructor
  · intro h
    have hcreates := ((viewCreate_iff hfresh).symm.trans h.creates)
    rw [hsum] at hcreates
    refine ⟨by omega, by omega, fun hend ho => ?_⟩
    obtain ⟨t, hcreate⟩ := h.creates.2 hend.le
    have hshows := shows_of_viewCreate hfresh hcreate
    exact ((h.owns [] t t hcreate .nil).1 (hshows.blockInvalid.2 ho)).2
  · intro hcond
    obtain ⟨hedge, hwrap, hown⟩ := hcond
    have hbound : off + size < (s.sections x).size ↔
        off.toNat + size.toNat ≤ (s.sections x).size.toNat := by
      rw [hsum]
      omega
    refine ⟨(viewCreate_iff hfresh).trans hbound, fun calls t later hcreate hrun => ?_⟩
    have hshows : later.Shows u off size :=
      hrun.invariant (P := fun s => s.Shows u off size) (shows_of_viewCreate hfresh hcreate)
        fun _ _ _ h hstep => h.call hstep.1 hstep.2
    have hend : off.toNat + size.toNat ≤ (s.sections x).size.toNat :=
      hbound.1 ((viewCreate_iff hfresh).1 ⟨t, hcreate⟩)
    rw [hshows.blockInvalid]
    exact ⟨fun ho => ⟨ho, hown (by omega) ho⟩, fun h => h.1⟩

/-- A section of two pages and the view of its first page, asked for a block in it. -/
theorem viewLaw_first_page :
    ViewLaw (freshLinks.sectionCreate 0 0x2000).2 0 0 0 0x1000 0 :=
  (viewLaw_iff rfl).2 ⟨by decide, by decide, by decide⟩

/-- The view of a whole section. -/
theorem not_viewLaw_whole : ¬ ∀ (s : Links) (u x : Nat) (off size o : BitVec 64),
    (s.users u).section_ = none → ViewLaw s u x off size o := by
  intro hall
  have hlaw := hall (freshLinks.sectionCreate 0 0x1000).2 0 0 0 0x1000 0 rfl
  have hcreated := (viewCreate_iff rfl).1 (hlaw.creates.2 (by decide))
  exact absurd hcreated (by decide)

end Vin64.Kernel.Links
