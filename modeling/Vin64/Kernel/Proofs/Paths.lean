import Mathlib.Data.List.TakeWhile
import Vin64.Kernel.Names

/-!
# Paths and their components

`parse` calls `onPathPart` on the components of a path, one after the other.
-/

namespace Vin64.Kernel

open Vin64.Lib

/-! ## The components of a path -/

theorem components_append (p r : List Char) :
    components (p ++ '\\' :: r) = components p ++ components r := by
  unfold components
  rw [List.splitOnP_append_cons p r (by simp), List.filter_append]

theorem components_nil : components [] = [] := by simp [components]

theorem components_slash (p : List Char) : components ('\\' :: p) = components p := by
  have happend := components_append [] p
  simpa [components] using happend

theorem components_skip_slash (p : List Char) : components (skip_slash p) = components p := by
  unfold skip_slash
  induction p with
  | nil => rfl
  | cons c p ih =>
      by_cases hc : c = '\\'
      · subst hc
        rw [components_slash, ← ih]
        simp
      · simp [hc]

theorem skip_slash_cases (p : List Char) :
    skip_slash p = [] ∨ ∃ c r, skip_slash p = c :: r ∧ c ≠ '\\' := by
  cases hskip : skip_slash p with
  | nil => exact .inl rfl
  | cons c r =>
      have hne : skip_slash p ≠ [] := by simp [hskip]
      have hhead := List.head_dropWhile_not (· == '\\') hne
      refine .inr ⟨c, r, rfl, fun hc => ?_⟩
      unfold skip_slash at hskip
      simp only [hskip, List.head_cons, hc, beq_self_eq_true] at hhead
      cases hhead

/-- The first component, where the path does not start with a slash. -/
theorem components_part {c : Char} (p : List Char) (hc : c ≠ '\\') :
    components (c :: p) =
      (c :: p).takeWhile (· != '\\') :: components (skip_not_slash (c :: p)) := by
  have hsplit : (c :: p).takeWhile (· != '\\') ++ skip_not_slash (c :: p) = c :: p :=
    List.takeWhile_append_dropWhile
  have hnone : ∀ x ∈ (c :: p).takeWhile (· != '\\'), (x == '\\') = false := by
    intro x hx
    simpa using List.mem_takeWhile_imp hx
  have hne : (c :: p).takeWhile (· != '\\') ≠ [] := by simp [hc]
  cases hrest : skip_not_slash (c :: p) with
  | nil =>
      rw [hrest, List.append_nil] at hsplit
      have hsingle := List.splitOnP_eq_singleton hnone
      rw [hsplit] at hsingle
      simp [components, hsingle, hsplit]
  | cons x r =>
      have hx : x = '\\' := by
        have hhead := List.head_dropWhile_not (· != '\\') (l := c :: p) (by
          unfold skip_not_slash at hrest
          simp [hrest])
        unfold skip_not_slash at hrest
        simp only [hrest, List.head_cons] at hhead
        simpa using hhead
      subst hx
      have hfirst := List.splitOnP_append_cons_of_forall_mem hnone '\\' (by simp) r
      rw [hrest] at hsplit
      rw [hsplit] at hfirst
      rw [components_slash]
      unfold components
      rw [hfirst, List.filter_cons, if_pos (by simpa using hne)]

variable {σ : Type} {f : σ → List Char → Int × σ} {s : σ} {p : List Char}

theorem skip_slash_eq_nil_iff : skip_slash p = [] ↔ components p = [] := by
  rw [← components_skip_slash p]
  rcases skip_slash_cases p with hskip | ⟨c, r, hskip, hc⟩
  · simp [hskip, components_nil]
  · simp [hskip, components_part r hc]

/-- The first component of a path that has one. -/
theorem components_first (hp : components p ≠ []) :
    components p =
      (skip_slash p).takeWhile (· != '\\') :: components (skip_not_slash (skip_slash p)) := by
  rcases skip_slash_cases p with hskip | ⟨c, r, hskip, hc⟩
  · exact absurd (skip_slash_eq_nil_iff.1 hskip) hp
  · rw [← components_skip_slash p, hskip, components_part r hc]

theorem parse_nil (h : components p = []) : parse f s p = (0, s, []) := by
  unfold parse
  rw [skip_slash_eq_nil_iff.2 h, parseLoop]
  rfl

/-- One round of `parse` -/
theorem parse_round (hp : components p ≠ []) {dir rest : List Char}
    (hdir : (skip_slash p).takeWhile (· != '\\') = dir)
    (hrest : skip_not_slash (skip_slash p) = rest) :
    parse f s p =
      if (f s dir).1 < 0 then ((f s dir).1, (f s dir).2, rest) else parse f (f s dir).2 rest := by
  subst hdir hrest
  unfold parse
  rw [parseLoop, dif_neg (mt skip_slash_eq_nil_iff.1 hp)]

/-- One component of `parse`: the call of `onPathPart` ends it, or it goes on with the rest. -/
theorem parse_cons {dir : List Char} {dirs : List (List Char)} (h : components p = dir :: dirs) :
    ∃ rest, components rest = dirs ∧ parse f s p =
      if (f s dir).1 < 0 then ((f s dir).1, (f s dir).2, rest) else parse f (f s dir).2 rest := by
  have hp : components p ≠ [] := by simp [h]
  obtain ⟨hdir, hrest⟩ := List.cons_eq_cons.1 ((components_first hp).symm.trans h)
  exact ⟨_, hrest, parse_round hp hdir rfl⟩

@[simp] theorem path_ok_nonneg : ¬ PATH_OK < 0 := by decide

@[simp] theorem path_reparse_neg : PATH_REPARSE_POINT_REACHED < 0 := by decide

@[simp] theorem path_not_found_neg : PATH_NOT_FOUND < 0 := by decide

@[simp] theorem path_not_found_ne : PATH_NOT_FOUND ≠ PATH_REPARSE_POINT_REACHED := by decide

/-! ## Parts -/

theorem parts_append (p r : List Char) : parts (p ++ '\\' :: r) = parts p ++ parts r := by
  unfold parts
  rw [components_append, List.map_append]

theorem parts_eq_cons {d : PathPart (List Char)} {ds : List (PathPart (List Char))}
    (h : parts p = d :: ds) :
    ∃ dir dirs, components p = dir :: dirs ∧ partOf dir = d ∧ dirs.map partOf = ds := by
  unfold parts at h
  exact List.map_eq_cons_iff.1 h

end Vin64.Kernel
