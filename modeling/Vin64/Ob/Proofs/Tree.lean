import Mathlib.Tactic.ByContra
import Vin64.Kernel.Proofs.Tokens
import Vin64.Ob.Tree

/-!
# No report of the object tree stops `parse`

`parse` stops at a negative number only, and the reports of the object tree are positive.
-/

namespace Vin64.Ob

open Vin64.Kernel

section

variable {σ : Type} {f : σ → List Char → Option (Int × σ)} {s t : σ} {p : List Char}

/-! ## Calls that never report a negative number -/

/-- `onPathPart` reports no negative number. -/
def NonNegative (f : σ → List Char → Option (Int × σ)) : Prop :=
  ∀ s dir lr t, f s dir = some (lr, t) → 0 ≤ lr

/-- All components report `VIN_NO_ERROR`. -/
def AllFine (f : σ → List Char → Option (Int × σ)) (s : σ) (dirs : List (List Char)) : Prop :=
  ∃ t, LeadsTo f s dirs t

theorem allFine_cons {dir : List Char} {dirs : List (List Char)} :
    AllFine f s (dir :: dirs) ↔ ∃ t, f s dir = some (VIN_NO_ERROR, t) ∧ AllFine f t dirs := by
  constructor
  · rintro ⟨u, t, hdir, hrest⟩
    exact ⟨t, hdir, u, hrest⟩
  · rintro ⟨t, hdir, u, hrest⟩
    exact ⟨u, t, hdir, hrest⟩

theorem parseLoop_code (hf : NonNegative f) {lr : Int} {rest : List Char}
    (h : parseLoop f s p = some (lr, t, rest)) : lr = VFS_S_OK := by
  induction s, p using parseLoop.induct f with
  | case1 s =>
      rw [parseLoop, dif_pos rfl] at h
      exact (Prod.mk.inj (Option.some.inj h)).1.symm
  | case2 s p hp hnone =>
      rw [parseLoop, dif_neg hp, hnone] at h
      cases h
  | case3 s p hp lr' s' hpart hneg =>
      exact absurd hneg (Int.not_lt.2 (hf _ _ _ _ hpart))
  | case4 s p hp lr' s' hpart hneg ih =>
      rw [parseLoop, dif_neg hp, hpart] at h
      simp only [hneg, if_false] at h
      exact ih h

theorem LeadsTo.unique {dirs : List (List Char)} {u : σ} (h : LeadsTo f s dirs t)
    (h' : LeadsTo f s dirs u) : t = u := by
  induction dirs generalizing s with
  | nil => exact h.symm.trans h'
  | cons dir dirs ih =>
      obtain ⟨v, hv, hrest⟩ := h
      obtain ⟨w, hw, hrest'⟩ := h'
      rw [hv] at hw
      obtain rfl := (Prod.mk.inj (Option.some.inj hw)).2
      exact ih hrest hrest'

theorem allFine_append {dirs dirs' : List (List Char)} :
    AllFine f s (dirs ++ dirs') ↔ ∃ t, LeadsTo f s dirs t ∧ AllFine f t dirs' := by
  induction dirs generalizing s with
  | nil => exact ⟨fun h => ⟨s, rfl, h⟩, fun ⟨t, ht, h⟩ => by cases ht; exact h⟩
  | cons dir dirs ih =>
      rw [List.cons_append, allFine_cons]
      constructor
      · rintro ⟨u, hu, hrest⟩
        obtain ⟨t, ht, hfine⟩ := ih.1 hrest
        exact ⟨t, ⟨u, hu, ht⟩, hfine⟩
      · rintro ⟨t, ⟨u, hu, ht⟩, hfine⟩
        exact ⟨u, hu, ih.2 ⟨t, ht, hfine⟩⟩

/-- One round of `parse` with a component that does not stop it -/
theorem parse_round (hp : components p ≠ []) {lr : Int}
    (hdir : f s ((skip_slash p).takeWhile (· != '\\')) = some (lr, t)) (hlr : ¬ lr < 0) :
    parse f s p = parse f t (skip_not_slash (skip_slash p)) := by
  unfold parse
  rw [parseLoop, dif_neg (mt skip_slash_eq_nil_iff.1 hp), hdir]
  simp only [hlr, if_false]

theorem AllFine.parse (h : LeadsTo f s (components p) t) :
    parse f s p = some (VFS_S_OK, t, []) := by
  induction hn : (components p).length generalizing s p with
  | zero =>
      have hnil : components p = [] := List.eq_nil_of_length_eq_zero hn
      rw [hnil] at h
      obtain rfl : s = t := h
      rw [Ob.parse, skip_slash_eq_nil_iff.2 hnil, parseLoop, dif_pos rfl]
  | succ n ih =>
      have hp : components p ≠ [] := by
        intro hnil
        rw [hnil] at hn
        cases hn
      have hparts := components_first hp
      rw [hparts] at h hn
      obtain ⟨u, hdir, hrest⟩ := h
      rw [parse_round hp hdir (by decide)]
      exact ih hrest (by simpa using hn)

/-! ## When every report gets through -/

/-- In the states of `Alive` a component gets a report, and `VIN_NO_ERROR` leads to another such
state. -/
structure StaysAlive (f : σ → List Char → Option (Int × σ)) (Alive : σ → Prop) : Prop where
  answers : ∀ s dir, Alive s → ∃ lr t, f s dir = some (lr, t)
  keeps : ∀ s dir t, Alive s → f s dir = some (VIN_NO_ERROR, t) → Alive t

variable {Alive : σ → Prop}

/-- If not all components are fine, one is the first. -/
theorem StaysAlive.exists_failure (h : StaysAlive f Alive) {dirs : List (List Char)}
    (hs : Alive s) (hno : ¬ AllFine f s dirs) :
    ∃ done dir rest t lr u, dirs = done ++ dir :: rest ∧ LeadsTo f s done t ∧
      f t dir = some (lr, u) ∧ lr ≠ VIN_NO_ERROR := by
  induction dirs generalizing s with
  | nil => exact absurd ⟨s, rfl⟩ hno
  | cons dir dirs ih =>
      obtain ⟨lr, t, hdir⟩ := h.answers s dir hs
      by_cases hlr : lr = VIN_NO_ERROR
      · subst hlr
        obtain ⟨done, d, rest, v, lr, u, rfl, hv, hd, hne⟩ := ih (h.keeps s dir t hs hdir)
          fun hfine => hno (allFine_cons.2 ⟨t, hdir, hfine⟩)
        exact ⟨dir :: done, d, rest, v, lr, u, rfl, ⟨t, hdir, hv⟩, hd, hne⟩
      · exact ⟨[], dir, dirs, s, lr, t, rfl, rfl, hdir, hlr⟩

/-- A component that is not fine is in none of the paths whose components all are. -/
theorem AllFine.code (h : AllFine f s (components p)) {before dir rest : List Char} {lr : Int}
    {u : σ} (hpart : PartAt p before dir rest) (hbefore : LeadsTo f s (components before) t)
    (hdir : f t dir = some (lr, u)) : lr = VIN_NO_ERROR := by
  rw [hpart.parts, allFine_append] at h
  obtain ⟨v, hv, hfine⟩ := h
  obtain rfl := hbefore.unique hv
  obtain ⟨w, hw, -⟩ := allFine_cons.1 hfine
  rw [hdir] at hw
  exact (Prod.mk.inj (Option.some.inj hw)).1

/-- Where no report is negative, `parse` passes reports on only if there is nothing to report. -/
theorem reports_iff (hf : NonNegative f) (h : StaysAlive f Alive) (hs : Alive s) :
    Reports f s p ↔ AllFine f s (components p) := by
  constructor
  · intro hreports
    by_contra hno
    obtain ⟨done, dir, rest, t, lr, u, hsplit, hdone, hdir, hne⟩ := h.exists_failure hs hno
    obtain ⟨before, left, hpart, rfl⟩ := exists_partAt hsplit
    have hparse := hreports before dir left t lr u hpart hdone hdir hne
    exact hne (parseLoop_code hf hparse)
  · intro hfine before dir rest t lr u hpart hbefore hdir hne
    exact absurd (hfine.code hpart hbefore hdir) hne

end

namespace NodeOps

variable {T N : Type} {ops : NodeOps T N} {t : T} {n : N} {reparse force : Bool}
  {path : List Char}

/-! ## The finder -/

theorem finderPart_absent {dir : List Char} (h : ops.next t n dir = none) :
    ops.finderPart t reparse (some n) dir = some (VIN_PATH_NOT_FOUND, none) := by
  unfold next at h
  unfold finderPart
  split_ifs at h ⊢ with hhere hup
  · simp [h]
  · simp [h]

theorem finderPart_found {dir : List Char} {p : N} (h : ops.next t n dir = some p) :
    ops.finderPart t reparse (some n) dir =
      some (if reparse = true ∧ (ops.link t p).isSome = true then VIN_NEED_REPARSE
        else VIN_NO_ERROR, some p) := by
  have hlink : (reparse && (ops.link t p).isSome) = true ↔
      reparse = true ∧ (ops.link t p).isSome = true := Bool.and_eq_true_iff
  unfold next at h
  unfold finderPart
  split_ifs at h ⊢ with hhere hup <;> simp_all

theorem finderPart_nonNegative (ops : NodeOps T N) (t : T) (reparse : Bool) :
    NonNegative (ops.finderPart t reparse) := by
  intro s dir lr u h
  simp only [finderPart] at h
  split at h
  · cases h
  · obtain ⟨rfl, -⟩ := Prod.mk.inj (Option.some.inj h)
    decide
  · split at h
    · obtain ⟨rfl, -⟩ := Prod.mk.inj (Option.some.inj h)
      decide
    · obtain ⟨rfl, -⟩ := Prod.mk.inj (Option.some.inj h)
      decide

theorem finderPart_staysAlive (ops : NodeOps T N) (t : T) (reparse : Bool) :
    StaysAlive (ops.finderPart t reparse) fun s => ∃ n, s = some n where
  answers := by
    rintro s dir ⟨n, rfl⟩
    cases hnext : ops.next t n dir with
    | none => exact ⟨_, _, finderPart_absent hnext⟩
    | some p => exact ⟨_, _, finderPart_found hnext⟩
  keeps := by
    rintro s dir u ⟨n, rfl⟩ h
    cases hnext : ops.next t n dir with
    | none =>
        rw [finderPart_absent hnext] at h
        cases (Prod.mk.inj (Option.some.inj h)).1
    | some p =>
        rw [finderPart_found hnext] at h
        exact ⟨p, (Prod.mk.inj (Option.some.inj h)).2.symm⟩

theorem finderPart_fine {dir : List Char} {s : Option N} :
    ops.finderPart t reparse (some n) dir = some (VIN_NO_ERROR, s) ↔
      ∃ p, ops.next t n dir = some p ∧ ¬ (reparse = true ∧ (ops.link t p).isSome = true) ∧
        s = some p := by
  cases hnext : ops.next t n dir with
  | none =>
      rw [finderPart_absent hnext]
      refine iff_of_false (fun h => ?_) (by simp)
      cases (Prod.mk.inj (Option.some.inj h)).1
  | some p =>
      rw [finderPart_found hnext]
      by_cases hlink : reparse = true ∧ (ops.link t p).isSome = true
      · rw [if_pos hlink]
        refine iff_of_false (fun h => ?_) ?_
        · cases (Prod.mk.inj (Option.some.inj h)).1
        · rintro ⟨q, hq, hno, -⟩
          obtain rfl := Option.some.inj hq
          exact hno hlink
      · rw [if_neg hlink]
        constructor
        · exact fun h => ⟨p, rfl, hlink, (Prod.mk.inj (Option.some.inj h)).2.symm⟩
        · rintro ⟨q, hq, -, rfl⟩
          rw [hq]

theorem finds_iff {dirs : List (List Char)} :
    AllFine (ops.finderPart t reparse) (some n) dirs ↔ ops.Finds t reparse n dirs := by
  induction dirs generalizing n with
  | nil => exact iff_of_true ⟨some n, rfl⟩ trivial
  | cons dir dirs ih =>
      rw [allFine_cons]
      constructor
      · rintro ⟨s, hs, hrest⟩
        obtain ⟨p, hp, hlink, rfl⟩ := finderPart_fine.1 hs
        exact ⟨p, hp, hlink, ih.1 hrest⟩
      · rintro ⟨p, hp, hlink, hrest⟩
        exact ⟨some p, finderPart_fine.2 ⟨p, hp, hlink, rfl⟩, ih.2 hrest⟩

theorem finderOk_iff : ops.FinderOk t reparse n path ↔ ops.Finds t reparse n (components path) := by
  rw [← finds_iff]
  have hreports := @reports_iff (Option N) _ (some n) path _
    (finderPart_nonNegative ops t reparse) (finderPart_staysAlive ops t reparse) ⟨n, rfl⟩
  refine ⟨fun h => hreports.1 h.reports, fun hfine => ⟨hreports.2 hfine, ?_, ?_, ?_⟩⟩
  · obtain ⟨u, hu⟩ := hfine
    rw [AllFine.parse hu]
    exact Option.some_ne_none _
  · intro before dir rest m hpart hbefore habsent
    cases hfine.code hpart hbefore (finderPart_absent habsent)
  · intro before dir rest m p hpart hbefore hnext hre hlink
    have hcode := hfine.code hpart hbefore (finderPart_found hnext)
    rw [if_pos ⟨hre, hlink⟩] at hcode
    cases hcode

/-- A path whose components are all found leads `get_node_by_path` to the node of the last. -/
theorem get_node_by_path_found {m : N} (hne : path ≠ [])
    (h : LeadsTo (ops.finderPart t reparse) (some n) (components path) (some m)) :
    ops.get_node_by_path t 2 path reparse (some n) = some (some m) := by
  have hcode : VFS_S_OK ≠ VIN_NEED_REPARSE := by decide
  have hnonneg : ¬ VFS_S_OK < 0 := by decide
  rw [get_node_by_path, Option.getD_some, getNodeLoop, if_neg hne, AllFine.parse h]
  simp only [hcode, hnonneg, if_false]
  rw [getNodeLoop, if_pos rfl]

/-! ## The creator -/

theorem creatorPart_eq (ops : NodeOps T N) (force : Bool) (t : T) (n : N) (dir : List Char) :
    ops.creatorPart force (t, n) dir =
      (ops.reach force t n dir).1.elim
        (some (VIN_PATH_NOT_FOUND, (ops.reach force t n dir).2, n)) fun p =>
          if (ops.link (ops.reach force t n dir).2 p).isSome = true then
            some (VIN_PATH_NOT_FOUND, (ops.reach force t n dir).2, p)
          else some (VIN_NO_ERROR, (ops.reach force t n dir).2, p) := by
  have hupdate : (if dir = ".".toList then some n
      else if dir = "..".toList then ops.parent t n else ops.get_node t n dir) =
    ops.next t n dir := rfl
  cases hnext : ops.next t n dir with
  | some p =>
      rw [hnext] at hupdate
      simp only [creatorPart, reach, hupdate, hnext, Option.elim_some]
  | none =>
      rw [hnext] at hupdate
      simp only [creatorPart, reach, hupdate, hnext]
      cases force with
      | false => rfl
      | true =>
          rcases ops.add_child t n dir with ⟨_ | p, t'⟩
          · rfl
          · rfl

theorem creatorPart_answers (ops : NodeOps T N) (force : Bool) (s : T × N) (dir : List Char) :
    ∃ lr u, ops.creatorPart force s dir = some (lr, u) ∧ 0 ≤ lr := by
  obtain ⟨t, n⟩ := s
  rw [creatorPart_eq]
  cases (ops.reach force t n dir).1 with
  | none => exact ⟨_, _, rfl, by decide⟩
  | some p =>
      rw [Option.elim_some]
      split
      · exact ⟨_, _, rfl, by decide⟩
      · exact ⟨_, _, rfl, by decide⟩

theorem creatorPart_nonNegative (ops : NodeOps T N) (force : Bool) :
    NonNegative (ops.creatorPart force) := by
  intro s dir lr u h
  obtain ⟨lr', u', hpart, hlr⟩ := creatorPart_answers ops force s dir
  rw [h] at hpart
  obtain ⟨rfl, -⟩ := Prod.mk.inj (Option.some.inj hpart)
  exact hlr

theorem creatorPart_staysAlive (ops : NodeOps T N) (force : Bool) :
    StaysAlive (ops.creatorPart force) fun _ => True where
  answers := fun s dir _ => by
    obtain ⟨lr, u, hpart, -⟩ := creatorPart_answers ops force s dir
    exact ⟨lr, u, hpart⟩
  keeps := fun _ _ _ _ _ => trivial

theorem creatorPart_fine {dir : List Char} {s : T × N} :
    ops.creatorPart force (t, n) dir = some (VIN_NO_ERROR, s) ↔
      ∃ p t', ops.reach force t n dir = (some p, t') ∧ ¬ (ops.link t' p).isSome = true ∧
        s = (t', p) := by
  rw [creatorPart_eq]
  rcases ops.reach force t n dir with ⟨_ | q, t₁⟩
  · refine iff_of_false (fun h => ?_) (by simp)
    cases (Prod.mk.inj (Option.some.inj h)).1
  · rw [Option.elim_some]
    by_cases hlink : (ops.link t₁ q).isSome = true
    · rw [if_pos hlink]
      refine iff_of_false (fun h => ?_) ?_
      · cases (Prod.mk.inj (Option.some.inj h)).1
      · rintro ⟨p, t', hreach, hno, -⟩
        obtain ⟨rfl, rfl⟩ : q = p ∧ t₁ = t' := by simpa using hreach
        exact hno hlink
    · rw [if_neg hlink]
      constructor
      · exact fun h => ⟨q, t₁, rfl, hlink, (Prod.mk.inj (Option.some.inj h)).2.symm⟩
      · rintro ⟨p, t', hreach, -, rfl⟩
        obtain ⟨rfl, rfl⟩ : q = p ∧ t₁ = t' := by simpa using hreach
        rfl

theorem makes_iff {dirs : List (List Char)} :
    AllFine (ops.creatorPart force) (t, n) dirs ↔ ops.Makes force t n dirs := by
  induction dirs generalizing t n with
  | nil => exact iff_of_true ⟨(t, n), rfl⟩ trivial
  | cons dir dirs ih =>
      rw [allFine_cons]
      constructor
      · rintro ⟨s, hs, hrest⟩
        obtain ⟨p, t', hreach, hlink, rfl⟩ := creatorPart_fine.1 hs
        exact ⟨p, t', hreach, hlink, ih.1 hrest⟩
      · rintro ⟨p, t', hreach, hlink, hrest⟩
        exact ⟨(t', p), creatorPart_fine.2 ⟨p, t', hreach, hlink, rfl⟩, ih.2 hrest⟩

theorem creatorOk_iff :
    ops.CreatorOk force t n path ↔ ops.Makes force t n (components path) := by
  rw [← makes_iff]
  have hreports := @reports_iff (T × N) _ (t, n) path _ (creatorPart_nonNegative ops force)
    (creatorPart_staysAlive ops force) trivial
  refine ⟨fun h => hreports.1 h.reports, fun hfine => ⟨hreports.2 hfine, ?_⟩⟩
  obtain ⟨u, hu⟩ := hfine
  rw [AllFine.parse hu]
  exact Option.some_ne_none _

/-- The walks do what they are for exactly when there is nothing to report. -/
theorem walks_ok_iff (ops : NodeOps T N) (t : T) (n : N) (path : List Char) :
    (∀ reparse, ops.FinderOk t reparse n path ↔ ops.Finds t reparse n (components path)) ∧
      ∀ force, ops.CreatorOk force t n path ↔ ops.Makes force t n (components path) :=
  ⟨fun _ => finderOk_iff, fun _ => creatorOk_iff⟩

/-! ## A tree of names -/

/-- The nodes are the names that lead to them, the last one first; `T` says which are there. -/
def nameOps : NodeOps (NodePath → Bool) NodePath where
  root := fun _ => []
  parent := fun _ q => q.tail?
  get_node := fun t q dir => if t (fold dir :: q) then some (fold dir :: q) else none
  add_child := fun t q dir =>
    (some (fold dir :: q), fun p => if p = fold dir :: q then true else t p)
  link := fun _ _ => none

/-- The only node is the root, and nobody hears that `a` is not there. -/
theorem finder_misses_absent :
    ¬ nameOps.FinderOk (fun q => decide (q = [])) true [] ['a'] := by
  intro h
  have hpart : PartAt ['a'] [] ['a'] [] := ⟨rfl, by rw [components_nil]; decide⟩
  have hparse := h.reports [] ['a'] [] (some []) VIN_PATH_NOT_FOUND none hpart
    (by rw [components_nil]; rfl) rfl (by decide)
  exact absurd (parseLoop_code (finderPart_nonNegative _ _ _) hparse) (by decide)

end NodeOps

end Vin64.Ob
