import Vin64.Kernel.Proofs.Paths

/-!
# `getNodeByPath` is the lookup of the tree of names
-/

namespace Vin64.Kernel.Kvfs

open Vin64.Lib

variable {fs : Kvfs} {q : NodePath} {dir : List Char}

theorem findPart_update : (if dir = ".".toList then some q else
    if dir = "..".toList then parent q else fs.getNode q dir) = fs.names.next q (partOf dir) := by
  unfold partOf
  split
  · cases q <;> rfl
  · split
    · cases q <;> rfl
    · cases q <;> rfl

theorem findPart_absent (h : fs.names.next q (partOf dir) = none) :
    fs.findPart true q dir = (PATH_NOT_FOUND, q) := by
  unfold findPart
  rw [findPart_update, h]

theorem findPart_some {n : NodePath} (h : fs.names.next q (partOf dir) = some n) :
    fs.findPart true q dir =
      if (fs.linkTarget n).isSome then (PATH_REPARSE_POINT_REACHED, n) else (PATH_OK, n) := by
  unfold findPart
  rw [findPart_update, h]
  simp

theorem getNodeByPathLoop_mono {fuel : Nat} {reparse : Bool} {path : List Char}
    {x : Option NodePath} (h : fs.getNodeByPathLoop fuel reparse q path = some x) :
    fs.getNodeByPathLoop (fuel + 1) reparse q path = some x := by
  induction fuel generalizing reparse q path x with
  | zero => cases h
  | succ fuel ih =>
      unfold getNodeByPathLoop at h ⊢
      by_cases hpath : path = []
      · rw [if_pos hpath] at h ⊢
        exact h
      · rw [if_neg hpath] at h ⊢
        generalize parse (fs.findPart reparse) q path = round at h ⊢
        rcases round with ⟨lr, n, rest⟩
        dsimp only at h ⊢
        by_cases hreparse : lr = PATH_REPARSE_POINT_REACHED
        · rw [if_pos hreparse] at h ⊢
          cases hlink : fs.linkTarget n with
          | none => simp [hlink] at h
          | some target =>
              simp only [hlink] at h ⊢
              cases htarget : fs.getNodeByPathLoop fuel true [] target with
              | none => simp [htarget] at h
              | some y =>
                  rw [ih htarget]
                  cases y with
                  | none => simpa [htarget] using h
                  | some m =>
                      simp only [htarget] at h
                      exact ih h
        · rw [if_neg hreparse] at h ⊢
          by_cases hlr : lr < 0
          · rw [if_pos hlr] at h ⊢
            exact h
          · rw [if_neg hlr] at h ⊢
            exact ih h

theorem getNodeByPathLoop_le {fuel fuel' : Nat} {reparse : Bool} {path : List Char}
    {x : Option NodePath} (h : fs.getNodeByPathLoop fuel reparse q path = some x)
    (hle : fuel ≤ fuel') : fs.getNodeByPathLoop fuel' reparse q path = some x := by
  induction hle with
  | refl => exact h
  | step _ ih => exact getNodeByPathLoop_mono ih

variable {path : List Char} {dirs : List (List Char)} {n : NodePath} {x : Option NodePath}

theorem getNodeByPathLoop_succ (fuel : Nat) (hpath : path ≠ []) {lr : Int} {rest : List Char}
    (hparse : parse (fs.findPart true) q path = (lr, n, rest)) :
    fs.getNodeByPathLoop (fuel + 1) true q path =
      if lr = PATH_REPARSE_POINT_REACHED then
        (fs.linkTarget n).bind fun target => (fs.getNodeByPathLoop fuel true [] target).bind fun y =>
          y.elim (some none) fun node => fs.getNodeByPathLoop fuel true node (skip_slash rest)
      else if lr < 0 then some none
      else fs.getNodeByPathLoop fuel true n rest := by
  rw [getNodeByPathLoop, if_neg hpath, hparse]
  dsimp only
  by_cases hlr : lr = PATH_REPARSE_POINT_REACHED
  · rw [if_pos hlr, if_pos hlr]
    cases fs.linkTarget n with
    | none => rfl
    | some target =>
        dsimp only [Option.bind_some]
        rcases fs.getNodeByPathLoop fuel true [] target with _ | _ | _ <;> rfl
  · rw [if_neg hlr, if_neg hlr]

theorem getNodeByPathLoop_nil {fuel : Nat} (hpath : components path = [])
    (h : fs.getNodeByPathLoop fuel true q path = some x) : x = some q := by
  induction fuel generalizing path with
  | zero => cases h
  | succ fuel ih =>
      by_cases hnil : path = []
      · rw [getNodeByPathLoop, if_pos hnil] at h
        exact (Option.some.inj h).symm
      · rw [getNodeByPathLoop_succ fuel hnil (parse_nil hpath)] at h
        exact ih components_nil h

theorem ne_nil_of_components (h : components path = dir :: dirs) : path ≠ [] := by
  intro hpath
  rw [hpath] at h
  cases h

theorem getNodeByPathLoop_absent (fuel : Nat) (hpath : components path = dir :: dirs)
    (hnext : fs.names.next q (partOf dir) = none) :
    fs.getNodeByPathLoop (fuel + 1) true q path = some none := by
  obtain ⟨rest, -, hparse⟩ := parse_cons (f := fs.findPart true) (s := q) hpath
  simp only [findPart_absent hnext, path_not_found_neg, if_true] at hparse
  rw [getNodeByPathLoop_succ fuel (ne_nil_of_components hpath) hparse, if_neg path_not_found_ne,
    if_pos path_not_found_neg]

/-- A node without a link: the lookup goes on from it. -/
theorem getNodeByPathLoop_on (hpath : components path = dir :: dirs)
    (hnext : fs.names.next q (partOf dir) = some n) (hlink : fs.linkTarget n = none) :
    ∃ rest, components rest = dirs ∧
      (∀ fuel x, fs.getNodeByPathLoop fuel true q path = some x →
        fs.getNodeByPathLoop fuel true n rest = some x) ∧
      ∀ fuel x, fs.getNodeByPathLoop fuel true n rest = some x →
        fs.getNodeByPathLoop (fuel + 1) true q path = some x := by
  obtain ⟨rest, hrest, hparse⟩ := parse_cons (f := fs.findPart true) (s := q) hpath
  simp only [findPart_some hnext, hlink, Option.isSome_none, Bool.false_eq_true, if_false,
    path_ok_nonneg] at hparse
  have hne := ne_nil_of_components hpath
  refine ⟨rest, hrest, ?_⟩
  by_cases hnil : rest = []
  · rw [hnil, parse_nil components_nil] at hparse
    have hround : ∀ fuel, fs.getNodeByPathLoop (fuel + 1) true q path =
        fs.getNodeByPathLoop fuel true n [] := fun fuel => by
      rw [getNodeByPathLoop_succ fuel hne hparse, if_neg (by decide), if_neg (by decide)]
    subst hnil
    refine ⟨fun fuel x h => ?_, fun fuel x h => (hround fuel).trans h⟩
    cases fuel with
    | zero => cases h
    | succ fuel => exact getNodeByPathLoop_mono ((hround fuel).symm.trans h)
  · have hround : ∀ fuel, fs.getNodeByPathLoop fuel true q path =
        fs.getNodeByPathLoop fuel true n rest := fun fuel => by
      cases fuel with
      | zero => rfl
      | succ fuel =>
          rw [getNodeByPathLoop_succ fuel hne (hparse.trans (Prod.mk.eta.symm)),
            getNodeByPathLoop_succ fuel hnil (Prod.mk.eta.symm)]
    exact ⟨fun fuel x h => hround fuel ▸ h, fun fuel x h =>
      getNodeByPathLoop_mono ((hround fuel).trans h)⟩

/-- A link: the lookup of its target comes first. -/
theorem getNodeByPathLoop_link (hpath : components path = dir :: dirs)
    (hnext : fs.names.next q (partOf dir) = some n) {target : List Char}
    (hlink : fs.linkTarget n = some target) :
    ∃ rest, components rest = dirs ∧ ∀ fuel, fs.getNodeByPathLoop (fuel + 1) true q path =
      (fs.getNodeByPathLoop fuel true [] target).bind fun y =>
        y.elim (some none) fun m => fs.getNodeByPathLoop fuel true m rest := by
  obtain ⟨rest, hrest, hparse⟩ := parse_cons (f := fs.findPart true) (s := q) hpath
  simp only [findPart_some hnext, hlink, Option.isSome_some, if_true, path_reparse_neg] at hparse
  refine ⟨skip_slash rest, (components_skip_slash rest).trans hrest, fun fuel => ?_⟩
  rw [getNodeByPathLoop_succ fuel (ne_nil_of_components hpath) hparse, if_pos rfl, hlink,
    Option.bind_some]

/-- A lookup that ends, with enough fuel. -/
def Gets (fs : Kvfs) (q : NodePath) (path : List Char) (x : Option NodePath) : Prop :=
  ∃ fuel, fs.getNodeByPathLoop fuel true q path = some x

theorem link_eq_none_iff : fs.names.link n = none ↔ fs.linkTarget n = none := Option.map_eq_none_iff

theorem link_eq_some_iff {ds : List (PathPart (List Char))} :
    fs.names.link n = some ds ↔ ∃ target, fs.linkTarget n = some target ∧ parts target = ds :=
  Option.map_eq_some_iff

theorem finds_of_loop {fuel : Nat} (h : fs.getNodeByPathLoop fuel true q path = some x) :
    fs.names.Finds q (parts path) x := by
  unfold parts
  induction fuel generalizing q path x with
  | zero => cases h
  | succ fuel ih =>
      generalize hpath : components path = dirs
      induction dirs generalizing q path x with
      | nil => exact getNodeByPathLoop_nil hpath h ▸ .nil q
      | cons dir dirs ihdirs =>
          cases hnext : fs.names.next q (partOf dir) with
          | none =>
              rw [getNodeByPathLoop_absent fuel hpath hnext] at h
              exact Option.some.inj h ▸ .absent hnext
          | some n =>
              cases hlink : fs.linkTarget n with
              | none =>
                  obtain ⟨rest, hrest, hback, -⟩ := getNodeByPathLoop_on hpath hnext hlink
                  have hfind := ihdirs (hback _ _ h) hrest
                  exact .on hnext (link_eq_none_iff.2 hlink) hfind
              | some target =>
                  obtain ⟨rest, hrest, hround⟩ := getNodeByPathLoop_link hpath hnext hlink
                  have hname : fs.names.link n = some ((components target).map partOf) :=
                    link_eq_some_iff.2 ⟨target, hlink, rfl⟩
                  rw [hround] at h
                  cases htarget : fs.getNodeByPathLoop fuel true [] target with
                  | none => simp [htarget] at h
                  | some y =>
                      have hfind := ih htarget
                      cases y with
                      | none =>
                          simp only [htarget, Option.bind_some, Option.elim] at h
                          exact Option.some.inj h ▸ .dangling hnext hname hfind
                      | some m =>
                          simp only [htarget, Option.bind_some, Option.elim] at h
                          exact .through hnext hname hfind (hrest ▸ ih h)

theorem gets_of_finds {ds : List (PathPart (List Char))} (h : fs.names.Finds q ds x)
    (hpath : parts path = ds) : fs.Gets q path x := by
  induction h generalizing path with
  | nil q =>
      have hnil : components path = [] := List.map_eq_nil_iff.1 hpath
      refine ⟨2, ?_⟩
      by_cases hpath : path = []
      · rw [getNodeByPathLoop, if_pos hpath]
      · rw [getNodeByPathLoop_succ 1 hpath (parse_nil hnil), if_neg (by decide), if_neg (by decide),
          getNodeByPathLoop, if_pos rfl]
  | absent hnext =>
      obtain ⟨dir, dirs, hcomp, rfl, rfl⟩ := parts_eq_cons hpath
      exact ⟨1, getNodeByPathLoop_absent 0 hcomp hnext⟩
  | on hnext hlink _ ih =>
      obtain ⟨dir, dirs, hcomp, rfl, rfl⟩ := parts_eq_cons hpath
      obtain ⟨rest, hrest, -, hforth⟩ :=
        getNodeByPathLoop_on hcomp hnext (link_eq_none_iff.1 hlink)
      obtain ⟨fuel, hfuel⟩ := ih (show parts rest = _ from hrest ▸ rfl)
      exact ⟨fuel + 1, hforth fuel _ hfuel⟩
  | dangling hnext hlink _ ih =>
      obtain ⟨dir, dirs, hcomp, rfl, rfl⟩ := parts_eq_cons hpath
      obtain ⟨target, htarget, hparts⟩ := link_eq_some_iff.1 hlink
      obtain ⟨rest, -, hround⟩ := getNodeByPathLoop_link hcomp hnext htarget
      obtain ⟨fuel, hfuel⟩ := ih hparts
      refine ⟨fuel + 1, ?_⟩
      rw [hround, hfuel]
      rfl
  | through hnext hlink _ _ ih ihrest =>
      obtain ⟨dir, dirs, hcomp, rfl, rfl⟩ := parts_eq_cons hpath
      obtain ⟨target, htarget, hparts⟩ := link_eq_some_iff.1 hlink
      obtain ⟨rest, hrest, hround⟩ := getNodeByPathLoop_link hcomp hnext htarget
      obtain ⟨fuel, hfuel⟩ := ih hparts
      obtain ⟨fuel', hfuel'⟩ := ihrest (show parts rest = _ from hrest ▸ rfl)
      refine ⟨max fuel fuel' + 1, ?_⟩
      rw [hround, getNodeByPathLoop_le hfuel (le_max_left fuel fuel')]
      exact getNodeByPathLoop_le hfuel' (le_max_right fuel fuel')

/-- `getNodeByPath` is the lookup of the parts of its path. -/
theorem getNodeByPath_iff {root : Option NodePath} :
    (∃ fuel, fs.getNodeByPath fuel path true root = some x) ↔
      fs.names.Finds (root.getD []) (parts path) x := by
  constructor
  · intro h
    obtain ⟨fuel, hfuel⟩ := h
    exact finds_of_loop hfuel
  · intro h
    exact gets_of_finds h rfl

end Vin64.Kernel.Kvfs
