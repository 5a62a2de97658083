import Vin64.Kernel.Proofs.Lookup

/-!
# `createPath` is the creating walk of the tree of names
-/

namespace Vin64.Kernel.Kvfs

open Vin64.Lib

variable {fs : Kvfs} {q n : NodePath} {dir path : List Char} {dirs : List (List Char)}

/-- `fs'` is `fs` with new nodes, on which nothing is mounted; its places are those of `fs` and
those of `made`. -/
structure Grows (fs : Kvfs) (made : List NodePath) (fs' : Kvfs) : Prop where
  wf : fs'.WellFormed
  objects : fs'.objects = fs.objects
  held : fs'.held = fs.held
  keeps : ∀ p n, fs.nodes p = some n → fs'.nodes p = some n
  adds : ∀ p n, fs'.nodes p = some n → fs.nodes p = some n ∨ n.mount = none
  has : ∀ p, (fs'.nodes p).isSome ↔ (fs.nodes p).isSome ∨ p ∈ made

variable {fs' fs'' : Kvfs} {made made' : List NodePath}

theorem Grows.refl (h : fs.WellFormed) (hmade : ∀ p ∈ made, (fs.nodes p).isSome) :
    fs.Grows made fs where
  wf := h
  objects := rfl
  held := rfl
  keeps := fun _ _ hp => hp
  adds := fun _ _ hp => .inl hp
  has := fun p => ⟨.inl, fun hp => hp.elim id (hmade p)⟩

theorem Grows.trans (h : fs.Grows made fs') (h' : fs'.Grows made' fs'') :
    fs.Grows (made ++ made') fs'' where
  wf := h'.wf
  objects := h'.objects.trans h.objects
  held := h'.held.trans h.held
  keeps := fun p n hp => h'.keeps p n (h.keeps p n hp)
  adds := fun p n hp => (h'.adds p n hp).elim (h.adds p n) .inr
  has := fun p => by rw [h'.has, h.has, List.mem_append, or_assoc]

theorem Grows.linkTarget (h : fs.Grows made fs') (p : NodePath) :
    fs'.linkTarget p = fs.linkTarget p := by
  unfold Kvfs.linkTarget
  rw [h.objects]
  cases hold : fs.nodes p with
  | some n => rw [h.keeps p n hold]
  | none =>
      cases hnew : fs'.nodes p with
      | none => rfl
      | some n =>
          rcases h.adds p n hnew with hmem | hmount
          · rw [hold] at hmem
            cases hmem
          · rw [Option.bind_some, hmount]
            rfl

theorem Grows.names (h : fs.Grows made fs') : fs'.names = fs.names.grow made := by
  have hhas : fs'.names.has = (fs.names.grow made).has := by
    funext p
    rw [Bool.eq_iff_iff]
    simp only [Kvfs.names, NameTree.grow, Bool.or_eq_true, decide_eq_true_iff]
    exact h.has p
  have hlink : fs'.names.link = (fs.names.grow made).link := by
    funext p
    show (fs'.linkTarget p).map parts = (fs.linkTarget p).map parts
    rw [h.linkTarget]
  exact congrArg₂ NameTree.mk hhas hlink

theorem grows_setNode (h : fs.WellFormed) {q : NodePath} {a : List Char} (name : List Char)
    (up : Option Nat) (hparent : (fs.nodes q).isSome) (hnone : fs.nodes (a :: q) = none) :
    fs.Grows [a :: q]
      { fs.setNode (a :: q) ⟨fs.next, name, up, none⟩ with next := fs.next + 1 } := by
  have hnodes : ∀ p,
      { fs.setNode (a :: q) ⟨fs.next, name, up, none⟩ with next := fs.next + 1 }.nodes p =
        if p = a :: q then some ⟨fs.next, name, up, none⟩ else fs.nodes p := fun p =>
    Function.update_apply ..
  have hkeeps : ∀ p n, fs.nodes p = some n → p ≠ a :: q := by
    intro p n hp heq
    rw [heq, hnone] at hp
    cases hp
  refine ⟨⟨?_, ?_, ?_, ?_⟩, rfl, rfl, ?_, ?_, ?_⟩
  · rw [hnodes, if_neg (by simp)]
    exact h.root
  · intro b p hp
    rw [hnodes] at hp ⊢
    split
    · rfl
    · split at hp
      · rename_i heq
        rw [(List.cons_eq_cons.1 heq).2]
        exact hparent
      · exact h.parent b p hp
  · intro p n hp
    rw [hnodes] at hp
    show n.id < fs.next + 1
    split at hp
    · rw [← Option.some.inj hp]
      exact Nat.lt_succ_self fs.next
    · exact Nat.lt_succ_of_lt (h.fresh p n hp)
  · intro p r n m hp hr hid
    rw [hnodes] at hp hr
    split at hp
    · split at hr
      · simp_all
      · have hlt := h.fresh r m hr
        rw [← hid, ← Option.some.inj hp] at hlt
        exact absurd hlt (lt_irrefl _)
    · split at hr
      · have hlt := h.fresh p n hp
        rw [hid, ← Option.some.inj hr] at hlt
        exact absurd hlt (lt_irrefl _)
      · exact h.distinct p r n m hp hr hid
  · intro p n hp
    rw [hnodes, if_neg (hkeeps p n hp)]
    exact hp
  · intro p n hp
    rw [hnodes] at hp
    split at hp
    · exact .inr (by rw [← Option.some.inj hp])
    · exact .inl hp
  · intro p
    rw [hnodes, List.mem_singleton]
    split
    · simp_all
    · simp_all

theorem grows_addChild (h : fs.WellFormed) (hq : (fs.nodes q).isSome) (name : List Char) :
    ∃ fs', fs.addChild q (some name) = (some (fold name :: q), fs') ∧
      fs.Grows [fold name :: q] fs' := by
  unfold addChild getNode
  cases hchild : fs.nodes (fold name :: q) with
  | some n =>
      refine ⟨fs, by simp [hchild], Grows.refl h fun p hp => ?_⟩
      rw [List.mem_singleton.1 hp, hchild]
      rfl
  | none =>
      refine ⟨_, ?_, grows_setNode h name ((fs.nodes q).map Node.id) hq hchild⟩
      simp [hchild]

theorem nodes_of_next (h : fs.WellFormed) (hq : (fs.nodes q).isSome) {d : PathPart (List Char)}
    (hnext : fs.names.next q d = some n) : (fs.nodes n).isSome ∧ n = NameTree.make above q d :=
  ⟨NameTree.has_of_next h.parent hq hnext, (NameTree.eq_make_of_next above hnext).1⟩

/-- Where a lookup finds nothing, the creator makes the child that it looked for. -/
theorem fold_eq_make (hnext : fs.names.next q (partOf dir) = none) :
    fold dir :: q = NameTree.make above q (partOf dir) := by
  unfold partOf at hnext ⊢
  by_cases hhere : dir = ".".toList
  · rw [if_pos hhere] at hnext
    cases q <;> cases hnext
  · rw [if_neg hhere] at hnext ⊢
    by_cases hup : dir = "..".toList
    · rw [if_pos hup] at hnext ⊢
      cases q with
      | nil => rw [hup]; rfl
      | cons a q => cases hnext
    · rw [if_neg hup]
      cases q <;> rfl

/-- The tree after one component of a creating walk. -/
def visit (fs : Kvfs) (q : NodePath) (dir : List Char) : Kvfs :=
  match fs.names.next q (partOf dir) with
  | some _ => fs
  | none => (fs.addChild q (some dir)).2

theorem grows_visit (h : fs.WellFormed) (hq : (fs.nodes q).isSome) (dir : List Char) :
    fs.Grows [NameTree.make above q (partOf dir)] (fs.visit q dir) := by
  unfold visit
  cases hnext : fs.names.next q (partOf dir) with
  | some n =>
      obtain ⟨hn, rfl⟩ := nodes_of_next h hq hnext
      exact Grows.refl h fun p hp => List.mem_singleton.1 hp ▸ hn
  | none =>
      obtain ⟨fs', hadd, hgrows⟩ := grows_addChild h hq dir
      rw [fold_eq_make hnext] at hgrows
      dsimp only
      rwa [hadd]

variable {c : Creator}

/-- One component of a creating walk. -/
theorem creator_onPathPart (h : c.fs.WellFormed) (hcur : (c.fs.nodes c.current).isSome)
    (hforce : c.force = true) (dir : List Char) : c.onPathPart dir =
      (if (c.fs.linkTarget (NameTree.make above c.current (partOf dir))).isSome then
        PATH_REPARSE_POINT_REACHED else PATH_OK,
        ⟨c.fs.visit c.current dir, NameTree.make above c.current (partOf dir), true⟩) := by
  have hgrows := grows_visit h hcur dir
  obtain ⟨fs, q, force⟩ := c
  obtain rfl : force = true := hforce
  unfold Creator.onPathPart
  dsimp only at hgrows ⊢
  rw [findPart_update]
  unfold visit at hgrows ⊢
  cases hnext : fs.names.next q (partOf dir) with
  | some n =>
      obtain ⟨hn, rfl⟩ := nodes_of_next h hcur hnext
      dsimp only
      split <;> rfl
  | none =>
      obtain ⟨fs', hadd, -⟩ := grows_addChild h hcur dir
      rw [hnext] at hgrows
      dsimp only at hgrows ⊢
      rw [fold_eq_make hnext] at hadd
      rw [hadd] at hgrows ⊢
      rw [if_pos rfl]
      dsimp only
      rw [hgrows.linkTarget]
      split <;> rfl

/-- What `createPath` does at the end of its walk. -/
def finish (fs : Kvfs) (n : NodePath) (ob : Option Nat) : Option (Option NodePath × Kvfs) :=
  match ob with
  | none => some (some n, fs)
  | some ob =>
    match fs.mount n (some ob) with
    | none => none
    | some (.error _) => some (none, fs)
    | some (.ok fs') => some (some n, fs')

variable {ob : Option Nat}

theorem createPathLoop_nil (fuel : Nat) (hpath : components path = []) :
    createPathLoop ob (fuel + 1) c path = finish c.fs c.current ob := by
  rw [createPathLoop, parse_nil hpath]
  rfl

theorem createPathLoop_on (ob : Option Nat) (h : c.fs.WellFormed)
    (hcur : (c.fs.nodes c.current).isSome) (hforce : c.force = true)
    (hpath : components path = dir :: dirs)
    (hlink : c.fs.linkTarget (NameTree.make above c.current (partOf dir)) = none) :
    ∃ rest, components rest = dirs ∧ ∀ fuel, createPathLoop ob fuel c path =
      createPathLoop ob fuel
        ⟨c.fs.visit c.current dir, NameTree.make above c.current (partOf dir), true⟩ rest := by
  have hpart := creator_onPathPart h hcur hforce dir
  obtain ⟨rest, hrest, hparse⟩ := parse_cons (f := Creator.onPathPart) (s := c) hpath
  simp only [hpart, hlink, Option.isSome_none, Bool.false_eq_true, if_false,
    path_ok_nonneg] at hparse
  refine ⟨rest, hrest, fun fuel => ?_⟩
  cases fuel with
  | zero => rfl
  | succ fuel => rw [createPathLoop, createPathLoop, hparse]

theorem createPathLoop_link (ob : Option Nat) (h : c.fs.WellFormed)
    (hcur : (c.fs.nodes c.current).isSome) (hforce : c.force = true)
    (hpath : components path = dir :: dirs) {target : List Char}
    (hlink : c.fs.linkTarget (NameTree.make above c.current (partOf dir)) = some target)
    (fuel : Nat) : createPathLoop ob (fuel + 1) c path =
      createPathLoop ob fuel ⟨c.fs.visit c.current dir, [], true⟩ target := by
  have hpart := creator_onPathPart h hcur hforce dir
  obtain ⟨rest, -, hparse⟩ := parse_cons (f := Creator.onPathPart) (s := c) hpath
  simp only [hpart, hlink, Option.isSome_some, if_true, path_reparse_neg] at hparse
  rw [createPathLoop, hparse]
  dsimp only
  rw [if_pos rfl, (grows_visit h hcur dir).linkTarget, hlink]

theorem Grows.current (h : fs.Grows [n] fs') : (fs'.nodes n).isSome :=
  (h.has n).2 (.inr List.mem_cons_self)

/-- A call of `createPath` that ends has done a creating walk. -/
theorem makes_of_createPathLoop {fuel : Nat} {r : Option NodePath × Kvfs} (h : c.fs.WellFormed)
    (hcur : (c.fs.nodes c.current).isSome) (hforce : c.force = true)
    (hloop : createPathLoop ob fuel c path = some r) :
    ∃ n made dropped fs', c.fs.names.Makes above c.current (parts path) n made dropped ∧
      c.fs.Grows made fs' ∧ (fs'.nodes n).isSome ∧ finish fs' n ob = some r := by
  unfold parts
  induction fuel generalizing c path with
  | zero => cases hloop
  | succ fuel ih =>
      generalize hpath : components path = dirs
      induction dirs generalizing c path with
      | nil =>
          rw [createPathLoop_nil fuel hpath] at hloop
          exact ⟨c.current, [], [], c.fs, .nil _, Grows.refl h nofun, hcur, hloop⟩
      | cons dir dirs ihdirs =>
          cases hlink : c.fs.linkTarget (NameTree.make above c.current (partOf dir)) with
          | none =>
              have hgrows := grows_visit h hcur dir
              obtain ⟨rest, hrest, hround⟩ := createPathLoop_on ob h hcur hforce hpath hlink
              rw [hround] at hloop
              obtain ⟨n, made, dropped, fs', hmakes, hgrows', hn, hfinish⟩ :=
                ihdirs hgrows.wf hgrows.current rfl hloop hrest
              have hsame : c.fs.names.link = (c.fs.visit c.current dir).names.link := by
                rw [hgrows.names]
                rfl
              exact ⟨n, _, dropped, fs', .on (link_eq_none_iff.2 hlink) (hmakes.of_link hsame),
                hgrows.trans hgrows', hn, hfinish⟩
          | some target =>
              have hgrows := grows_visit h hcur dir
              rw [createPathLoop_link ob h hcur hforce hpath hlink] at hloop
              obtain ⟨n, made, dropped, fs', hmakes, hgrows', hn, hfinish⟩ :=
                ih hgrows.wf hgrows.wf.root rfl hloop
              have hsame : c.fs.names.link = (c.fs.visit c.current dir).names.link := by
                rw [hgrows.names]
                rfl
              exact ⟨n, _, _, fs', .again (link_eq_some_iff.2 ⟨target, hlink, rfl⟩)
                (hmakes.of_link hsame), hgrows.trans hgrows', hn, hfinish⟩

/-- A creating walk that ends is done by `createPath`. -/
theorem createPathLoop_of_makes (ob : Option Nat) {ds dropped : List (PathPart (List Char))}
    {t : NameTree (List Char)} (hmakes : t.Makes above q ds n made dropped)
    (hlinks : c.fs.names.link = t.link)
    (h : c.fs.WellFormed) (hcur : (c.fs.nodes c.current).isSome) (hforce : c.force = true)
    (hq : c.current = q) (hpath : parts path = ds) :
    ∃ fuel fs', createPathLoop ob fuel c path = finish fs' n ob ∧ (fs'.nodes n).isSome := by
  induction hmakes generalizing c path with
  | nil q =>
      have hnil : components path = [] := List.map_eq_nil_iff.1 hpath
      exact ⟨1, c.fs, hq ▸ createPathLoop_nil 0 hnil, hq ▸ hcur⟩
  | on hnone _ ih =>
      subst hq
      obtain ⟨dir, dirs, hcomp, rfl, rfl⟩ := parts_eq_cons hpath
      have hlink := link_eq_none_iff.1 (hlinks ▸ hnone)
      have hgrows := grows_visit h hcur dir
      obtain ⟨rest, hrest, hround⟩ := createPathLoop_on ob h hcur hforce hcomp hlink
      have hsame : (c.fs.visit c.current dir).names.link = c.fs.names.link := by
        rw [hgrows.names]
        rfl
      obtain ⟨fuel, fs', hloop, hn⟩ := ih (c := ⟨_, _, true⟩) (hsame.trans hlinks) hgrows.wf
        hgrows.current rfl rfl (show parts rest = _ from hrest ▸ rfl)
      exact ⟨fuel, fs', (hround fuel).trans hloop, hn⟩
  | again hsome _ ih =>
      subst hq
      obtain ⟨dir, dirs, hcomp, rfl, rfl⟩ := parts_eq_cons hpath
      obtain ⟨target, hlink, hparts⟩ := link_eq_some_iff.1 (hlinks ▸ hsome)
      have hgrows := grows_visit h hcur dir
      have hsame : (c.fs.visit c.current dir).names.link = c.fs.names.link := by
        rw [hgrows.names]
        rfl
      obtain ⟨fuel, fs', hloop, hn⟩ := ih (c := ⟨_, [], true⟩) (hsame.trans hlinks) hgrows.wf
        hgrows.wf.root rfl rfl hparts
      exact ⟨fuel + 1, fs', (createPathLoop_link ob h hcur hforce hcomp hlink fuel).trans hloop, hn⟩

end Vin64.Kernel.Kvfs
