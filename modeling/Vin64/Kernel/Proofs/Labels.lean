import Vin64.Kernel.Proofs.NoForce

/-!
# The names of the nodes

`createPath` makes nodes for the components of its paths.  The parent of the root is no node,
and the creator makes a child of the name `..` for it.
-/

namespace Vin64.Kernel

open Vin64.Lib Vin64.Vram

namespace Kvfs

variable {fs fs' t u : Kvfs} {q n : NodePath} {dir path : List Char} {dirs : List (List Char)}
  {d : PathPart (List Char)} {ds dropped : List (PathPart (List Char))} {made : List NodePath}

/-- A node other than the root has the name of one component, and knows the node it is in. -/
def Sound (fs : Kvfs) : Prop :=
  ∀ a q n, fs.nodes (a :: q) = some n →
    (n.name ≠ [] ∧ '\\' ∉ n.name ∧ n.name ≠ ".".toList ∧ n.name ≠ "..".toList) ∧
      ∃ m, fs.nodes q = some m ∧ n.parent = some m.id

/-- A node is found by its name. -/
def Keyed (fs : Kvfs) : Prop := ∀ a q n, fs.nodes (a :: q) = some n → fold n.name = a

/-- What holds of the nodes also after a walk asked for the parent of the root. -/
structure Labelled (fs : Kvfs) (a : List Char) (q : NodePath) (n : Node) : Prop where
  keyed : fold n.name = a
  part : n.name ≠ [] ∧ '\\' ∉ n.name ∧ n.name ≠ ".".toList
  up : n.name = "..".toList → q = []
  parent : ∃ m, fs.nodes q = some m ∧ n.parent = some m.id

def AllLabelled (fs : Kvfs) : Prop := ∀ a q n, fs.nodes (a :: q) = some n → fs.Labelled a q n

/-! ## Components -/

theorem component_of_cons (h : components path = dir :: dirs) : dir ≠ [] ∧ '\\' ∉ dir := by
  rw [← components_skip_slash] at h
  rcases skip_slash_cases path with hskip | ⟨c, r, hskip, hc⟩
  · rw [hskip] at h
    cases h
  · rw [hskip, components_part r hc] at h
    obtain ⟨rfl, -⟩ := List.cons_eq_cons.1 h
    refine ⟨by simp [hc], fun hmem => ?_⟩
    have hpart := List.mem_takeWhile_imp hmem
    simp at hpart

theorem eq_dot_of_toLower {c : Char} (h : c.toLower = '.') : c = '.' := by
  unfold Char.toLower at h
  split at h
  · rename_i hc
    have hval : (c.val + 32).toNat = 46 := congrArg (fun c => c.val.toNat) h
    have hlow : 65 ≤ c.val.toNat := hc.1
    have hhigh : c.val.toNat ≤ 90 := hc.2
    rw [UInt32.toNat_add] at hval
    have h32 : UInt32.toNat 32 = 32 := rfl
    omega
  · exact h

/-- Only `..` has the form of `..`. -/
theorem eq_above_of_fold (h : fold dir = above) : dir = "..".toList := by
  obtain ⟨c, rest, rfl, hc, hrest⟩ := List.map_eq_cons_iff.1 h
  obtain ⟨c', rest', rfl, hc', hnil⟩ := List.map_eq_cons_iff.1 hrest
  obtain rfl := List.map_eq_nil_iff.1 hnil
  rw [eq_dot_of_toLower hc, eq_dot_of_toLower hc']
  rfl

/-! ## One component -/

/-- What no component and no mount destroys holds after `createPath`. -/
theorem createPathLoop_keeps {P : Kvfs → Prop} {ob : Option Nat}
    (hvisit : ∀ fs q dir, (fs.nodes q).isSome → dir ≠ [] → '\\' ∉ dir → P fs →
      P (fs.visit q dir))
    (hmount : ∀ fs p ob r, P fs → fs.mount p ob = some r → P (fs.after r))
    {fuel : Nat} {c : Creator} {r : Option NodePath × Kvfs} (h : c.fs.WellFormed)
    (hcur : (c.fs.nodes c.current).isSome) (hforce : c.force = true)
    (hloop : createPathLoop ob fuel c path = some r) (hP : P c.fs) : P r.2 := by
  induction fuel generalizing c path with
  | zero => cases hloop
  | succ fuel ih =>
      generalize hpath : components path = dirs
      induction dirs generalizing c path with
      | nil =>
          rw [createPathLoop_nil fuel hpath] at hloop
          rcases finish_cases hloop with ⟨-, rfl⟩ | ⟨o, res, -, hm, hafter⟩
          · exact hP
          · rw [hafter]
            exact hmount _ _ _ _ hP hm
      | cons dir dirs ihdirs =>
          have hgrows := grows_visit h hcur dir
          obtain ⟨hne, hslash⟩ := component_of_cons hpath
          have hP' := hvisit c.fs c.current dir hcur hne hslash hP
          cases hlink : c.fs.linkTarget (NameTree.make above c.current (partOf dir)) with
          | none =>
              obtain ⟨rest, hrest, hround⟩ := createPathLoop_on ob h hcur hforce hpath hlink
              rw [hround] at hloop
              exact ihdirs hgrows.wf hgrows.current rfl hloop hP' hrest
          | some target =>
              rw [createPathLoop_link ob h hcur hforce hpath hlink] at hloop
              exact ih hgrows.wf hgrows.wf.root rfl hloop hP'

/-- A component makes no node, or a node of its name in the current one. -/
theorem visit_cases (hq : (fs.nodes q).isSome) (dir : List Char) :
    fs.visit q dir = fs ∨ ∃ m, fs.nodes q = some m ∧ fs.names.next q (partOf dir) = none ∧
      fs.nodes (fold dir :: q) = none ∧ ∀ p, (fs.visit q dir).nodes p =
        if p = fold dir :: q then some ⟨fs.next, dir, some m.id, none⟩ else fs.nodes p := by
  unfold visit
  cases hnext : fs.names.next q (partOf dir) with
  | some _ => exact .inl rfl
  | none =>
      obtain ⟨m, hm⟩ := Option.isSome_iff_exists.1 hq
      dsimp only
      unfold addChild getNode
      cases hchild : fs.nodes (fold dir :: q) with
      | some k =>
          left
          simp [hchild]
      | none =>
          refine .inr ⟨m, hm, rfl, rfl, fun p => ?_⟩
          simp only [hchild, hm, Option.isSome_none, Bool.false_eq_true, if_false]
          exact Function.update_apply ..

/-- A change of what is mounted. -/
theorem AllLabelled.of_same (hall : fs.AllLabelled)
    (hold : ∀ p k, fs'.nodes p = some k →
      ∃ k', fs.nodes p = some k' ∧ k'.name = k.name ∧ k'.parent = k.parent)
    (hkept : ∀ p k, fs.nodes p = some k → ∃ k', fs'.nodes p = some k' ∧ k'.id = k.id) :
    fs'.AllLabelled := by
  intro a q n hn
  obtain ⟨n', hn', hname, hparent⟩ := hold _ n hn
  have hlabel := hall a q n' hn'
  obtain ⟨m, hm, hup⟩ := hlabel.parent
  obtain ⟨m', hm', hid⟩ := hkept q m hm
  constructor
  · rw [← hname]
    exact hlabel.keyed
  · rw [← hname]
    exact hlabel.part
  · rw [← hname]
    exact hlabel.up
  · exact ⟨m', hm', by rw [← hparent, hup, hid]⟩

theorem AllLabelled.of_nodes (hall : fs.AllLabelled) (hnodes : fs'.nodes = fs.nodes) :
    fs'.AllLabelled := by
  apply hall.of_same
  · intro p k hk
    exact ⟨k, hnodes ▸ hk, rfl, rfl⟩
  · intro p k hk
    exact ⟨k, hnodes.symm ▸ hk, rfl⟩

theorem visit_labelled (hq : (fs.nodes q).isSome) (hne : dir ≠ []) (hslash : '\\' ∉ dir)
    (hall : fs.AllLabelled) : (fs.visit q dir).AllLabelled := by
  rcases visit_cases hq dir with hsame | ⟨m, hm, hnext, hnone, hnodes⟩
  · rwa [hsame]
  have hkept : ∀ p k, fs.nodes p = some k → (fs.visit q dir).nodes p = some k := by
    intro p k hk
    rw [hnodes, if_neg]
    · exact hk
    · intro hp
      rw [hp, hnone] at hk
      cases hk
  intro a p n hn
  rw [hnodes] at hn
  split at hn
  · rename_i hplace
    obtain ⟨rfl, rfl⟩ := List.cons_eq_cons.1 hplace
    obtain rfl := Option.some.inj hn
    constructor
    · rfl
    · refine ⟨hne, hslash, fun hdot => ?_⟩
      unfold partOf at hnext
      rw [if_pos hdot] at hnext
      cases p <;> cases hnext
    · intro hup
      cases p with
      | nil => rfl
      | cons b p =>
          have hdot : dir ≠ ".".toList := by
            rw [show dir = "..".toList from hup]
            decide
          unfold partOf at hnext
          rw [if_neg hdot, if_pos hup] at hnext
          cases hnext
    · exact ⟨m, hkept p m hm, rfl⟩
  · obtain ⟨hkeyed, hpart, hup, k, hk, hid⟩ := hall a p n hn
    exact ⟨hkeyed, hpart, hup, k, hkept p k hk, hid⟩

theorem setMount_labelled {p : NodePath} {n : Node} (hall : fs.AllLabelled)
    (hn : fs.nodes p = some n) (m : Option Nat) : (fs.setNode p { n with mount := m }).AllLabelled := by
  have hnodes := nodes_setNode fs p { n with mount := m }
  apply hall.of_same
  · intro q k hk
    rw [hnodes] at hk
    split at hk
    · rename_i hq
      obtain rfl := Option.some.inj hk
      exact ⟨n, hq ▸ hn, rfl, rfl⟩
    · exact ⟨k, hk, rfl, rfl⟩
  · intro q k hk
    rw [hnodes]
    by_cases hq : q = p
    · rw [if_pos hq]
      refine ⟨_, rfl, ?_⟩
      rw [hq, hn] at hk
      rw [← Option.some.inj hk]
    · rw [if_neg hq]
      exact ⟨k, hk, rfl⟩

theorem mount_labelled {p : NodePath} {ob : Option Nat} {r : Except HRESULT Kvfs}
    (hall : fs.AllLabelled) (hmount : fs.mount p ob = some r) : (fs.after r).AllLabelled := by
  rcases mount_cases hmount with ⟨e, rfl⟩ | ⟨n, o, hn, -, -, rfl⟩
  · exact hall
  · exact (setMount_labelled hall hn (some o)).of_nodes rfl

/-! ## The parent of the root -/

theorem partOf_ne_above (dir : List Char) : partOf dir ≠ .down above := by
  unfold partOf
  by_cases hdot : dir = ".".toList
  · rw [if_pos hdot]
    simp
  · rw [if_neg hdot]
    by_cases hup : dir = "..".toList
    · rw [if_pos hup]
      simp
    · rw [if_neg hup]
      intro h
      exact hup (eq_above_of_fold (PathPart.down.inj h))

theorem parts_avoid (path : List Char) : NameTree.Avoids above (parts path) := by
  intro d hd
  obtain ⟨dir, -, rfl⟩ := List.mem_map.1 hd
  exact partOf_ne_above dir

theorem links_avoid (fs : Kvfs) (l : NodePath) (ds : List (PathPart (List Char)))
    (h : fs.names.link l = some ds) : NameTree.Avoids above ds := by
  obtain ⟨target, -, rfl⟩ := Option.map_eq_some_iff.1 h
  exact parts_avoid target

/-- A node is in the tree with all the nodes it is in. -/
theorem isSome_of_suffix (h : fs.WellFormed) {p : NodePath} (hp : p <:+ q)
    (hq : (fs.nodes q).isSome) : (fs.nodes p).isSome := by
  induction q with
  | nil =>
      obtain rfl := List.suffix_nil.1 hp
      exact hq
  | cons a q ih =>
      rcases List.suffix_cons_iff.1 hp with rfl | hrest
      · exact hq
      · exact ih hrest (h.parent a q hq)

/-- `createPath` leaves no node above the root exactly when there was none and its walk does
not ask for it. -/
theorem createPath_above_iff {fuel : Nat} {force : Bool} {ob : Option Nat}
    {root r : Option NodePath} (h : fs.WellFormed) (hroot : (fs.nodes (root.getD [])).isSome)
    (hcreate : fs.createPath fuel path force ob root = some (r, fs')) :
    fs'.nodes [above] = none ↔
      fs.nodes [above] = none ∧ ¬ fs.names.Above above (root.getD []) (parts path) := by
  obtain ⟨n, made, dropped, fs₁, hmakes, hgrows, -, hfinish⟩ :=
    makes_of_createPathLoop h hroot rfl hcreate
  change fs.names.Makes above (root.getD []) (parts path) n made dropped at hmakes
  have hhas : (fs'.nodes [above]).isSome ↔ (fs.nodes [above]).isSome ∨ [above] ∈ made := by
    rw [← hgrows.has]
    exact finish_isSome hfinish [above]
  rw [← Option.not_isSome_iff_eq_none, ← Option.not_isSome_iff_eq_none, hhas, not_or]
  refine and_congr_right fun hnone => not_congr ⟨fun hmem => ?_, hmakes.top_mem⟩
  apply hmakes.above_of_below _ (parts_avoid path) (links_avoid fs) hmem (List.suffix_refl _)
  exact fun hbelow => hnone (isSome_of_suffix h hbelow hroot)

/-- With labelled nodes the only name that is not that of a component is `..`, below the root. -/
theorem sound_iff (hall : fs.AllLabelled) : fs.Sound ↔ fs.nodes [above] = none := by
  constructor
  · intro hsound
    cases hn : fs.nodes [above] with
    | none => rfl
    | some n =>
        have hname := eq_above_of_fold (hall above [] n hn).keyed
        exact absurd hname (hsound above [] n hn).1.2.2.2
  · intro hnone a q n hn
    obtain ⟨hkeyed, ⟨hne, hslash, hdot⟩, hup, hparent⟩ := hall a q n hn
    refine ⟨⟨hne, hslash, hdot, fun hname => ?_⟩, hparent⟩
    obtain rfl := hup hname
    have ha : a = above := by
      rw [← hkeyed, hname]
      decide
    rw [ha, hnone] at hn
    cases hn

theorem Sound.labelled (h : fs.Sound) (hkeyed : fs.Keyed) : fs.AllLabelled := by
  intro a q n hn
  obtain ⟨⟨hne, hslash, hdot, hup⟩, hparent⟩ := h a q n hn
  exact ⟨hkeyed a q n hn, ⟨hne, hslash, hdot⟩, fun hname => absurd hname hup, hparent⟩

/-! ## Runs -/

/-- A call of `createPath`, or one on an object. -/
def CreatesPaths : VfsCall → Prop
  | .create _ _ => True
  | .hold _ => True
  | .release _ => True
  | .createPath _ _ _ _ => True
  | _ => False

/-- The walk of the call does not ask for the parent of the root. -/
def StaysBelow (fs : Kvfs) : VfsCall → Prop
  | .createPath path _ _ root => ¬ fs.names.Above above (root.getD []) (parts path)
  | _ => True

theorem step_labelled {call : VfsCall} (h : fs.WellFormed) (hcall : CreatesPaths call)
    (hall : fs.AllLabelled) (hstep : Step fs call fs') :
    fs'.AllLabelled ∧ (fs'.nodes [above] = none ↔ fs.nodes [above] = none ∧ fs.StaysBelow call) := by
  cases hstep with
  | create target hlive => exact ⟨hall.of_nodes rfl, by simp [StaysBelow]⟩
  | hold hlive => exact ⟨hall.of_nodes rfl, by simp [StaysBelow, hold]⟩
  | release => exact ⟨hall.of_nodes rfl, by simp [StaysBelow, hold]⟩
  | createPath _ hroot hcreate =>
      refine ⟨?_, createPath_above_iff h hroot hcreate⟩
      exact createPathLoop_keeps (fun _ _ _ hq hne hslash hall => visit_labelled hq hne hslash hall)
        (fun _ _ _ _ hall hm => mount_labelled hall hm) h hroot rfl hcreate hall
  | mount => exact hcall.elim
  | unmount => exact hcall.elim
  | addChild => exact hcall.elim
  | eraseChild => exact hcall.elim

theorem run_labelled {ok : Kvfs → VfsCall → Prop} {calls : List VfsCall}
    (hok : ∀ s c, ok s c → CreatesPaths c) (hwf : fs.WellFormed) (hall : fs.AllLabelled)
    (hrun : Run (When ok Step) fs calls fs') : fs'.WellFormed ∧ fs'.AllLabelled := by
  apply hrun.invariant (P := fun u => u.WellFormed ∧ u.AllLabelled) ⟨hwf, hall⟩
  intro s c u hs hstep
  exact ⟨step_wf hs.1 hstep.2, (step_labelled hs.1 (hok s c hstep.1) hs.2 hstep.2).1⟩

/-- After any calls of `createPath` the names and parents of the nodes are right exactly when no
walk asked for the parent of the root. -/
theorem run_sound_iff {calls : List VfsCall} (hwf : fs.WellFormed) (hkeyed : fs.Keyed)
    (hsound : fs.Sound) (hrun : Run (When (fun _ c => CreatesPaths c) Step) fs calls fs') :
    fs'.Sound ↔ Run (When (fun s c => CreatesPaths c ∧ s.StaysBelow c) Step) fs calls fs' := by
  have hall := hsound.labelled hkeyed
  have hstart := (sound_iff hall).1 hsound
  rw [sound_iff (run_labelled (fun _ _ h => h) hwf hall hrun).2]
  constructor
  · intro hnone
    induction hrun with
    | nil => exact .nil
    | snoc hbefore hlast ih =>
        obtain ⟨hwf', hall'⟩ := run_labelled (fun _ _ h => h) hwf hall hbefore
        obtain ⟨hnone', hbelow⟩ := (step_labelled hwf' hlast.1 hall' hlast.2).2.1 hnone
        exact (ih hnone').snoc ⟨⟨hlast.1, hbelow⟩, hlast.2⟩
  · intro hbelow
    clear hrun
    induction hbelow with
    | nil => exact hstart
    | snoc hbefore hlast ih =>
        obtain ⟨hwf', hall'⟩ := run_labelled (fun _ _ h => h.1) hwf hall hbefore
        exact (step_labelled hwf' hlast.1.1 hall' hlast.2).2.2 ⟨ih, hlast.1.2⟩

theorem nodes_new_cons (objects : Nat → KoMountable) (a : List Char) (q : NodePath) :
    (new objects).nodes (a :: q) = none := by
  simp [new]

theorem new_keyed (objects : Nat → KoMountable) : (new objects).Keyed := by
  intro a q n hn
  rw [nodes_new_cons] at hn
  cases hn

theorem new_sound (objects : Nat → KoMountable) : (new objects).Sound := by
  intro a q n hn
  rw [nodes_new_cons] at hn
  cases hn

/-- A walk that goes up from a child of the root. -/
theorem run_sound_child : ∃ fs', Run (When (fun _ c => CreatesPaths c) Step)
    (new fun _ => ⟨none, none⟩) [.createPath "\\a\\..\\b".toList true none none] fs' ∧
    (fs'.nodes [['b']]).isSome ∧ fs'.Sound := by
  have hparts : parts "\\a\\..\\b".toList = [.down ['a'], .up, .down ['b']] := by decide +kernel
  have hnone : ∀ l, (new fun _ => ⟨none, none⟩).names.link l = none := by
    intro l
    cases l with
    | nil => rfl
    | cons a q =>
        show ((new fun _ => ⟨none, none⟩).linkTarget (a :: q)).map parts = none
        unfold linkTarget
        rw [nodes_new_cons]
        rfl
  have hbelow : ¬ (new fun _ => ⟨none, none⟩).names.Above above [] (parts "\\a\\..\\b".toList) := by
    rw [hparts]
    intro h
    cases h with
    | again h => simp [hnone] at h
    | on _ h =>
        cases h with
        | again h => simp [hnone] at h
        | on _ h =>
            cases h with
            | again h => simp [hnone] at h
            | on _ h => cases h
  have hcreate : ∃ fs', (new fun _ => ⟨none, none⟩).createPath 1 "\\a\\..\\b".toList true none none =
      some (some [['b']], fs') ∧ (fs'.nodes [['b']]).isSome := by
    refine ⟨(((new fun _ => ⟨none, none⟩).addChild [] (some ['a'])).2.addChild [] (some ['b'])).2,
      ?_, ?_⟩
    · with_unfolding_all rfl
    · decide
  obtain ⟨fs', hcreate, hb⟩ := hcreate
  have hstep : Step (new fun _ => ⟨none, none⟩) (.createPath "\\a\\..\\b".toList true none none) fs' :=
    .createPath nofun rfl hcreate
  have hrun : Run (When (fun _ c => CreatesPaths c) Step) (new fun _ => ⟨none, none⟩)
      [.createPath "\\a\\..\\b".toList true none none] fs' := Run.nil.snoc ⟨trivial, hstep⟩
  refine ⟨fs', hrun, hb, (run_sound_iff (wf_new _) (new_keyed _) (new_sound _) hrun).2 ?_⟩
  exact Run.nil.snoc ⟨⟨trivial, hbelow⟩, hstep⟩

/-- A path that starts with `..` leaves a node of this name. -/
theorem above_not_sound : ∃ fs' n, Run (When (fun _ c => CreatesPaths c) Step)
    (new fun _ => ⟨none, none⟩) [.createPath "\\..".toList true none none] fs' ∧
    fs'.nodes [above] = some n ∧ n.name = "..".toList ∧ ¬ fs'.Sound := by
  have hcreate : ∃ fs' n, (new fun _ => ⟨none, none⟩).createPath 1 "\\..".toList true none none =
      some (some [above], fs') ∧ fs'.nodes [above] = some n ∧ n.name = "..".toList := by
    refine ⟨((new fun _ => ⟨none, none⟩).addChild [] (some "..".toList)).2, _, ?_, rfl, rfl⟩
    with_unfolding_all rfl
  obtain ⟨fs', n, hcreate, hn, hname⟩ := hcreate
  refine ⟨fs', n, Run.nil.snoc ⟨trivial, .createPath nofun rfl hcreate⟩, hn, hname, fun h => ?_⟩
  exact (h above [] n hn).1.2.2.2 hname

end Kvfs

end Vin64.Kernel
