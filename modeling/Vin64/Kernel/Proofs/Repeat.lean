import Vin64.Kernel.Proofs.Labels

/-!
# The same mount again

The second time the path leads to a link, and the walk goes on to the target of the link.
-/

namespace Vin64.Kernel

open Vin64.Lib Vin64.Vram

variable {path : List Char} {dir : List Char} {p : NodePath}

/-! ## A path for every place -/

theorem component_of_mem (h : dir ∈ components path) : dir ≠ [] ∧ '\\' ∉ dir := by
  generalize hpath : components path = dirs at h
  induction dirs generalizing path with
  | nil => cases h
  | cons first dirs ih =>
      have hfirst := Kvfs.component_of_cons hpath
      rcases List.mem_cons.1 h with rfl | hrest
      · exact hfirst
      · obtain ⟨rest, hcomp, -⟩ :=
          parse_cons (f := fun (s : Unit) _ => (0, s)) (s := ()) hpath
        exact ih hcomp hrest

theorem components_dir (hne : dir ≠ []) (hslash : '\\' ∉ dir) : components dir = [dir] := by
  have hall : ∀ c ∈ dir, (c != '\\') = true := by
    intro c hc
    simpa using ne_of_mem_of_not_mem hc hslash
  have htake : dir.takeWhile (· != '\\') = dir := List.takeWhile_eq_self_iff.2 hall
  have hdrop : skip_not_slash dir = [] := List.dropWhile_eq_nil_iff.2 hall
  cases dir with
  | nil => exact absurd rfl hne
  | cons c r =>
      have hc : c ≠ '\\' := by simpa using hall c List.mem_cons_self
      rw [components_part r hc, htake, hdrop, components_nil]

/-- The part of one component. -/
def IsPart (d : PathPart (List Char)) : Prop := ∃ dir, dir ≠ [] ∧ '\\' ∉ dir ∧ partOf dir = d

theorem parts_isPart (path : List Char) : ∀ d ∈ parts path, IsPart d := by
  intro d hd
  obtain ⟨dir, hdir, rfl⟩ := List.mem_map.1 hd
  obtain ⟨hne, hslash⟩ := component_of_mem hdir
  exact ⟨dir, hne, hslash, rfl⟩

theorem exists_path (h : ∀ a ∈ p, IsPart (.down a)) :
    ∃ path, parts path = p.reverse.map .down := by
  induction p with
  | nil => exact ⟨[], rfl⟩
  | cons a q ih =>
      obtain ⟨hfirst, hrest⟩ := List.forall_mem_cons.1 h
      obtain ⟨dir, hne, hslash, hdir⟩ := hfirst
      obtain ⟨path, hpath⟩ := ih hrest
      refine ⟨path ++ '\\' :: dir, ?_⟩
      calc parts (path ++ '\\' :: dir)
          = parts path ++ parts dir := parts_append path dir
        _ = q.reverse.map .down ++ [.down a] := by
            unfold parts at hpath ⊢
            rw [hpath, components_dir hne hslash, List.map_singleton, hdir]
        _ = (a :: q).reverse.map .down := by
            rw [List.reverse_cons, List.map_append, List.map_singleton]

namespace Kvfs

variable {fs fs' fs₁ fs₂ : Kvfs} {ob ob₁ ob₂ : Nat} {n : NodePath} {target : List Char}

/-- The second call ends; it gives no node, or leaves the tree as it is; then every path leads
to where it led after the first one. -/
structure Harmless (fs₁ fs₂ : Kvfs) (path : List Char) (ob : Nat) : Prop where
  ends : ∃ fuel r, fs₂.createPath fuel path true (some ob) none = some r
  null : ∀ fuel r fs₃, fs₂.createPath fuel path true (some ob) none = some (r, fs₃) →
    r = none ∨ fs₃ = fs₂
  resolves : ∀ fuel r fs₃, fs₂.createPath fuel path true (some ob) none = some (r, fs₃) →
    ∀ p x, (∃ fuel, fs₃.getNodeByPath fuel p true none = some x) ↔
      ∃ fuel, fs₁.getNodeByPath fuel p true none = some x

/-- The walk of the path ends at a node with an object, and makes no node that a lookup can
come to. -/
def Settled (fs : Kvfs) (path : List Char) : Prop :=
  ∃ n made dropped, fs.names.Makes above [] (parts path) n made dropped ∧ ¬ fs.Vacant n ∧
    ∀ p ∈ made, (fs.nodes p).isSome ∨ [above] <:+ p

/-- The walk of the path ends at a node that it came to; it did not just start there. -/
def ComesTo (fs : Kvfs) (path : List Char) (n : NodePath) : Prop :=
  ∃ made dropped, fs.names.Makes above [] (parts path) n made dropped ∧ n ∈ made

/-! ## The second call -/

theorem exists_vacant_node (hn : (fs.nodes n).isSome) (hvacant : fs.Vacant n) :
    ∃ k, fs.nodes n = some k ∧ k.mount = none := by
  obtain ⟨k, hk⟩ := Option.isSome_iff_exists.1 hn
  refine ⟨k, hk, ?_⟩
  cases hmount : k.mount with
  | none => rfl
  | some o => exact absurd ⟨k, hk, hmount⟩ (hvacant o)

theorem links_isPart (fs : Kvfs) (l : NodePath) (ds : List (PathPart (List Char)))
    (h : fs.names.link l = some ds) : ∀ d ∈ ds, IsPart d := by
  obtain ⟨target, -, rfl⟩ := Option.map_eq_some_iff.1 h
  exact parts_isPart target

/-- A new place of a walk is found by its names. -/
theorem finds_new (h : fs.WellFormed) {made : List NodePath} {dropped : List (PathPart (List Char))}
    (hmakes : fs.names.Makes above [] (parts path) n made dropped) (hgrows : fs.Grows made fs')
    (hp : p ∈ made) (hnew : fs.nodes p = none) (hbelow : ¬ [above] <:+ p) :
    ∃ path', fs'.names.Finds [] (parts path') (some p) ∧
      ¬ fs.names.Finds [] (parts path') (some p) := by
  have hlink : fs.names.link p = none := by
    rw [link_eq_none_iff]
    unfold linkTarget
    rw [hnew]
    rfl
  obtain ⟨hnames, hclear⟩ :=
    hmakes.made_plain (parts_isPart path) (links_isPart fs) hp hlink
  obtain ⟨path', hpath'⟩ := exists_path (hnames.resolve_left hbelow)
  refine ⟨path', ?_, fun hfinds => ?_⟩
  · rw [hpath']
    apply NameTree.finds_downs
    intro s hs hne
    constructor
    · exact isSome_of_suffix hgrows.wf hs ((hgrows.has p).2 (.inr hp))
    · rw [hgrows.names]
      exact hclear s hs hne
  · have hhas : (fs.nodes p).isSome := hfinds.has h.root h.parent h.root p rfl
    rw [hnew] at hhas
    cases hhas

/-- A call for a new object does no harm exactly when its walk ends at a node with an object and
makes nothing that shows. -/
theorem harmless_iff_settled (h : fs₂.WellFormed) (hnames : fs₂.names = fs₁.names) :
    Harmless fs₁ fs₂ path ob ↔ fs₂.Settled path := by
  have hgets : ∀ p x, (∃ fuel, fs₁.getNodeByPath fuel p true none = some x) ↔
      fs₂.names.Finds [] (parts p) x := by
    intro p x
    rw [getNodeByPath_iff, hnames]
    rfl
  constructor
  · intro hcall
    obtain ⟨fuel, ⟨r, fs₃⟩, hr⟩ := hcall.ends
    obtain ⟨n, made, dropped, fs', hmakes, hgrows, hn, hfinish⟩ :=
      makes_of_createPathLoop h h.root rfl hr
    have hmounted : ¬ fs₂.Vacant n := by
      intro hvacant
      obtain ⟨k, hk, hnone⟩ := exists_vacant_node hn ((hgrows.vacant n).2 hvacant)
      rw [finish_vacant ob hk hnone] at hfinish
      obtain ⟨rfl, rfl⟩ := Prod.mk.inj (Option.some.inj hfinish)
      rcases hcall.null fuel _ _ hr with hnull | hsame
      · cases hnull
      · apply hvacant ob
        rw [← hsame]
        exact ⟨{ k with mount := some ob }, by rw [bindNode, nodes_setNode, if_pos rfl], rfl⟩
    rw [finish_mounted ob fun hvacant => hmounted ((hgrows.vacant n).1 hvacant)] at hfinish
    obtain ⟨rfl, rfl⟩ := Prod.mk.inj (Option.some.inj hfinish)
    refine ⟨n, made, dropped, hmakes, hmounted, fun p hp => ?_⟩
    by_contra hnew
    simp only [not_or, Option.not_isSome_iff_eq_none] at hnew
    obtain ⟨path', hfinds, hlost⟩ := finds_new h hmakes hgrows hp hnew.1 hnew.2
    have hthere := (hcall.resolves fuel _ _ hr path' (some p)).1 (getNodeByPath_iff.2 hfinds)
    exact hlost ((hgets path' (some p)).1 hthere)
  · intro hsettled
    obtain ⟨n, made, dropped, hmakes, hmounted, hhas⟩ := hsettled
    have hresult : ∀ fuel r fs₃, fs₂.createPath fuel path true (some ob) none = some (r, fs₃) →
        r = none ∧ fs₃.names = fs₂.names.grow made := by
      intro fuel r fs₃ hr
      obtain ⟨n', made', dropped', fs', hmakes', hgrows, -, hfinish⟩ :=
        makes_of_createPathLoop h h.root rfl hr
      obtain ⟨rfl, rfl, -⟩ := hmakes.unique hmakes'
      rw [finish_mounted ob fun hvacant => hmounted ((hgrows.vacant n).1 hvacant)] at hfinish
      obtain ⟨rfl, rfl⟩ := Prod.mk.inj (Option.some.inj hfinish)
      exact ⟨rfl, hgrows.names⟩
    have hsame : ∀ p, ¬ [above] <:+ p → (fs₂.names.grow made).has p = fs₂.names.has p := by
      intro p hbelow
      have hmade : p ∈ made → fs₂.names.has p = true := fun hp => (hhas p hp).resolve_right hbelow
      unfold NameTree.grow
      by_cases hp : p ∈ made
      · simp [hp, hmade hp]
      · simp [hp]
    constructor
    · exact (createPath_ends_iff h path true (some ob)).2 ⟨n, made, dropped, hmakes⟩
    · exact fun fuel r fs₃ hr => .inl (hresult fuel r fs₃ hr).1
    · intro fuel r fs₃ hr p x
      rw [hgets, getNodeByPath_iff, (hresult fuel r fs₃ hr).2]
      constructor
      · intro hfinds
        exact (hfinds.congr (u := fs₂.names) rfl (fun q hq => (hsame q hq).symm) (by simp)
          (parts_avoid p) (links_avoid fs₂)).1
      · intro hfinds
        exact (hfinds.congr (u := fs₂.names.grow made) rfl hsame (by simp) (parts_avoid p)
          (links_avoid fs₂)).1

/-! ## The first call -/

/-- The tree after a link is mounted. -/
structure Linked (fs : Kvfs) (made : List NodePath) (n : NodePath) (target : List Char)
    (fs₁ : Kvfs) : Prop where
  wf : fs₁.WellFormed
  none : fs.names.link n = none
  link : fs₁.names.link n = some (parts target)
  other : ∀ p, p ≠ n → fs₁.names.link p = fs.names.link p
  mounted : ¬ fs₁.Vacant n
  has : ∀ p ∈ made, (fs₁.nodes p).isSome

theorem linkTarget_eq_none_of_vacant (h : fs.Vacant n) : fs.linkTarget n = none := by
  unfold linkTarget
  cases hk : fs.nodes n with
  | none => rfl
  | some k =>
      cases hmount : k.mount with
      | none => simp [hmount]
      | some o => exact absurd ⟨k, hk, hmount⟩ (h o)

theorem linked_of_createPath {fuel : Nat} (h : fs.WellFormed)
    (htarget : (fs.objects ob).target = some target)
    (hcreate : fs.createPath fuel path true (some ob) none = some (some n, fs₁)) :
    ∃ made dropped, fs.names.Makes above [] (parts path) n made dropped ∧
      fs.Linked made n target fs₁ := by
  obtain ⟨n', made, dropped, fs', hmakes, hgrows, hn, hfinish⟩ :=
    makes_of_createPathLoop h h.root rfl hcreate
  have hvacant : fs'.Vacant n' := by
    by_contra hmounted
    rw [finish_mounted ob hmounted] at hfinish
    cases hfinish
  obtain ⟨k, hk, hnone⟩ := exists_vacant_node hn hvacant
  rw [finish_vacant ob hk hnone] at hfinish
  obtain ⟨hn', rfl⟩ := Prod.mk.inj (Option.some.inj hfinish)
  obtain rfl := Option.some.inj hn'
  have hnodes : ∀ p, ((fs'.setNode n' { k with mount := some ob }).bindNode ob k.id).nodes p =
      if p = n' then some { k with mount := some ob } else fs'.nodes p := nodes_setNode fs' n' _
  have hobject : ∀ o, (((fs'.setNode n' { k with mount := some ob }).bindNode ob k.id).objects
      o).target = (fs.objects o).target := by
    intro o
    rw [← hgrows.objects]
    show (Function.update fs'.objects ob _ o).target = _
    rw [Function.update_apply]
    split
    · rename_i ho
      rw [ho]
      rfl
    · rfl
  refine ⟨made, dropped, hmakes, ?_⟩
  constructor
  · exact (hgrows.wf.setNode hk (some ob)).of_nodes rfl rfl
  · rw [link_eq_none_iff, ← hgrows.linkTarget]
    exact linkTarget_eq_none_of_vacant hvacant
  · rw [link_eq_some_iff]
    refine ⟨target, ?_, rfl⟩
    unfold linkTarget
    rw [hnodes, if_pos rfl, Option.bind_some, Option.bind_some, hobject, htarget]
  · intro p hp
    show (linkTarget _ p).map parts = (fs.linkTarget p).map parts
    rw [← hgrows.linkTarget]
    unfold linkTarget
    rw [hnodes, if_neg hp, hgrows.objects]
    simp only [hobject]
  · intro hv
    exact hv ob ⟨_, (hnodes n').trans (if_pos rfl), rfl⟩
  · intro p hp
    rw [hnodes]
    split
    · rfl
    · exact (hgrows.has p).2 (.inr hp)

/-- Where the first walk came to the node that it ended at, the second one goes on to the target
of the new link; else it is the first walk again, which ends at the link. -/
theorem settled_iff {made : List NodePath} {dropped : List (PathPart (List Char))}
    (hmakes : fs.names.Makes above [] (parts path) n made dropped)
    (h : fs.Linked made n target fs₁) :
    fs₁.Settled path ↔ fs₁.Settled target ∨ n ∉ made := by
  by_cases hmem : n ∈ made
  · obtain ⟨before, hsub, hiff⟩ := hmakes.restart h.other h.none h.link hmem
    rw [or_iff_left (not_not_intro hmem)]
    constructor
    · intro hpath
      obtain ⟨n', made', dropped', hwalk, hmounted, hhas⟩ := hpath
      obtain ⟨after, dropped'', rfl, hafter⟩ := (hiff n' made').1 ⟨dropped', hwalk⟩
      exact ⟨n', after, dropped'', hafter, hmounted, fun p hp =>
        hhas p (List.mem_append_right before hp)⟩
    · intro htarget
      obtain ⟨n', after, dropped', hafter, hmounted, hhas⟩ := htarget
      obtain ⟨dropped'', hwalk⟩ := (hiff n' (before ++ after)).2 ⟨after, dropped', rfl, hafter⟩
      refine ⟨n', _, dropped'', hwalk, hmounted, fun p hp => ?_⟩
      rcases List.mem_append.1 hp with hbefore | hp
      · exact .inl (h.has p (hsub hbefore))
      · exact hhas p hp
  · refine iff_of_true ?_ (.inr hmem)
    exact ⟨n, made, dropped, hmakes.of_not_mem h.other hmem, h.mounted, fun p hp =>
      .inl (h.has p hp)⟩

/-! ## Both calls -/

theorem linkTarget_create {objects : Nat → KoMountable} (held : Nat → Bool)
    (hsame : ∀ o, o ≠ ob → objects o = fs.objects o) (hfree : ∀ p, ¬ fs.Mounted p ob)
    (p : NodePath) :
    linkTarget { fs with objects := objects, held := held } p = fs.linkTarget p := by
  unfold linkTarget
  dsimp only
  cases hk : fs.nodes p with
  | none => rfl
  | some k =>
      cases hmount : k.mount with
      | none => simp [hmount]
      | some o =>
          have ho : o ≠ ob := fun heq => hfree p ⟨k, hk, heq ▸ hmount⟩
          simp only [Option.bind_some, hmount, hsame o ho]

/-- The same mount a second time does no harm exactly when the target of the link leads to a
node with an object and its walk makes nothing that shows, or the walk of the path ends at the
root without coming to it. -/
theorem remount_harmless_iff {fuel : Nat} (h : fs.WellFormed)
    (htarget : (fs.objects ob₁).target = some target)
    (hfirst : fs.createPath fuel path true (some ob₁) none = some (some n, fs₁))
    (hcreate : Step fs₁ (.create ob₂ (some target)) fs₂) :
    Harmless fs₁ fs₂ path ob₂ ↔ fs₁.Settled target ∨ ¬ fs.ComesTo path n := by
  obtain ⟨made, dropped, hmakes, hlinked⟩ := linked_of_createPath h htarget hfirst
  have hcomes : fs.ComesTo path n ↔ n ∈ made := by
    constructor
    · intro hcomes
      obtain ⟨made', dropped', hmakes', hmem⟩ := hcomes
      obtain ⟨-, rfl, -⟩ := hmakes.unique hmakes'
      exact hmem
    · exact fun hmem => ⟨made, dropped, hmakes, hmem⟩
  have hwf := step_wf hlinked.wf hcreate
  cases hcreate with
  | create _ hlive =>
      have hnames : names { fs₁ with
          objects := Function.update fs₁.objects ob₂ ⟨some target, none⟩
          held := Function.update fs₁.held ob₂ true } = fs₁.names := by
        have hlinks := linkTarget_create (Function.update fs₁.held ob₂ true)
          (fun o ho => Function.update_of_ne ho ⟨some target, none⟩ fs₁.objects)
          fun p hp => hlive hp.live
        unfold names
        simp only [hlinks]
      rw [harmless_iff_settled hwf hnames, hcomes, ← settled_iff hmakes hlinked]
      unfold Settled
      rw [hnames]
      rfl


theorem not_live_session {k m : Node} (hheld : fs.held ob = false) (hnodes : ∀ q, fs.nodes q =
    if q = [session] then some k else if q = [] then some m else none)
    (hk : k.mount ≠ some ob) (hm : m.mount ≠ some ob) : ¬ fs.Live ob := by
  intro hlive
  rcases hlive with hlive | ⟨q, n, hn, hmount⟩
  · rw [hheld] at hlive
    cases hlive
  · rw [hnodes] at hn
    split at hn
    · exact hk (Option.some.inj hn ▸ hmount)
    · split at hn
      · exact hm (Option.some.inj hn ▸ hmount)
      · cases hn

/-- A link to the root, where a device is mounted. -/
theorem remount_harmless_root : ∃ fs₁ fs₂ : Kvfs,
    fs₁.linkTarget [session] = some ['\\'] ∧
    Step fs₁ (.create 2 (some ['\\'])) fs₂ ∧ Harmless fs₁ fs₂ "\\Session".toList 2 := by
  let fs : Kvfs := (newLink ['\\']).setNode [] ⟨0, [], none, some 3⟩
  let fs₁ : Kvfs := ((fs.addChild [] (some "Session".toList)).2.setNode [session]
    ⟨1, "Session".toList, some 0, some 1⟩).bindNode 1 (some 1)
  have hwf : fs.WellFormed := by
    have hnew : (newLink ['\\']).WellFormed := (wf_new fun _ => ⟨none, none⟩).of_nodes rfl rfl
    exact hnew.setNode (n := ⟨0, [], none, none⟩) rfl (some 3)
  have hfirst : fs.createPath 1 "\\Session".toList true (some 1) none =
      some (some [session], fs₁) := by
    with_unfolding_all rfl
  have hnodes : ∀ q, fs₁.nodes q =
      if q = [session] then some ⟨1, "Session".toList, some 0, some 1⟩
      else if q = [] then some ⟨0, [], none, some 3⟩ else none := by
    intro q
    show Function.update (Function.update (Function.update _ _ _) [session] _) [session] _ q = _
    simp only [Function.update_apply]
    split
    · rfl
    · split
      · rfl
      · rename_i hq
        show (if q = [] then _ else none) = none
        rw [if_neg hq]
  have hlive : ¬ fs₁.Live 2 := not_live_session rfl hnodes (by simp) (by simp)
  have hcreate := Step.create (some ['\\']) hlive
  refine ⟨fs₁, _, rfl, hcreate, (remount_harmless_iff hwf rfl hfirst hcreate).2 (.inl ?_)⟩
  exact ⟨[], [], [], .nil [], fun h => h 3 ⟨_, rfl, rfl⟩, nofun⟩

/-- The second call makes the target of the link and mounts the new link there. -/
theorem remount_links_target : ∃ fs₂ fs₃ : Kvfs,
    (newLink "\\Device".toList).createPath 1 "\\Session".toList true (some 1) none =
      some (some [session], sessionLink "\\Device".toList) ∧
    Step (sessionLink "\\Device".toList) (.create 2 (some "\\Device".toList)) fs₂ ∧
    fs₂.createPath 2 "\\Session".toList true (some 2) none =
      some (some ["device".toList], fs₃) ∧
    ¬ Harmless (sessionLink "\\Device".toList) fs₂ "\\Session".toList 2 := by
  let fs₂ : Kvfs := { sessionLink "\\Device".toList with
    objects :=
      Function.update (sessionLink "\\Device".toList).objects 2 ⟨some "\\Device".toList, none⟩
    held := Function.update (sessionLink "\\Device".toList).held 2 true }
  have hcreate : Step (sessionLink "\\Device".toList) (.create 2 (some "\\Device".toList)) fs₂ :=
    .create _ (not_live_session rfl (nodes_sessionLink "\\Device".toList) (by simp) (by simp))
  have hsecond : ∃ fs₃, fs₂.createPath 2 "\\Session".toList true (some 2) none =
      some (some ["device".toList], fs₃) ∧ (fs₃.nodes ["device".toList]).isSome :=
    ⟨_, by with_unfolding_all rfl, by with_unfolding_all rfl⟩
  obtain ⟨fs₃, hsecond, hnew⟩ := hsecond
  refine ⟨fs₂, fs₃, by with_unfolding_all rfl, hcreate, hsecond, fun h => ?_⟩
  rcases h.null 2 _ _ hsecond with hnull | hsame
  · cases hnull
  · have hold : fs₂.nodes ["device".toList] = none := by
      rw [show fs₂.nodes = (sessionLink "\\Device".toList).nodes from rfl, nodes_sessionLink]
      decide
    rw [hsame, hold] at hnew
    cases hnew

end Kvfs

end Vin64.Kernel
