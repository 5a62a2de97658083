import Mathlib.Order.Interval.Finset.Nat
import Vin64.Kernel.Proofs.Mounts

/-!
# What paths name

Lookups end, links stand for their targets, and `createPath` and `getNodeByPath` agree, as far
as the links and the paths allow it.
-/

namespace Vin64.Kernel.Kvfs

open Vin64.Lib

variable {fs fs' : Kvfs} {objects : Nat → KoMountable} {calls : List VfsCall} {path : List Char}
  {n : NodePath}

theorem finite_links (h : fs.WellFormed) : {p | (fs.names.link p).isSome}.Finite := by
  have hnodes : {p | (fs.nodes p).isSome}.Finite := by
    refine Set.Finite.of_injOn (f := fun p => ((fs.nodes p).map Node.id).getD 0) ?_ ?_
      (Set.finite_Iio fs.next)
    · intro p hp
      obtain ⟨k, hk⟩ := Option.isSome_iff_exists.1 hp
      have hid := h.fresh p k hk
      simpa [hk] using hid
    · intro p hp q hq heq
      obtain ⟨k, hk⟩ := Option.isSome_iff_exists.1 hp
      obtain ⟨m, hm⟩ := Option.isSome_iff_exists.1 hq
      exact h.distinct p q k m hk hm (by simpa [hk, hm] using heq)
  refine hnodes.subset fun p hp => ?_
  have hlink : ((fs.linkTarget p).map parts).isSome := hp
  unfold linkTarget at hlink
  cases hnode : fs.nodes p with
  | none => simp [hnode] at hlink
  | some k =>
      show (fs.nodes p).isSome
      rw [hnode]
      rfl

theorem exists_finish (ob : Option Nat) (hn : (fs.nodes n).isSome) :
    ∃ r, finish fs n ob = some r := by
  obtain ⟨k, hk⟩ := Option.isSome_iff_exists.1 hn
  unfold finish mount
  cases ob with
  | none => exact ⟨_, rfl⟩
  | some o =>
      cases hmount : k.mount with
      | none => exact ⟨_, by simp only [hk, hmount]; rfl⟩
      | some o' => exact ⟨_, by simp only [hk, hmount]; rfl⟩

theorem createPath_ends_iff (h : fs.WellFormed) (path : List Char) (force : Bool)
    (ob : Option Nat) : (∃ fuel r, fs.createPath fuel path force ob none = some r) ↔
      ∃ n made dropped, fs.names.Makes above [] (parts path) n made dropped := by
  constructor
  · intro hends
    obtain ⟨fuel, r, hr⟩ := hends
    obtain ⟨n, made, dropped, -, hmakes, -⟩ := makes_of_createPathLoop h h.root rfl hr
    exact ⟨n, made, dropped, hmakes⟩
  · intro hmakes
    obtain ⟨n, made, dropped, hmakes⟩ := hmakes
    obtain ⟨fuel, fs', hloop, hn⟩ :=
      createPathLoop_of_makes ob (c := ⟨fs, [], true⟩) hmakes rfl h h.root rfl rfl rfl
    obtain ⟨r, hr⟩ := exists_finish ob hn
    exact ⟨fuel, r, hloop.trans hr⟩

/-! ## One link

The tree of `createPath("\\Session", true, new KoSymbolLink(target))`.
-/

def session : List Char := "session".toList

def device : List Char := "device".toList

def newLink (target : List Char) : Kvfs :=
  { new fun _ => ⟨none, none⟩ with
    objects := Function.update (fun _ => ⟨none, none⟩) 1 ⟨some target, none⟩
    held := Function.update (fun _ => false) 1 true }

def sessionLink (target : List Char) : Kvfs :=
  (((newLink target).addChild [] (some "Session".toList)).2.setNode [session]
    ⟨1, "Session".toList, some 0, some 1⟩).bindNode 1 (some 1)

theorem step_newLink (target : List Char) :
    Step (new fun _ => ⟨none, none⟩) (.create 1 (some target)) (newLink target) := by
  refine .create (some target) fun hlive => hlive.elim nofun fun h => ?_
  obtain ⟨p, k, hk, hm⟩ := h
  exact not_mounted_new _ p 1 ⟨k, hk, hm⟩

theorem step_sessionLink (target : List Char) : Step (newLink target)
    (.createPath "\\Session".toList true (some 1) none) (sessionLink target) := by
  have hpath : (newLink target).createPath 1 "\\Session".toList true (some 1) none =
      some (some [session], sessionLink target) := by
    with_unfolding_all rfl
  refine .createPath (fun o ho => ?_) rfl hpath
  obtain rfl := Option.some.inj ho
  exact .inl rfl

theorem run_sessionLink (target : List Char) : Run Step (new fun _ => ⟨none, none⟩)
    [.createPath "\\Session".toList true (some 1) none, .create 1 (some target)]
    (sessionLink target) :=
  (Run.nil.snoc (step_newLink target)).snoc (step_sessionLink target)

theorem nodes_sessionLink (target : List Char) (q : NodePath) : (sessionLink target).nodes q =
    if q = [session] then some ⟨1, "Session".toList, some 0, some 1⟩
    else if q = [] then some ⟨0, [], none, none⟩ else none := by
  show Function.update (Function.update (newLink target).nodes [session] _) [session] _ q = _
  rw [Function.update_apply]
  split
  · rfl
  · rename_i hq
    rw [Function.update_of_ne hq]
    rfl

theorem link_sessionLink (target : List Char) (q : NodePath) :
    (sessionLink target).names.link q = if q = [session] then some (parts target) else none := by
  show ((sessionLink target).linkTarget q).map parts = _
  unfold linkTarget
  rw [nodes_sessionLink]
  split
  · rfl
  · split <;> rfl

/-- A target that is not in the tree. -/
theorem not_resolves_sessionLink (l m : NodePath) :
    ¬ (sessionLink "\\Device".toList).names.Resolves l m := by
  intro h
  obtain ⟨path, hpath, hmeets⟩ := h
  rw [link_sessionLink] at hpath
  split at hpath
  · have hparts : parts "\\Device".toList = [.down device] := by decide +kernel
    obtain rfl := Option.some.inj hpath
    have hnext : (sessionLink "\\Device".toList).names.next [] (.down device) = none := by
      decide
    rw [hparts] at hmeets
    cases hmeets with
    | on h => cases h.symm.trans hnext
    | here h => cases h.symm.trans hnext
    | past h => cases h.symm.trans hnext
  · cases hpath

theorem not_loops_sessionLink (l : NodePath) :
    ¬ Loops (sessionLink "\\Device".toList).names.Resolves l := by
  intro h
  obtain ⟨m, -, hm⟩ := h
  obtain ⟨k, hk, -⟩ := Relation.TransGen.head'_iff.1 hm
  exact not_resolves_sessionLink m k hk

/-! ## Walks that end -/

/-- In every tree reached both walks of a path end unless they come to links that lead back to
themselves. -/
theorem run_walks_end_iff (hrun : Run Step (new objects) calls fs) (path : List Char)
    (force : Bool) (ob : Option Nat) :
    (∃ fuel x, fs.getNodeByPath fuel path true none = some x) ∧
        (∃ fuel r, fs.createPath fuel path force ob none = some r) ↔
      (∀ l, fs.names.Meets [] (parts path) l → ¬ Loops fs.names.Resolves l) ∧
        ∀ l, fs.names.First above [] (parts path) l → ¬ Loops (fs.names.Restarts above) l := by
  have hwf := run_wf hrun
  have hfinite := finite_links hwf
  rw [createPath_ends_iff hwf, NameTree.exists_makes_iff hfinite, ← NameTree.exists_finds_iff hfinite]
  refine and_congr_left' ?_
  rw [exists_comm]
  exact exists_congr fun x => getNodeByPath_iff

/-- One link, to a place that is not in the tree. -/
theorem run_walks_end_device :
    (∃ fuel x, (sessionLink "\\Device".toList).getNodeByPath fuel "\\Session\\a".toList true none =
      some x) ∧
    ∃ fuel r, (sessionLink "\\Device".toList).createPath fuel "\\Session\\a".toList true none none =
      some r := by
  refine (run_walks_end_iff (run_sessionLink _) _ true none).2
    ⟨fun l _ => not_loops_sessionLink l, fun l _ h => ?_⟩
  have hparts : parts "\\Device".toList = [.down device] := by decide +kernel
  obtain ⟨m, -, hm⟩ := h
  obtain ⟨k, ⟨path, hpath, hfirst⟩, -⟩ := Relation.TransGen.head'_iff.1 hm
  rw [link_sessionLink] at hpath
  split at hpath
  · obtain rfl := Option.some.inj hpath
    rw [hparts] at hfirst
    cases hfirst with
    | on _ h => cases h
    | here h =>
        rw [link_sessionLink, if_neg (by decide)] at h
        cases h
  · cases hpath

/-- As in `main`: the target of the link lies below the link. -/
theorem sessionLink_endless :
    ∃ fs calls, Run Step (new fun _ => ⟨none, none⟩) calls fs ∧
      ∀ fuel, fs.getNodeByPath fuel "\\Session".toList true none = none := by
  refine ⟨_, _, run_sessionLink "\\Session\\BNOLINKS".toList, fun fuel => ?_⟩
  have hlink := link_sessionLink "\\Session\\BNOLINKS".toList [session]
  rw [if_pos rfl] at hlink
  have hmeets : ∀ ds, NameTree.Meets (sessionLink "\\Session\\BNOLINKS".toList).names []
      (.down session :: ds) [session] := fun ds => .here (by decide) hlink
  have hparts : parts "\\Session\\BNOLINKS".toList = [.down session, .down "bnolinks".toList] := by
    decide +kernel
  have hpath : parts "\\Session".toList = [.down session] := by decide +kernel
  have hloop : Loops (sessionLink "\\Session\\BNOLINKS".toList).names.Resolves [session] :=
    ⟨_, .refl, .single ⟨_, hlink, hparts ▸ hmeets _⟩⟩
  have hnone : ¬ ∃ x, (sessionLink "\\Session\\BNOLINKS".toList).names.Finds []
      (parts "\\Session".toList) x := by
    rw [NameTree.exists_finds_iff (finite_links (run_wf (run_sessionLink _)))]
    exact fun h => h _ (hpath ▸ hmeets []) hloop
  cases hget : getNodeByPath _ fuel "\\Session".toList true none with
  | none => rfl
  | some x => exact absurd ⟨x, getNodeByPath_iff.1 ⟨fuel, hget⟩⟩ hnone

/-! ## Links stand for their targets -/

/-- `p` names, from the root, a node on which a link with the target `target` is mounted; the
links in the middle of `p` are followed. -/
def NamesLink (fs : Kvfs) (p target : List Char) : Prop :=
  ∃ ds d q l, parts p = ds ++ [d] ∧ fs.names.Finds [] ds (some q) ∧ fs.names.next q d = some l ∧
    fs.linkTarget l = some target

theorem finds_namesLink_iff {p target : List Char} (h : fs.NamesLink p target) (r : List Char)
    {x : Option NodePath} : fs.names.Finds [] (parts (p ++ '\\' :: r)) x ↔
      fs.names.Finds [] (parts (target ++ '\\' :: r)) x := by
  obtain ⟨ds, d, q, l, hp, hq, hl, htarget⟩ := h
  have hlink := link_eq_some_iff.2 ⟨target, htarget, rfl⟩
  calc fs.names.Finds [] (parts (p ++ '\\' :: r)) x
      ↔ fs.names.Finds [] (ds ++ d :: parts r) x := by
        rw [parts_append, hp, List.append_assoc, List.singleton_append]
    _ ↔ fs.names.Finds q (d :: parts r) x := by
        rw [NameTree.finds_append_iff]
        constructor
        · intro h
          rcases h with ⟨hnone, -⟩ | ⟨m, hm, hrest⟩
          · cases hnone.unique hq
          · exact Option.some.inj (hm.unique hq) ▸ hrest
        · intro h
          exact .inr ⟨q, hq, h⟩
    _ ↔ fs.names.Finds [] (parts (target ++ '\\' :: r)) x := by
        rw [NameTree.finds_link_iff hl hlink, parts_append]

/-- A path through a link and the path through its target lead to the same node, or nowhere. -/
theorem run_link_transparent (hrun : Run Step (new objects) calls fs)
    (hcycles : ∀ l, ¬ Loops fs.names.Resolves l) {p target : List Char}
    (hp : fs.NamesLink p target) (r : List Char) :
    ∃ x, (∃ fuel, fs.getNodeByPath fuel (p ++ '\\' :: r) true none = some x) ∧
      ∃ fuel, fs.getNodeByPath fuel (target ++ '\\' :: r) true none = some x := by
  have hends : ∃ x, fs.names.Finds [] (parts (p ++ '\\' :: r)) x := by
    rw [NameTree.exists_finds_iff (finite_links (run_wf hrun))]
    exact fun l _ => hcycles l
  obtain ⟨x, hx⟩ := hends
  exact ⟨x, getNodeByPath_iff.2 hx, getNodeByPath_iff.2 ((finds_namesLink_iff hp r).1 hx)⟩

theorem run_link_transparent_session :
    ∃ x, (∃ fuel, (sessionLink "\\Device".toList).getNodeByPath fuel
        ("\\Session".toList ++ '\\' :: "a".toList) true none = some x) ∧
      ∃ fuel, (sessionLink "\\Device".toList).getNodeByPath fuel
        ("\\Device".toList ++ '\\' :: "a".toList) true none = some x := by
  have hpath : parts "\\Session".toList = [.down session] := by decide +kernel
  exact run_link_transparent (run_sessionLink _) not_loops_sessionLink
    ⟨[], .down session, [], [session], hpath, .nil [], by decide, by decide⟩ "a".toList

/-! ## Walks that agree -/

/-- `createPath` and `getNodeByPath` agree on a path exactly when the creating walk does not ask
for the parent of the root and what it drops at links leads, from the node that it ends at, back
to this node. -/
theorem run_walks_agree_iff (hrun : Run Step (new objects) calls fs) {fuel : Nat} {force : Bool}
    (hcreate : fs.createPath fuel path force none none = some (some n, fs')) :
    (∃ fuel, fs'.getNodeByPath fuel path true none = some (some n)) ↔
      ¬ fs.names.Above above [] (parts path) ∧ ∃ m made dropped,
        fs.names.Makes above [] (parts path) m made dropped ∧
          (fs.names.grow made).Finds m dropped (some m) := by
  have hwf := run_wf hrun
  obtain ⟨m, made, dropped, fs₁, hmakes, hgrows, -, hfinish⟩ :=
    makes_of_createPathLoop hwf hwf.root rfl hcreate
  obtain ⟨hn, rfl⟩ := Prod.mk.inj (Option.some.inj hfinish)
  obtain rfl := Option.some.inj hn
  change fs.names.Makes above [] (parts path) m made dropped at hmakes
  have hhas : ∀ p ∈ made, (fs.names.grow made).has p := fun p hp => by
    simp [NameTree.grow, hp]
  have hlink : (fs.names.grow made).link = fs.names.link := rfl
  rw [getNodeByPath_iff, show fs₁.names = fs.names.grow made from hgrows.names]
  by_cases habove : fs.names.Above above [] (parts path)
  · constructor
    · intro h
      cases hmakes.finds_above habove hlink hhas h
    · intro h
      exact absurd habove h.1
  · have hfinds := hmakes.finds_iff habove hlink hhas (x := some m)
    constructor
    · intro h
      exact ⟨habove, m, made, dropped, hmakes, hfinds.1 h⟩
    · intro h
      obtain ⟨-, m', made', dropped', hmakes', hback⟩ := h
      obtain ⟨rfl, rfl, rfl⟩ := hmakes.unique hmakes'
      exact hfinds.2 hback

/-- The last component of the path is a link. -/
theorem run_walks_agree_session : ∃ fs',
    (sessionLink "\\Device".toList).createPath 2 "\\.\\a\\..\\Session".toList true none none =
      some (some [device], fs') ∧
    ∃ fuel, fs'.getNodeByPath fuel "\\.\\a\\..\\Session".toList true none =
      some (some [device]) := by
  have hparts : parts "\\.\\a\\..\\Session".toList =
      [.here, .down ['a'], .up, .down session] := by decide +kernel
  have htarget : parts "\\Device".toList = [.down device] := by decide +kernel
  have hnone : ∀ q ≠ [session], (sessionLink "\\Device".toList).names.link q = none :=
    fun q hq => (link_sessionLink _ q).trans (if_neg hq)
  have hlink : (sessionLink "\\Device".toList).names.link [session] = some [.down device] :=
    (link_sessionLink _ _).trans ((if_pos rfl).trans (congrArg some htarget))
  have hcreate : ∃ fs', (sessionLink "\\Device".toList).createPath 2
      "\\.\\a\\..\\Session".toList true none none = some (some [device], fs') :=
    ⟨_, by with_unfolding_all rfl⟩
  obtain ⟨fs', hcreate⟩ := hcreate
  have hmakes : (sessionLink "\\Device".toList).names.Makes above []
      [.here, .down ['a'], .up, .down session] [device] [[], [['a']], [], [session], [device]]
      [] := by
    have hdevice : (sessionLink "\\Device".toList).names.Makes above [] [.down device] [device]
        [[device]] [] := .on (hnone [device] (by decide)) (.nil _)
    have hsession : (sessionLink "\\Device".toList).names.Makes above [] [.down session] [device]
        [[session], [device]] ([] ++ []) := .again hlink hdevice
    exact .on (hnone [] (by decide)) (.on (hnone [['a']] (by decide)) (.on (hnone [] (by decide))
      hsession))
  have habove : ¬ (sessionLink "\\Device".toList).names.Above above []
      [.here, .down ['a'], .up, .down session] := by
    have hdevice : ¬ (sessionLink "\\Device".toList).names.Above above [] [.down device] :=
      NameTree.not_above_on (hnone [device] (by decide)) nofun nofun
    have hsession : ¬ (sessionLink "\\Device".toList).names.Above above [] [.down session] :=
      NameTree.not_above_again hlink nofun hdevice
    have hup : ¬ (sessionLink "\\Device".toList).names.Above above [['a']] [.up, .down session] :=
      NameTree.not_above_on (hnone [] (by decide)) (fun _ => List.cons_ne_nil _ _) hsession
    have hdown : ¬ (sessionLink "\\Device".toList).names.Above above []
        [.down ['a'], .up, .down session] :=
      NameTree.not_above_on (hnone [['a']] (by decide)) nofun hup
    exact NameTree.not_above_on (hnone [] (by decide)) nofun hdown
  refine ⟨fs', hcreate, (run_walks_agree_iff (run_sessionLink _) hcreate).2 ?_⟩
  rw [hparts]
  exact ⟨habove, _, _, _, hmakes, .nil _⟩

/-- The creating walk drops what follows a link. -/
theorem walks_disagree : ∃ fs fs' calls path n, Run Step (new fun _ => ⟨none, none⟩) calls fs ∧
    (∀ l, ¬ Loops fs.names.Resolves l) ∧
    (∃ fuel, fs.createPath fuel path true none none = some (some n, fs')) ∧
    ∃ fuel, fs'.getNodeByPath fuel path true none = some none := by
  have hcreate : (sessionLink "\\Device".toList).createPath 2 "\\Session\\foo".toList true none none =
      some (some [device],
        ((sessionLink "\\Device".toList).addChild [] (some "Device".toList)).2) := by
    with_unfolding_all rfl
  exact ⟨_, _, _, _, _, run_sessionLink "\\Device".toList, not_loops_sessionLink, ⟨2, hcreate⟩,
    3, by decide +kernel⟩

end Vin64.Kernel.Kvfs
