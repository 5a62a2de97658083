import Vin64.Kernel.Proofs.Labels

/-!
# The full path of a node

The names are put together from the node up to the root, which adds a slash of its own.  The
finder that does not look at links reads them in the other order and comes back to the node.
-/

namespace Vin64.Kernel

open Vin64.Lib Vin64.Vram

/-! ## The components of a full path -/

theorem components_name {dir : List Char} (hne : dir ≠ []) (hslash : '\\' ∉ dir) :
    components dir = [dir] := by
  have hnone : ∀ c ∈ dir, (c == '\\') = false := by
    intro c hc
    have hother : c ≠ '\\' := fun h => hslash (h ▸ hc)
    simpa using hother
  unfold components
  rw [List.splitOnP_eq_singleton hnone]
  simp [hne]

/-- `getFullPath` puts a name before a path that is empty or starts with a slash. -/
def Slashed (rName : List Char) : Prop := rName = [] ∨ ∃ r, rName = '\\' :: r

theorem components_insert {dir rName : List Char} (hne : dir ≠ []) (hslash : '\\' ∉ dir)
    (hname : Slashed rName) :
    components ('\\' :: (dir ++ rName)) = dir :: components rName := by
  rw [components_slash]
  rcases hname with rfl | ⟨r, rfl⟩
  · rw [List.append_nil, components_name hne hslash, components_nil]
  · rw [components_append, components_name hne hslash, components_slash]
    rfl

variable {σ : Type} {f : σ → List Char → Int × σ} {s t : σ} {p r dir : List Char}

/-- `parse` depends on the components only, as long as no call of `onPathPart` ends it. -/
theorem parse_congr (h : components p = components r) (hr : parse f s r = (0, t, [])) :
    parse f s p = (0, t, []) := by
  generalize hdirs : components r = dirs at h
  induction dirs generalizing s p r with
  | nil =>
      rw [parse_nil hdirs] at hr
      rw [parse_nil h, hr]
  | cons dir dirs ih =>
      obtain ⟨rest, hrest, hround⟩ := parse_cons (f := f) (s := s) h
      obtain ⟨rest', hrest', hround'⟩ := parse_cons (f := f) (s := s) hdirs
      rw [hround'] at hr
      rw [hround]
      by_cases hpart : (f s dir).1 < 0
      · rw [if_pos hpart] at hr
        have hzero : (f s dir).1 = 0 := congrArg Prod.fst hr
        omega
      · rw [if_neg hpart] at hr ⊢
        exact ih hr hrest' hrest

/-- A name that `onPathPart` takes is before the rest of the path. -/
theorem parse_insert {u : σ} (hne : dir ≠ []) (hslash : '\\' ∉ dir) (hname : Slashed p)
    (hpart : f s dir = (0, u)) (hp : parse f u p = (0, t, [])) :
    parse f s ('\\' :: (dir ++ p)) = (0, t, []) := by
  obtain ⟨rest, hrest, hround⟩ :=
    parse_cons (f := f) (s := s) (components_insert hne hslash hname)
  rw [hround, hpart]
  exact parse_congr hrest hp

namespace Kvfs

variable {fs fs' : Kvfs} {q : NodePath} {n : Node} {path rName : List Char}

/-! ## The walk up and the walk down -/

/-- The root has no name and no parent. -/
def Rooted (fs : Kvfs) : Prop := ∀ n, fs.nodes [] = some n → n.name = [] ∧ n.parent = none

theorem parentNode_root (hrooted : fs.Rooted) (hn : fs.nodes [] = some n) :
    fs.parentNode [] n = some none := by
  unfold parentNode
  rw [(hrooted n hn).2]

theorem parentNode_cons {a : List Char} (hsound : fs.Sound) (hn : fs.nodes (a :: q) = some n) :
    fs.parentNode (a :: q) n = some (some q) := by
  obtain ⟨m, hm, hparent⟩ := (hsound a q n hn).2
  unfold parentNode
  rw [hparent]
  show (if (fs.nodes q).map Node.id = some m.id then some (some q) else none) = some (some q)
  rw [if_pos (by rw [hm]; rfl)]

/-- A finder that does not look at links goes down to a child. -/
theorem findPart_child {a : List Char} (hsound : fs.Sound) (hkeyed : fs.Keyed)
    (hn : fs.nodes (a :: q) = some n) : fs.findPart false q n.name = (0, a :: q) := by
  obtain ⟨-, -, hdot, hup⟩ := (hsound a q n hn).1
  have hchild : fs.getNode q n.name = some (a :: q) := by
    unfold getNode
    rw [hkeyed a q n hn, hn]
    rfl
  unfold findPart
  rw [if_neg hdot, if_neg hup, hchild]
  rfl

/-- From the root the finder reads what was put before `rName` and is at `q` then. -/
theorem getFullPathLoop_spec (hwf : fs.WellFormed) (hsound : fs.Sound) (hkeyed : fs.Keyed)
    (hrooted : fs.Rooted) (hq : (fs.nodes q).isSome) (hname : Slashed rName) :
    ∃ path, fs.getFullPathLoop (q.length + 2) (some q) rName = some path ∧ path ≠ [] ∧
      ∀ x, parse (fs.findPart false) q rName = (0, x, []) →
        parse (fs.findPart false) [] path = (0, x, []) := by
  induction q generalizing rName with
  | nil =>
      obtain ⟨n, hn⟩ := Option.isSome_iff_exists.1 hq
      refine ⟨'\\' :: rName, ?_, by simp, fun x hx => ?_⟩
      · show fs.getFullPathLoop 2 (some []) rName = some ('\\' :: rName)
        simp only [getFullPathLoop, hn, parentNode_root hrooted hn, (hrooted n hn).1,
          List.nil_append]
      · exact parse_congr (components_slash rName) hx
  | cons a q ih =>
      obtain ⟨n, hn⟩ := Option.isSome_iff_exists.1 hq
      obtain ⟨hne, hslash, -⟩ := (hsound a q n hn).1
      obtain ⟨path, hpath, hnil, hwalk⟩ :=
        ih (hwf.parent a q hq) (.inr ⟨n.name ++ rName, rfl⟩)
      refine ⟨path, ?_, hnil, fun x hx => hwalk x ?_⟩
      · rw [List.length_cons, getFullPathLoop]
        simp only [hn, parentNode_cons hsound hn]
        exact hpath
      · exact parse_insert hne hslash hname (findPart_child hsound hkeyed hn) hx

/-- The full path leads back to the node. -/
theorem getNodeByPath_getFullPath (hwf : fs.WellFormed) (hsound : fs.Sound) (hkeyed : fs.Keyed)
    (hrooted : fs.Rooted) (hq : (fs.nodes q).isSome) :
    ∃ path, fs.getFullPath (q.length + 2) q [] = some path ∧
      fs.getNodeByPath 2 path false none = some (some q) := by
  obtain ⟨path, hpath, hnil, hwalk⟩ :=
    getFullPathLoop_spec hwf hsound hkeyed hrooted hq (.inl rfl)
  have hparse : parse (fs.findPart false) [] path = (0, q, []) :=
    hwalk q (parse_nil components_nil)
  refine ⟨path, hpath, ?_⟩
  show fs.getNodeByPathLoop 2 false [] path = some (some q)
  rw [getNodeByPathLoop, if_neg hnil, hparse]
  rfl

/-! ## Runs -/

/-- `createPath` builds the tree, by walks that never ask for the parent of the root; objects may
be mounted and unmounted between its calls. -/
def Builds (fs : Kvfs) : VfsCall → Prop
  | .mount _ _ => True
  | .unmount _ => True
  | call => CreatesPaths call ∧ fs.StaysBelow call

/-- What every call that builds the tree keeps. -/
structure Built (fs : Kvfs) : Prop where
  wf : fs.WellFormed
  labelled : fs.AllLabelled
  below : fs.nodes [above] = none
  rooted : fs.Rooted

theorem rooted_visit (hrooted : fs.Rooted) (hq : (fs.nodes q).isSome) (dir : List Char) :
    (fs.visit q dir).Rooted := by
  rcases visit_cases hq dir with hsame | ⟨m, -, -, -, hnodes⟩
  · rwa [hsame]
  · intro n hn
    rw [hnodes, if_neg (List.cons_ne_nil _ _).symm] at hn
    exact hrooted n hn

theorem rooted_setMount {p : NodePath} (hrooted : fs.Rooted) (hn : fs.nodes p = some n)
    (m : Option Nat) : (fs.setNode p { n with mount := m }).Rooted := by
  intro k hk
  rw [nodes_setNode] at hk
  split at hk
  · rename_i hp
    obtain rfl := Option.some.inj hk
    exact hrooted n (hp ▸ hn)
  · exact hrooted k hk

theorem rooted_mount {p : NodePath} {ob : Option Nat} {r : Except HRESULT Kvfs}
    (hrooted : fs.Rooted) (hmount : fs.mount p ob = some r) : (fs.after r).Rooted := by
  rcases mount_cases hmount with ⟨e, rfl⟩ | ⟨n, o, hn, -, -, rfl⟩
  · exact hrooted
  · exact rooted_setMount hrooted hn (some o)

theorem none_setMount {p : NodePath} (hn : fs.nodes p = some n) (m : Option Nat)
    (hq : fs.nodes q = none) : (fs.setNode p { n with mount := m }).nodes q = none := by
  rw [nodes_setNode, if_neg]
  · exact hq
  · intro hp
    rw [hp, hn] at hq
    cases hq

theorem Built.setMount {p : NodePath} (h : fs.Built) (hn : fs.nodes p = some n)
    (m : Option Nat) : (fs.setNode p { n with mount := m }).Built :=
  ⟨h.wf.setNode hn m, setMount_labelled h.labelled hn m, none_setMount hn m h.below,
    rooted_setMount h.rooted hn m⟩

theorem Built.of_nodes (h : fs.Built) (hnodes : fs'.nodes = fs.nodes) (hnext : fs'.next = fs.next) :
    fs'.Built where
  wf := h.wf.of_nodes hnodes hnext
  labelled := h.labelled.of_nodes hnodes
  below := hnodes ▸ h.below
  rooted := by
    intro n hn
    exact h.rooted n (hnodes ▸ hn)

theorem step_built {call : VfsCall} (h : fs.Built) (hcall : fs.Builds call)
    (hstep : Step fs call fs') : fs'.Built := by
  cases hstep with
  | create target hlive => exact h.of_nodes rfl rfl
  | hold hlive => exact h.of_nodes rfl rfl
  | release => exact h.of_nodes rfl rfl
  | mount _ hmount =>
      rcases mount_cases hmount with ⟨e, rfl⟩ | ⟨n, o, hn, -, -, rfl⟩
      · exact h
      · exact (h.setMount hn (some o)).of_nodes rfl rfl
  | unmount hunmount =>
      rcases unmount_cases hunmount with ⟨e, rfl⟩ | ⟨n, o, hn, -, rfl⟩
      · exact h
      · exact (h.of_nodes rfl rfl : (fs.bindNode o none).Built).setMount hn none
  | createPath hob hroot hcreate =>
      have hstep := Step.createPath hob hroot hcreate
      obtain ⟨hlabelled, habove⟩ := step_labelled h.wf hcall.1 h.labelled hstep
      refine ⟨step_wf h.wf hstep, hlabelled, habove.2 ⟨h.below, hcall.2⟩, ?_⟩
      exact createPathLoop_keeps (P := Rooted) (fun _ _ dir hq _ _ hrooted =>
        rooted_visit hrooted hq dir) (fun _ _ _ _ hrooted hm => rooted_mount hrooted hm)
        h.wf hroot rfl hcreate h.rooted
  | addChild => exact hcall.1.elim
  | eraseChild => exact hcall.1.elim

theorem new_rooted (objects : Nat → KoMountable) : (new objects).Rooted := by
  intro n hn
  obtain rfl := Option.some.inj hn
  exact ⟨rfl, rfl⟩

theorem run_built {objects : Nat → KoMountable} {calls : List VfsCall}
    (hrun : Run (When Builds Step) (new objects) calls fs) :
    fs.Built := by
  refine hrun.invariant ⟨wf_new objects, (new_sound objects).labelled (new_keyed objects),
    nodes_new_cons objects above [], new_rooted objects⟩ ?_
  intro s c t hs hstep
  exact step_built hs hstep.1 hstep.2

/-- In every tree built by paths that never ask for the parent of the root, `getFullPath` ends, and
the lookup of its result ends at the node. -/
theorem run_getFullPath {objects : Nat → KoMountable} {calls : List VfsCall}
    (hrun : Run (When Builds Step) (new objects) calls fs)
    (hq : (fs.nodes q).isSome) :
    ∃ path, fs.getFullPath (q.length + 2) q [] = some path ∧
      fs.getNodeByPath 2 path false none = some (some q) := by
  have hbuilt := run_built hrun
  have hsound := (sound_iff hbuilt.labelled).2 hbuilt.below
  have hkeyed : fs.Keyed := fun a q n hn => (hbuilt.labelled a q n hn).keyed
  exact getNodeByPath_getFullPath hbuilt.wf hsound hkeyed hbuilt.rooted hq

/-- A link to itself, looked up by its full path. -/
theorem run_getFullPath_link : ∃ path,
    (sessionLink "\\Session".toList).getFullPath 3 [session] [] = some path ∧
      (sessionLink "\\Session".toList).getNodeByPath 2 path false none = some (some [session]) := by
  have hparts : parts "\\Session".toList = [.down session] := by decide +kernel
  have hbelow : ¬ (newLink "\\Session".toList).names.Above above [] (parts "\\Session".toList) := by
    rw [hparts]
    intro h
    cases h with
    | on _ h => cases h
    | again h => cases h
  have hcreate : When Builds Step (new fun _ => ⟨none, none⟩)
      (.create 1 (some "\\Session".toList)) (newLink "\\Session".toList) :=
    ⟨⟨trivial, trivial⟩, step_newLink _⟩
  have hmount : When Builds Step (newLink "\\Session".toList)
      (.createPath "\\Session".toList true (some 1) none) (sessionLink "\\Session".toList) :=
    ⟨⟨trivial, hbelow⟩, step_sessionLink _⟩
  have hq : ((sessionLink "\\Session".toList).nodes [session]).isSome := rfl
  exact run_getFullPath ((Run.nil.snoc hcreate).snoc hmount) hq

end Kvfs

end Vin64.Kernel
