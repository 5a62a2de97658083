import Vin64.Kernel.Proofs.Creation

/-!
# Which calls keep the objects bound to their nodes
-/

namespace Vin64.Kernel.Kvfs

open Vin64.Lib Vin64.Vram

variable {fs fs' : Kvfs} {p q : NodePath} {n : Node} {ob o : Nat} {made : List NodePath}

/-! ## What each call does -/

theorem mount_cases {ob : Option Nat} {r : Except HRESULT Kvfs} (h : fs.mount p ob = some r) :
    (∃ e, r = .error e) ∨ ∃ n o, fs.nodes p = some n ∧ n.mount = none ∧ ob = some o ∧
      r = .ok ((fs.setNode p { n with mount := some o }).bindNode o n.id) := by
  unfold mount at h
  cases hn : fs.nodes p with
  | none => simp [hn] at h
  | some n =>
      simp only [hn] at h
      cases ob with
      | none => exact .inl ⟨_, (Option.some.inj h).symm⟩
      | some o =>
          cases hmount : n.mount with
          | some o' =>
              simp only [hmount] at h
              exact .inl ⟨_, (Option.some.inj h).symm⟩
          | none =>
              simp only [hmount] at h
              exact .inr ⟨n, o, rfl, hmount, rfl, (Option.some.inj h).symm⟩

theorem unmount_cases {r : Except HRESULT Kvfs} (h : fs.unmount p = some r) :
    (∃ e, r = .error e) ∨ ∃ n o, fs.nodes p = some n ∧ n.mount = some o ∧
      r = .ok ((fs.bindNode o none).setNode p { n with mount := none }) := by
  unfold unmount at h
  cases hn : fs.nodes p with
  | none => simp [hn] at h
  | some n =>
      cases hmount : n.mount with
      | none =>
          simp only [hn, hmount] at h
          exact .inl ⟨_, (Option.some.inj h).symm⟩
      | some o =>
          simp only [hn, hmount] at h
          exact .inr ⟨n, o, rfl, hmount, (Option.some.inj h).symm⟩

theorem eraseChild_cases {name : Option (List Char)} {pp : Bool} {r : Except HRESULT Kvfs}
    (h : fs.eraseChild p name pp = some r) : (∃ e, r = .error e) ∨
      ∃ dir child, name = some dir ∧ fs.nodes (fold dir :: p) = some child ∧
        ((pp = true ∧ ∃ o, child.mount = some o ∧
          r = .ok (((fs.bindNode o none).hold o true).erase (fold dir :: p))) ∨
        (pp = false ∧ ∃ r', fs.unmount p = some r' ∧
          r = .ok ((fs.after r').erase (fold dir :: p)))) := by
  unfold eraseChild at h
  cases name with
  | none => exact .inl ⟨_, (Option.some.inj h).symm⟩
  | some dir =>
      cases hchild : fs.nodes (fold dir :: p) with
      | none =>
          simp only [hchild] at h
          exact .inl ⟨_, (Option.some.inj h).symm⟩
      | some child =>
          refine .inr ⟨dir, child, rfl, hchild, ?_⟩
          cases pp with
          | true =>
              cases hmount : child.mount with
              | none => simp [hchild, hmount] at h
              | some o =>
                  simp only [hchild, hmount, if_true] at h
                  exact .inl ⟨rfl, o, rfl, (Option.some.inj h).symm⟩
          | false =>
              cases hparent : fs.unmount p with
              | none => simp [hchild, hparent] at h
              | some r' =>
                  refine .inr ⟨rfl, r', rfl, ?_⟩
                  cases r' <;> simp [hchild, hparent] at h <;> exact h.symm

/-- The end of `createPath` is a call of `mount`, or nothing. -/
theorem finish_cases {n : NodePath} {ob : Option Nat} {r : Option NodePath × Kvfs}
    (h : finish fs n ob = some r) : (ob = none ∧ r = (some n, fs)) ∨
      ∃ o res, ob = some o ∧ fs.mount n (some o) = some res ∧ r.2 = fs.after res := by
  unfold finish at h
  cases ob with
  | none => exact .inl ⟨rfl, (Option.some.inj h).symm⟩
  | some o =>
      cases hmount : fs.mount n (some o) with
      | none => simp [hmount] at h
      | some res =>
          refine .inr ⟨o, res, rfl, hmount, ?_⟩
          cases res with
          | error e =>
              simp only [hmount] at h
              rw [← Option.some.inj h]
              rfl
          | ok fs' =>
              simp only [hmount] at h
              rw [← Option.some.inj h]
              rfl

/-! ## Trees stay trees -/

theorem nodes_setNode (fs : Kvfs) (p : NodePath) (n : Node) (q : NodePath) :
    (fs.setNode p n).nodes q = if q = p then some n else fs.nodes q := Function.update_apply ..

theorem WellFormed.of_nodes (h : fs.WellFormed) (hnodes : fs'.nodes = fs.nodes)
    (hnext : fs'.next = fs.next) : fs'.WellFormed where
  root := hnodes ▸ h.root
  parent := hnodes ▸ h.parent
  fresh := hnodes ▸ hnext ▸ h.fresh
  distinct := hnodes ▸ h.distinct

/-- A change of what is mounted on a node. -/
theorem WellFormed.setNode (h : fs.WellFormed) (hn : fs.nodes p = some n) (m : Option Nat) :
    (fs.setNode p { n with mount := m }).WellFormed := by
  have hsome : ∀ q, ((fs.setNode p { n with mount := m }).nodes q).isSome = (fs.nodes q).isSome := by
    intro q
    rw [nodes_setNode]
    split
    · rename_i hq
      rw [hq, hn]
      rfl
    · rfl
  have hid : ∀ q k, (fs.setNode p { n with mount := m }).nodes q = some k →
      ∃ k', fs.nodes q = some k' ∧ k'.id = k.id := by
    intro q k hk
    rw [nodes_setNode] at hk
    split at hk
    · rename_i hq
      exact ⟨n, hq ▸ hn, by rw [← Option.some.inj hk]⟩
    · exact ⟨k, hk, rfl⟩
  refine ⟨?_, fun a q hq => ?_, fun q k hk => ?_, fun q r k k' hk hk' heq => ?_⟩
  · rw [hsome]
    exact h.root
  · rw [hsome] at hq ⊢
    exact h.parent a q hq
  · obtain ⟨k', hk', hkid⟩ := hid q k hk
    exact hkid ▸ h.fresh q k' hk'
  · obtain ⟨i, hi, hiid⟩ := hid q k hk
    obtain ⟨j, hj, hjid⟩ := hid r k' hk'
    exact h.distinct q r i j hi hj (hiid.trans (heq.trans hjid.symm))

theorem nodes_erase (fs : Kvfs) (child q : NodePath) :
    (fs.erase child).nodes q = if child <:+ q then none else fs.nodes q := rfl

theorem nodes_of_erase {child : NodePath} (hq : (fs.erase child).nodes q = some n) :
    fs.nodes q = some n ∧ ¬ child <:+ q := by
  rw [nodes_erase] at hq
  split at hq
  · cases hq
  · exact ⟨hq, by assumption⟩

theorem WellFormed.erase (h : fs.WellFormed) (a : List Char) (p : NodePath) :
    (fs.erase (a :: p)).WellFormed := by
  refine ⟨?_, fun b q hq => ?_, fun q k hk => h.fresh q k (nodes_of_erase hk).1,
    fun q r k k' hk hk' => h.distinct q r k k' (nodes_of_erase hk).1 (nodes_of_erase hk').1⟩
  · rw [nodes_erase, if_neg (by simp)]
    exact h.root
  · obtain ⟨k, hk⟩ := Option.isSome_iff_exists.1 hq
    obtain ⟨hold, hout⟩ := nodes_of_erase hk
    rw [nodes_erase, if_neg fun hsuffix => hout (hsuffix.trans (List.suffix_cons b q))]
    exact h.parent b q (Option.isSome_iff_exists.2 ⟨k, hold⟩)

theorem wf_new (objects : Nat → KoMountable) : (new objects).WellFormed := by
  have hnodes : ∀ q k, (new objects).nodes q = some k → q = [] ∧ k = ⟨0, [], none, none⟩ := by
    intro q k hk
    change (if q = [] then some _ else none) = some k at hk
    split at hk
    · exact ⟨by assumption, (Option.some.inj hk).symm⟩
    · cases hk
  refine ⟨rfl, fun a q hq => ?_, fun q k hk => ?_, fun q r k k' hk hk' _ => ?_⟩
  · obtain ⟨k, hk⟩ := Option.isSome_iff_exists.1 hq
    cases (hnodes _ _ hk).1
  · rw [(hnodes q k hk).2]
    exact Nat.zero_lt_one
  · rw [(hnodes q k hk).1, (hnodes r k' hk').1]

theorem WellFormed.after_mount {ob : Option Nat} {r : Except HRESULT Kvfs} (h : fs.WellFormed)
    (hmount : fs.mount p ob = some r) : (fs.after r).WellFormed := by
  rcases mount_cases hmount with ⟨e, rfl⟩ | ⟨n, o, hn, -, -, rfl⟩
  · exact h
  · exact (h.setNode hn (some o)).of_nodes rfl rfl

theorem WellFormed.after_unmount {r : Except HRESULT Kvfs} (h : fs.WellFormed)
    (hunmount : fs.unmount p = some r) : (fs.after r).WellFormed := by
  rcases unmount_cases hunmount with ⟨e, rfl⟩ | ⟨n, o, hn, -, rfl⟩
  · exact h
  · exact (h.of_nodes rfl rfl : (fs.bindNode o none).WellFormed).setNode hn none

theorem step_wf {call : VfsCall} (h : fs.WellFormed) (hstep : Step fs call fs') :
    fs'.WellFormed := by
  cases hstep with
  | create target hlive => exact h.of_nodes rfl rfl
  | hold hlive => exact h.of_nodes rfl rfl
  | release => exact h.of_nodes rfl rfl
  | mount _ hmount => exact h.after_mount hmount
  | unmount hunmount => exact h.after_unmount hunmount
  | @addChild p name hp =>
      cases name with
      | none => exact h
      | some dir =>
          obtain ⟨fs', hadd, hgrows⟩ := grows_addChild h hp dir
          rw [hadd]
          exact hgrows.wf
  | eraseChild _ herase =>
      rcases eraseChild_cases herase with
        ⟨e, rfl⟩ | ⟨dir, child, -, -, ⟨-, o, -, rfl⟩ | ⟨-, r', hunmount, rfl⟩⟩
      · exact h
      · exact (h.of_nodes rfl rfl : ((fs.bindNode o none).hold o true).WellFormed).erase _ _
      · exact (h.after_unmount hunmount).erase _ _
  | createPath _ hroot hcreate =>
      obtain ⟨n, made, dropped, fs₁, -, hgrows, -, hfinish⟩ :=
        makes_of_createPathLoop h hroot rfl hcreate
      rcases finish_cases hfinish with ⟨-, hr⟩ | ⟨o, res, -, hmount, hr⟩
      · exact (Prod.mk.inj hr).2 ▸ hgrows.wf
      · have hafter : fs' = fs₁.after res := hr
        rw [hafter]
        exact hgrows.wf.after_mount hmount

theorem run_wf {objects : Nat → KoMountable} {calls : List VfsCall}
    (hrun : Run Step (new objects) calls fs) : fs.WellFormed :=
  hrun.invariant (wf_new objects) fun _ _ _ => step_wf

/-! ## Objects stay bound -/

/-- The object is mounted on the node `i`, which is at `p`. -/
def MountedAs (fs : Kvfs) (p : NodePath) (i ob : Nat) : Prop :=
  ∃ n, fs.nodes p = some n ∧ n.id = i ∧ n.mount = some ob

theorem boundAt_iff : fs.BoundAt ob ↔
    ∀ i, (fs.objects ob).node = some i ↔ ∃ p, fs.MountedAs p i ob := Iff.rfl

theorem MountedAs.mounted {i : Nat} (h : fs.MountedAs p i ob) : fs.Mounted p ob := by
  obtain ⟨n, hn, -, hmount⟩ := h
  exact ⟨n, hn, hmount⟩

theorem Mounted.live (h : fs.Mounted p ob) : fs.Live ob := by
  obtain ⟨n, hn, hmount⟩ := h
  exact .inr ⟨p, n, hn, hmount⟩

/-- A bound object is mounted on one node only. -/
theorem Bound.unique (h : fs.Bound) (hwf : fs.WellFormed) (hp : fs.Mounted p ob)
    (hq : fs.Mounted q ob) : p = q := by
  have hbound := h ob hp.live
  obtain ⟨n, hn, hnm⟩ := hp
  obtain ⟨m, hm, hmm⟩ := hq
  have hnode := (hbound n.id).2 ⟨p, n, hn, rfl, hnm⟩
  rw [(hbound m.id).2 ⟨q, m, hm, rfl, hmm⟩] at hnode
  exact hwf.distinct p q n m hn hm (Option.some.inj hnode).symm

theorem objects_bindNode (fs : Kvfs) (o : Nat) (node : Option Nat) (ob : Nat) :
    ((fs.bindNode o node).objects ob).node = if ob = o then node else (fs.objects ob).node := by
  unfold bindNode
  dsimp only
  rw [Function.update_apply]
  split <;> rfl

theorem mountedAs_setNode (fs : Kvfs) (p : NodePath) (n : Node) (m : Option Nat) {q : NodePath}
    {i : Nat} : (fs.setNode p { n with mount := m }).MountedAs q i ob ↔
      if q = p then n.id = i ∧ m = some ob else fs.MountedAs q i ob := by
  unfold MountedAs
  rw [nodes_setNode]
  split
  · constructor
    · intro h
      obtain ⟨k, hk, hid, hm⟩ := h
      obtain rfl := Option.some.inj hk
      exact ⟨hid, hm⟩
    · intro h
      exact ⟨_, rfl, h.1, h.2⟩
  · rfl

/-- A change of one mount has no part in the other objects. -/
theorem mountedAs_setNode_of_ne (hn : fs.nodes p = some n) {m : Option Nat}
    (hold : n.mount ≠ some ob) (hnew : m ≠ some ob) {q : NodePath} {i : Nat} :
    (fs.setNode p { n with mount := m }).MountedAs q i ob ↔ fs.MountedAs q i ob := by
  rw [mountedAs_setNode]
  split
  · rename_i hq
    constructor
    · intro h
      exact absurd h.2 hnew
    · intro h
      obtain ⟨k, hk, -, hm⟩ := h
      rw [hq, hn] at hk
      exact absurd (Option.some.inj hk ▸ hm) hold
  · rfl

/-- An object that a call has no part in. -/
theorem Bound.other (h : fs.Bound) (hheld : fs'.held ob = true → fs.held ob = true)
    (hobject : (fs'.objects ob).node = (fs.objects ob).node)
    (hmounted : ∀ p i, fs'.MountedAs p i ob ↔ fs.MountedAs p i ob) (hlive : fs'.Live ob) :
    fs'.BoundAt ob := by
  have hold : fs.Live ob := by
    rcases hlive with hlive | ⟨q, k, hk, hm⟩
    · exact .inl (hheld hlive)
    · exact ((hmounted q k.id).1 ⟨k, hk, rfl, hm⟩).mounted.live
  have hbound := h ob hold
  rw [boundAt_iff] at hbound ⊢
  intro i
  rw [hobject, hbound i]
  exact exists_congr fun p => (hmounted p i).symm

theorem Bound.mount (h : fs.Bound) (hn : fs.nodes p = some n) (hnone : n.mount = none)
    (hfree : ∀ q, ¬ fs.Mounted q o) :
    Bound ((fs.setNode p { n with mount := some o }).bindNode o n.id) := by
  have hobjects := objects_bindNode (fs.setNode p { n with mount := some o }) o n.id
  intro ob hlive
  by_cases hob : ob = o
  · subst hob
    rw [boundAt_iff]
    intro i
    rw [hobjects, if_pos rfl]
    constructor
    · intro hid
      refine ⟨p, (mountedAs_setNode fs p n _).2 ?_⟩
      rw [if_pos rfl]
      exact ⟨Option.some.inj hid, rfl⟩
    · intro hq
      obtain ⟨q, hq⟩ := hq
      have hcases := (mountedAs_setNode fs p n (some ob)).1 hq
      split at hcases
      · rw [hcases.1]
      · exact absurd hcases.mounted (hfree q)
  · refine h.other (fun hheld => hheld) ((hobjects ob).trans (if_neg hob)) (fun q i => ?_) hlive
    exact mountedAs_setNode_of_ne hn (by simp [hnone]) fun heq => hob (Option.some.inj heq).symm

/-- Without its node an object is bound to none. -/
theorem Bound.unmount (h : fs.Bound) (hwf : fs.WellFormed) (hn : fs.nodes p = some n)
    (hmount : n.mount = some o) :
    Bound ((fs.bindNode o none).setNode p { n with mount := none }) ∧
      BoundAt ((fs.bindNode o none).setNode p { n with mount := none }) o := by
  have hobjects := objects_bindNode fs o none
  have hat : BoundAt ((fs.bindNode o none).setNode p { n with mount := none }) o := by
    rw [boundAt_iff]
    intro i
    constructor
    · intro hid
      have hnode := hid.symm.trans ((hobjects o).trans (if_pos rfl))
      cases hnode
    · intro hq
      obtain ⟨q, hq⟩ := hq
      have hcases := (mountedAs_setNode _ p n none).1 hq
      split at hcases
      · cases hcases.2
      · rename_i hne
        exact absurd (h.unique hwf (MountedAs.mounted hcases) ⟨n, hn, hmount⟩) hne
  refine ⟨fun ob hlive => ?_, hat⟩
  by_cases hob : ob = o
  · exact hob ▸ hat
  · refine h.other (fun hheld => hheld) ((hobjects ob).trans (if_neg hob)) (fun q i => ?_) hlive
    have hne : n.mount ≠ some ob := by
      rw [hmount]
      exact fun heq => hob (Option.some.inj heq).symm
    have hnode : (fs.bindNode o none).nodes p = some n := hn
    exact mountedAs_setNode_of_ne hnode hne (by simp)

/-- The erased nodes have no object that is held. -/
theorem Bound.erase (h : fs.Bound) (hwf : fs.WellFormed) (child : NodePath)
    (hfree : ∀ q ob, child <:+ q → fs.Mounted q ob → fs.held ob = false) :
    (fs.erase child).Bound := by
  have hmounted : ∀ q i ob, (fs.erase child).MountedAs q i ob ↔
      fs.MountedAs q i ob ∧ ¬ child <:+ q := by
    intro q i ob
    constructor
    · intro hq
      obtain ⟨k, hk, hrest⟩ := hq
      obtain ⟨hold, hout⟩ := nodes_of_erase hk
      exact ⟨⟨k, hold, hrest⟩, hout⟩
    · intro hq
      obtain ⟨⟨k, hk, hrest⟩, hout⟩ := hq
      exact ⟨k, by rw [nodes_erase, if_neg hout]; exact hk, hrest⟩
  intro ob hlive
  have hkept : ∃ r, ¬ child <:+ r ∧ fs.Mounted r ob ∨ fs.held ob = true := by
    rcases hlive with hheld | ⟨r, k, hk, hm⟩
    · exact ⟨[], .inr hheld⟩
    · exact ⟨r, .inl ⟨(nodes_of_erase hk).2, k, (nodes_of_erase hk).1, hm⟩⟩
  have hold : fs.Live ob := by
    rcases hkept with ⟨r, ⟨-, hr⟩ | hheld⟩
    · exact hr.live
    · exact .inl hheld
  -- an object that stays live was not mounted on an erased node
  have hout : ∀ q, fs.Mounted q ob → ¬ child <:+ q := by
    intro q hq hin
    rcases hkept with ⟨r, ⟨hr, hmount⟩ | hheld⟩
    · exact hr (h.unique hwf hq hmount ▸ hin)
    · rw [hfree q ob hin hq] at hheld
      cases hheld
  refine h.other (fun hheld => hheld) rfl (fun q i => ?_) hlive
  rw [hmounted]
  exact and_iff_left_of_imp fun hq => hout q hq.mounted

theorem Bound.hold (h : fs.Bound) (ho : fs.BoundAt o) : (fs.hold o true).Bound := by
  intro ob hlive
  by_cases hob : ob = o
  · exact hob ▸ ho
  · refine h.other (fun hheld => ?_) rfl (fun _ _ => .rfl) hlive
    have hupdate : Function.update fs.held o true ob = true := hheld
    rwa [Function.update_of_ne hob] at hupdate

theorem Bound.after_mount {ob : Option Nat} {r : Except HRESULT Kvfs} (h : fs.Bound)
    (hmount : fs.mount p ob = some r)
    (hfree : ∀ o, ob = some o → fs.Vacant p → ∀ q, ¬ fs.Mounted q o) : (fs.after r).Bound := by
  rcases mount_cases hmount with ⟨e, rfl⟩ | ⟨n, o, hn, hnone, rfl, rfl⟩
  · exact h
  · refine h.mount hn hnone (hfree o rfl fun ob hmounted => ?_)
    obtain ⟨k, hk, hm⟩ := hmounted
    rw [hn] at hk
    rw [← Option.some.inj hk, hnone] at hm
    cases hm

theorem Bound.after_unmount {r : Except HRESULT Kvfs} (h : fs.Bound) (hwf : fs.WellFormed)
    (hunmount : fs.unmount p = some r) : (fs.after r).Bound := by
  rcases unmount_cases hunmount with ⟨e, rfl⟩ | ⟨n, o, hn, hmount, rfl⟩
  · exact h
  · exact (h.unmount hwf hn hmount).1

theorem Bound.create (h : fs.Bound) (target : Option (List Char)) (hlive : ¬ fs.Live o) :
    Bound { fs with
      objects := Function.update fs.objects o ⟨target, none⟩
      held := Function.update fs.held o true } := by
  intro ob hob
  by_cases heq : ob = o
  · subst heq
    rw [boundAt_iff]
    intro i
    constructor
    · intro hid
      change (Function.update fs.objects ob ⟨target, none⟩ ob).node = some i at hid
      rw [Function.update_self] at hid
      cases hid
    · intro hq
      obtain ⟨q, k, hk, -, hm⟩ := hq
      exact absurd (.inr ⟨q, k, hk, hm⟩) hlive
  · refine h.other (fun hheld => ?_) ?_ (fun _ _ => .rfl) hob
    · have hupdate : Function.update fs.held o true ob = true := hheld
      rwa [Function.update_of_ne heq] at hupdate
    · dsimp only
      rw [Function.update_of_ne heq]

theorem Grows.mountedAs (h : fs.Grows made fs') (p : NodePath) (i ob : Nat) :
    fs'.MountedAs p i ob ↔ fs.MountedAs p i ob := by
  constructor
  · intro hp
    obtain ⟨k, hk, hid, hm⟩ := hp
    rcases h.adds p k hk with hold | hnone
    · exact ⟨k, hold, hid, hm⟩
    · rw [hnone] at hm
      cases hm
  · intro hp
    obtain ⟨k, hk, hrest⟩ := hp
    exact ⟨k, h.keeps p k hk, hrest⟩

theorem Grows.mounted (h : fs.Grows made fs') (p : NodePath) (ob : Nat) :
    fs'.Mounted p ob ↔ fs.Mounted p ob := by
  constructor
  · intro hp
    obtain ⟨k, hk, hm⟩ := hp
    exact ((h.mountedAs p k.id ob).1 ⟨k, hk, rfl, hm⟩).mounted
  · intro hp
    obtain ⟨k, hk, hm⟩ := hp
    exact ⟨k, h.keeps p k hk, hm⟩

theorem Bound.grows (h : fs.Bound) (hgrows : fs.Grows made fs') : fs'.Bound := fun _ =>
  h.other (fun hheld => hgrows.held ▸ hheld) (by rw [hgrows.objects])
    fun p i => hgrows.mountedAs p i _

theorem mounted_after_unmount {r : Except HRESULT Kvfs} (hunmount : fs.unmount p = some r)
    (hq : (fs.after r).Mounted q ob) : fs.Mounted q ob ∧ (fs.after r).held = fs.held := by
  rcases unmount_cases hunmount with ⟨e, rfl⟩ | ⟨n, o, hn, hmount, rfl⟩
  · exact ⟨hq, rfl⟩
  · obtain ⟨k, hk, hm⟩ := hq
    have hcases := (mountedAs_setNode _ p n none).1 ⟨k, hk, rfl, hm⟩
    split at hcases
    · cases hcases.2
    · exact ⟨MountedAs.mounted hcases, rfl⟩

theorem erase_setNode (fs : Kvfs) (p : NodePath) (n : Node) :
    (fs.setNode p n).erase p = fs.erase p := by
  have hnodes : ((fs.setNode p n).erase p).nodes = (fs.erase p).nodes := by
    funext q
    rw [nodes_erase, nodes_erase, nodes_setNode]
    by_cases hq : q = p
    · rw [hq, if_pos (List.suffix_refl p), if_pos (List.suffix_refl p)]
    · rw [if_neg hq]
  show Kvfs.mk _ _ _ _ = Kvfs.mk _ _ _ _
  exact congrArg (fun nodes => Kvfs.mk nodes fs.objects fs.held fs.next) hnodes

/-- The caller takes the object of the erased child. -/
theorem Bound.eraseTaken (h : fs.Bound) (hwf : fs.WellFormed) {child : NodePath}
    (hn : fs.nodes child = some n) (hmount : n.mount = some o)
    (hfree : ∀ q ob, child <:+ q → fs.Mounted q ob → fs.held ob = true → q = child) :
    Bound (((fs.bindNode o none).hold o true).erase child) := by
  have hunmounted := h.unmount hwf hn hmount
  have hwf' : ((fs.bindNode o none).setNode child { n with mount := none }).WellFormed :=
    (hwf.of_nodes rfl rfl : (fs.bindNode o none).WellFormed).setNode hn none
  have hheld := hunmounted.1.hold hunmounted.2
  have herased := hheld.erase (hwf'.of_nodes rfl rfl) child fun q ob hin hq => by
    obtain ⟨k, hk, hm⟩ := hq
    have hcases := (mountedAs_setNode (fs.bindNode o none) child n none).1 ⟨k, hk, rfl, hm⟩
    split at hcases
    · cases hcases.2
    · rename_i hne
      have hold : fs.Mounted q ob := MountedAs.mounted hcases
      have hob : ob ≠ o := fun heq =>
        hne (h.unique hwf (heq ▸ hold) ⟨n, hn, hmount⟩)
      show Function.update fs.held o true ob = false
      rw [Function.update_of_ne hob]
      exact Bool.eq_false_iff.2 fun hheld => hne (hfree q ob hin hold hheld)
  have hsame := erase_setNode ((fs.bindNode o none).hold o true) child { n with mount := none }
  exact hsame ▸ herased

theorem not_mounted_new (objects : Nat → KoMountable) (q : NodePath) (ob : Nat) :
    ¬ (new objects).Mounted q ob := by
  intro h
  obtain ⟨k, hk, hm⟩ := h
  change (if q = [] then some (Node.mk 0 [] none none) else none) = some k at hk
  split at hk
  · rw [← Option.some.inj hk] at hm
    cases hm
  · cases hk

theorem step_bound {call : VfsCall} (h : fs.Bound) (hwf : fs.WellFormed) (hok : fs.Orderly call)
    (hstep : Step fs call fs') : fs'.Bound := by
  cases hstep with
  | create target hlive => exact h.create target hlive
  | hold hlive => exact h.hold (h _ hlive)
  | release =>
      rename_i o
      intro ob
      refine h.other (fun hheld => ?_) rfl fun _ _ => .rfl
      have hupdate : Function.update fs.held o false ob = true := hheld
      rw [Function.update_apply] at hupdate
      split at hupdate
      · cases hupdate
      · exact hupdate
  | mount _ hmount =>
      refine h.after_mount hmount fun o ho hvacant => ?_
      subst ho
      exact hok hvacant
  | unmount hunmount => exact h.after_unmount hwf hunmount
  | @addChild p name hp =>
      cases name with
      | none => exact h
      | some dir =>
          obtain ⟨fs', hadd, hgrows⟩ := grows_addChild hwf hp dir
          rw [hadd]
          exact h.grows hgrows
  | eraseChild _ herase =>
      rcases eraseChild_cases herase with
        ⟨e, rfl⟩ | ⟨dir, child, rfl, hchild, ⟨rfl, o, hmount, rfl⟩ | ⟨rfl, r', hunmount, rfl⟩⟩
      · exact h
      · exact h.eraseTaken hwf hchild hmount fun q ob hin hq hheld => (hok q ob hin hq hheld).2
      · have hparent := h.after_unmount hwf hunmount
        refine hparent.erase (hwf.after_unmount hunmount) _ fun q ob hin hq => ?_
        obtain ⟨hold, hheld⟩ := mounted_after_unmount hunmount hq
        rw [hheld]
        exact Bool.eq_false_iff.2 fun hob => absurd (hok q ob hin hold hob).1 (by simp)
  | createPath _ hroot hcreate =>
      obtain ⟨n, made, dropped, fs₁, hmakes, hgrows, -, hfinish⟩ :=
        makes_of_createPathLoop hwf hroot rfl hcreate
      rcases finish_cases hfinish with ⟨-, hr⟩ | ⟨o, res, rfl, hmount, hr⟩
      · exact (Prod.mk.inj hr).2 ▸ h.grows hgrows
      · have hafter : fs' = fs₁.after res := hr
        rw [hafter]
        refine (h.grows hgrows).after_mount hmount fun o' ho' hvacant q => ?_
        obtain rfl := Option.some.inj ho'
        rw [hgrows.mounted]
        exact hok n made dropped hmakes (fun ob hn => hvacant ob ((hgrows.mounted n ob).2 hn)) q

/-- In runs of orderly calls every live object is bound to the node it is mounted on. -/
theorem run_bound {objects : Nat → KoMountable} {calls : List VfsCall}
    (hrun : Run (When Orderly Step) (new objects) calls fs) : fs.Bound := by
  have hboth := hrun.invariant (P := fun fs => fs.WellFormed ∧ fs.Bound) ⟨wf_new objects, ?_⟩
    fun _ _ _ h hstep => ⟨step_wf h.1 hstep.2, step_bound h.2 h.1 hstep.1 hstep.2⟩
  · exact hboth.2
  · intro ob hlive
    rcases hlive with hheld | ⟨q, k, hk, hm⟩
    · cases hheld
    · exact absurd ⟨k, hk, hm⟩ (not_mounted_new objects q ob)

/-- A device that is mounted on a new node. -/
theorem run_bound_mount : ∃ fs calls, Run (When Orderly Step) (new fun _ => ⟨none, none⟩) calls fs ∧
    fs.Mounted [['a']] 1 ∧ fs.Bound := by
  let fs₁ : Kvfs := { new fun _ => ⟨none, none⟩ with
    objects := Function.update (fun _ => ⟨none, none⟩) 1 ⟨none, none⟩
    held := Function.update (fun _ => false) 1 true }
  have hfree : ∀ q, ¬ (fs₁.addChild [] (some ['a'])).2.Mounted q 1 := by
    intro q h
    obtain ⟨k, hk, hm⟩ := h
    change Function.update (new fun _ => ⟨none, none⟩).nodes [['a']] (some ⟨1, ['a'], some 0, none⟩) q =
      some k at hk
    rw [Function.update_apply] at hk
    split at hk
    · rw [← Option.some.inj hk] at hm
      cases hm
    · exact not_mounted_new _ q 1 ⟨k, hk, hm⟩
  have hlive : ∀ o ∈ some 1, (fs₁.addChild [] (some ['a'])).2.Live o := by
    intro o ho
    obtain rfl := Option.some.inj ho
    exact .inl rfl
  have hrun : Run (When Orderly Step) (new fun _ => ⟨none, none⟩)
      [.mount [['a']] (some 1), .addChild [] (some ['a']), .create 1 none] _ :=
    ((Run.nil.snoc ⟨trivial, .create none fun hlive => hlive.elim nofun fun h => by
      obtain ⟨p, k, hk, hm⟩ := h
      exact not_mounted_new _ p 1 ⟨k, hk, hm⟩⟩).snoc ⟨trivial, .addChild (some ['a']) rfl⟩).snoc
      ⟨fun _ => hfree, .mount hlive rfl⟩
  exact ⟨_, _, hrun, ⟨_, rfl, rfl⟩, run_bound hrun⟩

/-- `eraseChild` without a variable for the object: the child goes, its object stays bound. -/
theorem eraseChild_leaves_bound : ∃ fs calls, Run Step (new fun _ => ⟨none, none⟩) calls fs ∧
    ¬ fs.Bound := by
  have hrun : Run Step (new fun _ => ⟨none, none⟩)
      [.eraseChild [] (some ['a']) false, .mount [['a']] (some 1), .addChild [] (some ['a']),
        .create 1 none] _ :=
    (((Run.nil.snoc (.create none fun hlive => hlive.elim nofun fun h => by
      obtain ⟨p, k, hk, hm⟩ := h
      exact not_mounted_new _ p 1 ⟨k, hk, hm⟩)).snoc (.addChild (some ['a']) rfl)).snoc
      (.mount (by
        intro o ho
        obtain rfl := Option.some.inj ho
        exact .inl rfl) rfl)).snoc (.eraseChild rfl rfl)
  refine ⟨_, _, hrun, fun h => ?_⟩
  obtain ⟨p, k, hk, -, hm⟩ := (h 1 (.inl rfl) 1).1 rfl
  obtain ⟨hold, hout⟩ := nodes_of_erase hk
  have hne : p ≠ [['a']] := fun heq => hout (heq ▸ List.suffix_refl _)
  change Function.update (Function.update (new fun _ => ⟨none, none⟩).nodes [['a']] _) [['a']] _ p =
    some k at hold
  rw [Function.update_of_ne hne, Function.update_of_ne hne] at hold
  exact not_mounted_new _ p 1 ⟨k, hold, hm⟩

end Vin64.Kernel.Kvfs
