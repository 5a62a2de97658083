import Vin64.Kernel.Proofs.Names

/-!
# `createPath` without `force`

`createPath` does not pass `force` on.  It makes what is missing all the same.
-/

namespace Vin64.Kernel.Kvfs

open Vin64.Lib Vin64.Vram

variable {fs fs' : Kvfs} {q n : NodePath} {made : List NodePath}
  {ds dropped : List (PathPart (List Char))}

/-- The call leaves the places of the tree, and gives no node when a component is missing. -/
structure CreatesNothing (fs : Kvfs) (path : List Char) (ob : Option Nat) (root : Option NodePath) :
    Prop where
  same : ∀ fuel r fs', fs.createPath fuel path false ob root = some (r, fs') →
    ∀ p, (fs'.nodes p).isSome ↔ (fs.nodes p).isSome
  null : fs.names.Lacks (root.getD []) (parts path) →
    ∃ fuel fs', fs.createPath fuel path false ob root = some (none, fs')

/-- The walk makes only places that are there, and the object cannot be mounted where it ends. -/
def EndsMounted (fs : Kvfs) (q : NodePath) (ds : List (PathPart (List Char))) (ob : Option Nat) :
    Prop :=
  ∃ n made dropped o, fs.names.Makes above q ds n made dropped ∧
    (∀ p ∈ made, (fs.nodes p).isSome) ∧ ob = some o ∧ ¬ fs.Vacant n

/-- Where no component is missing a creating walk makes nothing. -/
theorem makes_isSome (h : fs.WellFormed) (hq : (fs.nodes q).isSome)
    (hmakes : fs.names.Makes above q ds n made dropped) (hlacks : ¬ fs.names.Lacks q ds) :
    ∀ p ∈ made, (fs.nodes p).isSome := by
  induction hmakes with
  | nil => exact nofun
  | @on q n d ds _ _ hlink _ ih =>
      cases hnext : fs.names.next q d with
      | none => exact absurd (.absent ds hnext) hlacks
      | some p =>
          obtain ⟨hp, rfl⟩ := nodes_of_next h hq hnext
          exact List.forall_mem_cons.2 ⟨hp, ih hp fun hrest => hlacks (.on hnext hlink hrest)⟩
  | @again q n d ds _ _ _ hlink _ ih =>
      cases hnext : fs.names.next q d with
      | none => exact absurd (.absent ds hnext) hlacks
      | some p =>
          obtain ⟨hp, rfl⟩ := nodes_of_next h hq hnext
          exact List.forall_mem_cons.2
            ⟨hp, ih h.root fun hrest => hlacks (.again hnext hlink hrest)⟩

theorem Grows.vacant (h : fs.Grows made fs') (p : NodePath) : fs'.Vacant p ↔ fs.Vacant p :=
  forall_congr' fun ob => not_congr (h.mounted p ob)

/-! ## The end of the walk -/

theorem finish_vacant {k : Node} (o : Nat) (hk : fs.nodes n = some k) (hnone : k.mount = none) :
    finish fs n (some o) =
      some (some n, (fs.setNode n { k with mount := some o }).bindNode o k.id) := by
  unfold finish mount
  simp only [hk, hnone]

theorem finish_mounted (o : Nat) (h : ¬ fs.Vacant n) : finish fs n (some o) = some (none, fs) := by
  unfold Vacant at h
  simp only [not_forall, Classical.not_not] at h
  obtain ⟨ob, k, hk, hmount⟩ := h
  unfold finish mount
  simp only [hk, hmount]

/-- Only a mount that fails ends a walk without a node. -/
theorem not_vacant_of_null {ob : Option Nat} (h : finish fs n ob = some (none, fs')) :
    ∃ o, ob = some o ∧ ¬ fs.Vacant n := by
  cases ob with
  | none => cases h
  | some o =>
      refine ⟨o, rfl, fun hvacant => ?_⟩
      cases hk : fs.nodes n with
      | none => simp [finish, mount, hk] at h
      | some k =>
          cases hmount : k.mount with
          | none =>
              rw [finish_vacant o hk hmount] at h
              cases h
          | some ob => exact hvacant ob ⟨k, hk, hmount⟩

/-- A mount makes no node. -/
theorem finish_isSome {ob : Option Nat} {r : Option NodePath} (h : finish fs n ob = some (r, fs'))
    (p : NodePath) : (fs'.nodes p).isSome ↔ (fs.nodes p).isSome := by
  rcases finish_cases h with ⟨-, heq⟩ | ⟨o, res, -, hmount, hafter⟩
  · rw [(Prod.mk.inj heq).2]
  · have hfs : fs' = fs.after res := hafter
    rcases mount_cases hmount with ⟨e, rfl⟩ | ⟨k, o', hk, -, -, rfl⟩
    · rw [hfs]
      rfl
    · rw [hfs]
      show ((fs.setNode n { k with mount := some o' }).nodes p).isSome ↔ _
      rw [nodes_setNode]
      by_cases hp : p = n
      · rw [if_pos hp, hp, hk]
        rfl
      · rw [if_neg hp]

/-! ## The call -/

/-- A call without `force` makes no node, and gives none when a component is missing, exactly
when no component is missing, or all it would make is there and the mount fails. -/
theorem createsNothing_iff (h : fs.WellFormed) {path : List Char} {ob : Option Nat}
    {root : Option NodePath} (hroot : (fs.nodes (root.getD [])).isSome) :
    fs.CreatesNothing path ob root ↔
      ¬ fs.names.Lacks (root.getD []) (parts path) ∨
        fs.EndsMounted (root.getD []) (parts path) ob := by
  constructor
  · intro hcall
    by_cases hlacks : fs.names.Lacks (root.getD []) (parts path)
    · right
      obtain ⟨fuel, fs', hnull⟩ := hcall.null hlacks
      obtain ⟨n, made, dropped, fs₁, hmakes, hgrows, -, hfinish⟩ :=
        makes_of_createPathLoop h hroot rfl hnull
      obtain ⟨o, hob, hmounted⟩ := not_vacant_of_null hfinish
      refine ⟨n, made, dropped, o, hmakes, fun p hp => ?_, hob, fun hvacant => ?_⟩
      · rw [← hcall.same fuel none fs' hnull p, finish_isSome hfinish]
        exact (hgrows.has p).2 (.inr hp)
      · exact hmounted ((hgrows.vacant n).2 hvacant)
    · exact .inl hlacks
  · intro hcond
    have hmade : ∀ n made dropped, fs.names.Makes above (root.getD []) (parts path) n made dropped →
        ∀ p ∈ made, (fs.nodes p).isSome := by
      intro n made dropped hmakes
      rcases hcond with hlacks | ⟨n', made', dropped', o, hmakes', hhas, -⟩
      · exact makes_isSome h hroot hmakes hlacks
      · obtain ⟨-, rfl, -⟩ := hmakes.unique hmakes'
        exact hhas
    constructor
    · intro fuel r fs' hcreate p
      obtain ⟨n, made, dropped, fs₁, hmakes, hgrows, -, hfinish⟩ :=
        makes_of_createPathLoop h hroot rfl hcreate
      rw [finish_isSome hfinish, hgrows.has]
      exact ⟨fun hp => hp.elim id (hmade n made dropped hmakes p), .inl⟩
    · intro hlacks
      rcases hcond with hall | ⟨n, made, dropped, o, hmakes, -, rfl, hmounted⟩
      · exact absurd hlacks hall
      · obtain ⟨fuel, fs', hloop, hn⟩ := createPathLoop_of_makes (some o)
          (c := ⟨fs, root.getD [], true⟩) hmakes rfl h hroot rfl rfl rfl
        obtain ⟨r, hr⟩ := exists_finish (some o) hn
        obtain ⟨n', made', dropped', fs₁, hmakes', hgrows, -, hfinish⟩ :=
          makes_of_createPathLoop h hroot rfl (hloop.trans hr)
        obtain ⟨rfl, -, -⟩ := hmakes.unique hmakes'
        rw [finish_mounted o fun hvacant => hmounted ((hgrows.vacant n).1 hvacant)] at hfinish
        exact ⟨fuel, fs₁, (hloop.trans hr).trans hfinish.symm⟩

/-- A path of one component, which is there. -/
theorem createsNothing_child : ∃ fs : Kvfs, fs.nodes [['a']] ≠ none ∧
    fs.CreatesNothing "\\a".toList none none := by
  obtain ⟨fs, hadd, hgrows⟩ := grows_addChild (wf_new fun _ => ⟨none, none⟩) (wf_new _).root ['a']
  have hfs : fs = ((new fun _ => ⟨none, none⟩).addChild [] (some ['a'])).2 := by rw [hadd]
  have hparts : parts "\\a".toList = [.down ['a']] := by decide +kernel
  have hroot : (fs.nodes (Option.getD none [])).isSome := hgrows.wf.root
  refine ⟨fs, ?_, (createsNothing_iff hgrows.wf hroot).2 (.inl fun hlacks => ?_)⟩
  · rw [hfs]
    decide
  · rw [hparts] at hlacks
    have hnext : fs.names.next [] (.down ['a']) = some [['a']] := by
      rw [hfs]
      decide
    cases hlacks with
    | absent _ h => simp [hnext] at h
    | on h _ hrest => cases hrest
    | again _ hlink _ =>
        obtain rfl : [['a']] = _ := Option.some.inj (hnext.symm.trans ‹_›)
        have hnone : fs.names.link [['a']] = none := by
          rw [hfs]
          decide
        simp [hnone] at hlink

/-- The child of the root is made although `force` is false. -/
theorem noForce_creates : ∃ fs',
    (new fun _ => ⟨none, none⟩).createPath 1 "\\a".toList false none none =
      some (some [['a']], fs') ∧ (fs'.nodes [['a']]).isSome ∧
    ¬ (new fun _ => ⟨none, none⟩).CreatesNothing "\\a".toList none none := by
  have hcreate : (new fun _ => ⟨none, none⟩).createPath 1 "\\a".toList false none none =
      some (some [['a']], ((new fun _ => ⟨none, none⟩).addChild [] (some ['a'])).2) := by
    with_unfolding_all rfl
  have hmade : ((((new fun _ => ⟨none, none⟩).addChild [] (some ['a'])).2).nodes [['a']]).isSome := by
    decide
  refine ⟨_, hcreate, hmade, fun h => ?_⟩
  have hsame := (h.same 1 _ _ hcreate [['a']]).1 hmade
  exact absurd hsame (by decide)

end Vin64.Kernel.Kvfs
