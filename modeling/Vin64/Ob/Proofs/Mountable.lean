import Mathlib.Tactic.ByContra
import Vin64.Ob.Mountable

/-!
# When both pointers of a mount stay right

`attach` repairs the node that its object leaves, but not the object that was mounted before.
-/

namespace Vin64.Ob

namespace Mounts

variable {O N : Type} [DecidableEq N] {s t : Mounts O N} {ob : O} {n : N}

/-! ## What each call does -/

theorem mounted_leave (s : Mounts O N) (ob : O) (m : N) :
    (s.leave ob).mounted m = if s.node ob = some m then none else s.mounted m := by
  unfold leave
  cases hnode : s.node ob with
  | none => simp
  | some k =>
      by_cases hk : m = k
      · simp [setMounted, hk]
      · simp [setMounted, hk, Ne.symm hk]

theorem node_leave (s : Mounts O N) (ob : O) : (s.leave ob).node = s.node := by
  unfold leave
  cases s.node ob <;> rfl

theorem alive_leave (s : Mounts O N) (ob : O) : (s.leave ob).alive = s.alive := by
  unfold leave
  cases s.node ob <;> rfl

/-- The node that an object leaves was its own. -/
theorem Linked.mounted_leave (h : s.Linked) (hob : s.alive ob) {p : O} (hp : p ≠ ob) (m : N) :
    (s.leave ob).mounted m = some p ↔ s.mounted m = some p := by
  rw [Mounts.mounted_leave]
  by_cases hm : s.node ob = some m
  · have hown : s.mounted m = some ob := (h ob m).1 ⟨hob, hm⟩
    rw [if_pos hm, hown]
    simp [Ne.symm hp]
  · rw [if_neg hm]

theorem Linked.mounted_leave_self (h : s.Linked) (m : N) :
    (s.leave ob).mounted m ≠ some ob := by
  rw [Mounts.mounted_leave]
  by_cases hm : s.node ob = some m
  · simp [hm]
  · rw [if_neg hm]
    exact fun hmounted => hm ((h ob m).2 hmounted).2

variable [DecidableEq O]

theorem mounted_attach (s : Mounts O N) (ob : O) (n m : N) :
    (s.attach ob n).mounted m = if m = n then some ob else (s.leave ob).mounted m :=
  Function.update_apply _ _ _ _

theorem node_attach (s : Mounts O N) (ob : O) (n : N) (p : O) :
    (s.attach ob n).node p = if p = ob then some n else s.node p := by
  rw [← node_leave s ob]
  exact Function.update_apply _ _ _ _

theorem alive_attach (s : Mounts O N) (ob : O) (n : N) : (s.attach ob n).alive = s.alive :=
  alive_leave s ob

theorem mounted_detech (s : Mounts O N) (ob : O) : (s.detech ob).mounted = (s.leave ob).mounted := by
  unfold detech leave
  cases s.node ob <;> rfl

theorem node_detech (s : Mounts O N) (ob p : O) :
    (s.detech ob).node p = if p = ob then none else s.node p := by
  unfold detech
  cases hnode : s.node ob with
  | none =>
      by_cases hp : p = ob
      · simp [hp, hnode]
      · simp [hp]
  | some k =>
      rw [← node_leave s ob]
      exact Function.update_apply _ _ _ _

theorem alive_detech (s : Mounts O N) (ob : O) : (s.detech ob).alive = s.alive := by
  unfold detech
  cases s.node ob with
  | none => rfl
  | some k => exact alive_leave s ob

/-! ## One call -/

theorem Linked.attach (h : s.Linked) (hob : s.alive ob)
    (hfree : s.AttachesFree (.attach ob n)) : (s.attach ob n).Linked := by
  intro p m
  rw [alive_attach, node_attach, mounted_attach]
  by_cases hp : p = ob
  · subst hp
    by_cases hm : m = n
    · simp [hm, hob]
    · rw [if_pos rfl, if_neg hm]
      exact iff_of_false (by simp [Ne.symm hm]) (h.mounted_leave_self m)
  · rw [if_neg hp, h p m]
    by_cases hm : m = n
    · subst hm
      rw [if_pos rfl]
      exact iff_of_false (fun hmounted => hp (hfree p hmounted)) (by simp [Ne.symm hp])
    · rw [if_neg hm, h.mounted_leave hob hp]

theorem Linked.detech (h : s.Linked) (hob : s.alive ob) : (s.detech ob).Linked := by
  intro p m
  rw [alive_detech, node_detech, mounted_detech]
  by_cases hp : p = ob
  · subst hp
    exact iff_of_false (by simp) (h.mounted_leave_self m)
  · rw [if_neg hp, h p m, h.mounted_leave hob hp]

theorem Linked.destroy (h : s.Linked) (hob : s.alive ob) :
    ({ s.detech ob with alive := Function.update s.alive ob false } : Mounts O N).Linked := by
  intro p m
  show (Function.update s.alive ob false p = true ∧ (s.detech ob).node p = some m) ↔
    (s.detech ob).mounted m = some p
  rw [← h.detech hob p m, alive_detech]
  by_cases hp : p = ob
  · subst hp
    rw [node_detech]
    simp
  · rw [Function.update_of_ne hp]

omit [DecidableEq N] in
theorem Linked.make (h : s.Linked) (hob : ¬ s.alive ob) :
    ({ s.setNode ob none with alive := Function.update s.alive ob true } : Mounts O N).Linked := by
  intro p m
  show (Function.update s.alive ob true p = true ∧ Function.update s.node ob none p = some m) ↔
    s.mounted m = some p
  rw [← h p m]
  by_cases hp : p = ob
  · subst hp
    simp [hob]
  · rw [Function.update_of_ne hp, Function.update_of_ne hp]

/-- From right pointers a call goes wrong only where it attaches to a node of another object. -/
theorem Linked.step_iff (h : s.Linked) {call : MountCall O N} (hstep : s.step call = some t) :
    t.Linked ∧ s.KeepsOthers call t ↔ s.AttachesFree call := by
  cases call with
  | make ob =>
      simp only [step] at hstep
      split at hstep
      · cases hstep
      · rename_i hob
        obtain rfl := Option.some.inj hstep
        exact iff_of_true ⟨h.make hob, trivial⟩ trivial
  | attach ob n =>
      simp only [step] at hstep
      split at hstep
      · rename_i hob
        obtain rfl := Option.some.inj hstep
        constructor
        · rintro ⟨hlinked, -⟩ other hother
          by_contra hne
          obtain ⟨halive, hnode⟩ := (h other n).2 hother
          have hnew := (hlinked other n).1
            ⟨by rwa [alive_attach], by rwa [node_attach, if_neg hne]⟩
          rw [mounted_attach, if_pos rfl] at hnew
          exact hne (Option.some.inj hnew).symm
        · intro hfree
          exact ⟨h.attach hob hfree, fun other hne hother => absurd (hfree other hother) hne⟩
      · cases hstep
  | detech ob =>
      simp only [step] at hstep
      split at hstep
      · rename_i hob
        obtain rfl := Option.some.inj hstep
        refine iff_of_true ⟨h.detech hob, fun other n hne hother => ?_⟩ trivial
        rw [mounted_detech]
        exact (h.mounted_leave hob hne n).2 hother
      · cases hstep
  | destroy ob =>
      simp only [step] at hstep
      split at hstep
      · rename_i hob
        obtain rfl := Option.some.inj hstep
        refine iff_of_true ⟨h.destroy hob, fun other n hne hother => ?_⟩ trivial
        show (s.detech ob).mounted n = some other
        rw [mounted_detech]
        exact (h.mounted_leave hob hne n).2 hother
      · cases hstep

/-! ## Runs -/

omit [DecidableEq N] [DecidableEq O] in
theorem linked_start : (start : Mounts O N).Linked := by
  intro ob n
  simp [start]

theorem AlwaysLinked.linked {calls : List (MountCall O N)} (h : AlwaysLinked s calls) :
    s.Linked := by
  cases calls with
  | nil => exact h
  | cons call calls => exact h.1

theorem Linked.alwaysLinked_iff (h : s.Linked) (calls : List (MountCall O N)) :
    AlwaysLinked s calls ↔ AlwaysFree s calls := by
  induction calls generalizing s with
  | nil => exact iff_of_true h trivial
  | cons call calls ih =>
      constructor
      · rintro ⟨-, hall⟩ t ht
        obtain ⟨hkeeps, hrest⟩ := hall t ht
        exact ⟨(h.step_iff ht).1 ⟨hrest.linked, hkeeps⟩, (ih hrest.linked).1 hrest⟩
      · intro hfree
        refine ⟨h, fun t ht => ?_⟩
        obtain ⟨hcall, hrest⟩ := hfree t ht
        obtain ⟨hlinked, hkeeps⟩ := (h.step_iff ht).2 hcall
        exact ⟨hkeeps, (ih hlinked).2 hrest⟩

/-- The pointers stay right exactly in the runs that attach no object to a node that has another
one. -/
theorem mounts_linked_iff (calls : List (MountCall O N)) :
    AlwaysLinked start calls ↔ AlwaysFree start calls :=
  linked_start.alwaysLinked_iff calls

/-- The object 1 takes the node of the object 0, which then still points to it. -/
def displaced : List (MountCall Nat Nat) := [.make 0, .make 1, .attach 0 7, .attach 1 7, .detech 0]

theorem displaced_not_linked : ¬ AlwaysLinked start displaced := by
  intro h
  have hlast := ((((h.2 _ rfl).2.2 _ rfl).2.2 _ rfl).2.2 _ rfl).2.linked 0 7
  revert hlast
  decide

end Mounts

end Vin64.Ob
