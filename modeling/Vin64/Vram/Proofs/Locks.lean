import Vin64.Vram.Proofs.Moves
import Vin64.Vram.Proofs.Partial

/-!
# Locked blocks

A locked block keeps its address when it is swapped out, and `RamSwapIn` brings it back to
its own slot.  `EnsureRamBlock` brings it to any slot.
-/

namespace Vin64.Vram

open Vin64.Lib Vin64.Lib.Op Vin64.Utils RamManager

variable {s t u : RamManager} {e : Env} {c : Call} {pb a i : Nat}

/-- Block `pb` is locked at the address `a` of a slot. -/
structure LockedAt (s : RamManager) (pb a : Nat) : Prop where
  locked : (s.blocks pb).flags &&& BF_LOCKED ≠ 0#32
  addr : (s.blocks pb).addr = a
  slot : ∃ i, a = i * 4096

/-- A locked block that is swapped out is ensured only when the chosen slot is its own. -/
def Call.ReturnsHome (s : RamManager) (e : Env) : Call → Prop
  | .ensure pb => s.IsSwapped pb → (s.blocks pb).flags &&& BF_LOCKED ≠ 0#32 →
      ∀ i, s.findFreeOrSwappable e.rand = some i → (s.blocks pb).addr = i * 4096
  | _ => True

/-- The call allocates the block or frees it. -/
def Call.Reassigns (pb : Nat) : Call → Prop
  | .alloc q _ => q = pb
  | .free q => q = pb
  | _ => False

/-! ## What a call leaves of a locked block -/

namespace RamBlock

variable {b : RamBlock} {j : Nat}

theorem locked_swappedOut :
    (b.swappedOut j).flags &&& BF_LOCKED = 0#32 ↔ b.flags &&& BF_LOCKED = 0#32 := by
  have hmask : BF_SWAPPED[2] = false := by decide
  rw [and_locked_eq_zero, and_locked_eq_zero]
  simp [swappedOut, hmask]

theorem locked_swappedIn :
    (b.swappedIn i).flags &&& BF_LOCKED = 0#32 ↔ b.flags &&& BF_LOCKED = 0#32 := by
  have hmask : BF_SWAPPED[2] = false := by decide
  rw [and_locked_eq_zero, and_locked_eq_zero]
  simp [swappedIn, hmask]

theorem locked_allocated {f : BitVec 32} :
    (b.allocated i f).flags &&& BF_LOCKED = 0#32 ↔ f &&& BF_LOCKED = 0#32 := by
  have hl : BF_LOCKED[2] = true := by decide
  have hv : BF_VALID[2] = false := by decide
  rw [and_locked_eq_zero, and_locked_eq_zero]
  simp [allocated, hl, hv]

end RamBlock

namespace LockedAt

theorem of_block (h : LockedAt s pb a) (hb : t.blocks pb = s.blocks pb) : LockedAt t pb a :=
  ⟨by rw [hb]; exact h.locked, by rw [hb]; exact h.addr, h.slot⟩

theorem of_blocks (h : LockedAt s pb a) (hb : t.blocks = s.blocks) : LockedAt t pb a :=
  h.of_block (congrFun hb pb)

/-- Another block changes. -/
theorem update_ne (h : LockedAt s pb a) {m : Nat} {b : RamBlock} (hm : pb ≠ m)
    (hb : t.blocks = Function.update s.blocks m b) : LockedAt t pb a :=
  h.of_block (by rw [hb, Function.update_of_ne hm])

theorem swappedOut (h : LockedAt s pb a) {j : Nat}
    (hb : t.blocks = Function.update s.blocks pb ((s.blocks pb).swappedOut j)) :
    LockedAt t pb a := by
  refine ⟨?_, ?_, h.slot⟩
  · rw [hb, Function.update_self, ne_eq, RamBlock.locked_swappedOut]
    exact h.locked
  · rw [hb, Function.update_self]
    exact h.addr

theorem swappedIn (h : LockedAt s pb a) (ha : a = i * 4096)
    (hb : t.blocks = Function.update s.blocks pb ((s.blocks pb).swappedIn i)) :
    LockedAt t pb a := by
  refine ⟨?_, ?_, h.slot⟩
  · rw [hb, Function.update_self, ne_eq, RamBlock.locked_swappedIn]
    exact h.locked
  · rw [hb, Function.update_self]
    exact ha.symm

theorem of_allocated {flags : BitVec 32} (hlock : flags &&& BF_LOCKED ≠ 0#32)
    (hb : t.blocks = Function.update s.blocks pb ((s.blocks pb).allocated i flags)) :
    LockedAt t pb (t.blocks pb).addr := by
  refine ⟨?_, rfl, i, ?_⟩
  · rw [hb, Function.update_self, ne_eq, RamBlock.locked_allocated]
    exact hlock
  · rw [hb, Function.update_self]
    rfl

/-- A slot whose block may be evicted is not the one of a locked block. -/
theorem ne_victim (h : LockedAt s pb a) {m : Nat} (hm : ¬ s.lockedSlot (some m)) : pb ≠ m := by
  rintro rfl
  apply hm
  simpa [lockedSlot] using h.locked

theorem brought (h : LockedAt s pb a) {q : Nat} (hq : q = pb → a = i * 4096) :
    LockedAt (s.brought i q) pb a := by
  by_cases hpb : q = pb
  · rw [hpb]
    exact h.swappedIn (hq hpb) rfl
  · exact h.update_ne (Ne.symm hpb) rfl

theorem setPage (h : LockedAt s pb a) (b : Buffer) (p : Page) : LockedAt (s.setPage b p) pb a := by
  apply h.of_blocks
  cases b <;> rfl

theorem stored (h : LockedAt s pb a) (x : Access) (j : Nat) (b : Buffer) :
    LockedAt (s.stored x j b) pb a :=
  (h.setPage b (codeBlockPage (s.page b))).of_blocks rfl

theorem prealloc (h : LockedAt s pb a) : LockedAt s.prealloc pb a := h.of_blocks rfl

end LockedAt

theorem wlp_swap_locked {inPF : Option Nat} (h : LockedAt s pb a)
    (hhome : inPF = some pb → a = i * 4096) :
    wlp (swapRamAndPageFile e i inPF) (fun _ u => LockedAt u pb a) (fun _ u => LockedAt u pb a)
      s := by
  cases inPF with
  | none =>
      apply wlp_swap_none
      · exact fun _ => h
      · exact fun m _ hm => h.update_ne (h.ne_victim hm) rfl
      · exact fun _ _ _ => h
      · exact fun _ => h.prealloc
      · exact fun _ _ _ _ _ => h.prealloc.stored _ _ _
  | some q =>
      have hq : q = pb → a = i * 4096 := fun hq => hhome (by rw [hq])
      apply wlp_swap_some
      · exact fun _ => (h.setPage _ _).brought hq
      · exact fun m _ hm => LockedAt.brought (h.update_ne (h.ne_victim hm) rfl) hq
      · exact fun _ _ _ => h
      · exact fun _ _ _ _ => h
      · exact fun _ _ _ _ _ b _ => h.setPage b _
      · exact fun _ _ _ => h.setPage _ _
      · exact fun _ _ _ _ _ _ _ => (h.setPage _ _).stored _ _ _

theorem wlp_swapIn_locked {q : Nat} (h : LockedAt s pb a) :
    wlp (ramSwapIn e q) (fun _ u => LockedAt u pb a) (fun _ u => LockedAt u pb a) s := by
  simp only [ramSwapIn, wlp_bind, wlp_blockAt, wlp_ite, wlp_fail, wlp_pure, wlp_find]
  refine ⟨fun _ => h, fun _ => ⟨fun _ => ?_, fun hfree => ?_⟩⟩
  · apply wlp_swap_locked h
    intro hq
    obtain rfl : q = pb := by simpa using hq
    obtain ⟨i, hi⟩ := h.slot
    rw [h.addr, Nat.shiftRight_eq_div_pow, hi]
    simp [VM_PAGE_SHIFT]
  · have hne : some q ≠ some pb := by
      intro hq
      obtain rfl : q = pb := by simpa using hq
      exact hfree h.locked
    exact ⟨fun i _ => wlp_swap_locked h fun hq => absurd hq hne, fun _ => h⟩

theorem wlp_access_locked {q : Nat} {o : Option Buffer} (h : LockedAt s pb a) :
    wlp (ramDirectAccess e q o) (fun _ u => LockedAt u pb a) (fun _ u => LockedAt u pb a) s := by
  simp only [ramDirectAccess, wlp_bind, wlp_blockAt, wlp_ite, wlp_fail, wlp_pure]
  refine ⟨fun _ => h, fun _ => ⟨fun _ => ?_, fun _ => h⟩⟩
  cases o with
  | some b =>
      rw [wlp_bind]
      apply wlp_loadFromStorage
      · exact fun _ _ => h.setPage b _
      · exact fun _ => h
      · exact fun _ _ => h.setPage b _
  | none =>
      rw [wlp_bind]
      apply wlp_mono (wlp_swapIn_locked h)
      · intro _ u hu
        simpa using hu
      · exact fun _ _ hu => hu

theorem wlp_store_locked {x : Access} {j : Nat} {b : Buffer} (h : LockedAt s pb a) :
    wlp (storeToStorage x j b) (fun _ u => LockedAt u pb a) (fun _ u => LockedAt u pb a) s := by
  apply wlp_storeToStorage
  · exact fun _ _ => h.stored .ok j b
  · exact fun _ => h
  · exact fun _ _ => h.stored x j b

/-- A call leaves a locked block where it is, unless it allocates the block or frees it. -/
theorem wlp_exec_locked (t : Target) (h : LockedAt s pb a) (hhome : c.ReturnsHome s e) :
    wlp (exec t e c) (fun _ u => ¬ c.Reassigns pb → LockedAt u pb a)
      (fun _ u => LockedAt u pb a) s := by
  cases c with
  | alloc q flags =>
      simp only [exec, ramAllocAddress, wlp_bind, wlp_find]
      refine ⟨fun i _ => ?_, fun _ => h⟩
      apply wlp_mono (wlp_swap_locked h (by simp))
      · intro _ u hu
        simp only [wlp_modifyBlock, wlp_setSlot, wlp_pure]
        exact fun _ hq => hu.update_ne (Ne.symm hq) rfl
      · exact fun _ _ hu => hu
  | free q =>
      simp only [exec, ramFreeAddress, pageFileMarkUsed, markSwapBlockUsed, wlp_bind, wlp_blockAt,
        wlp_ite, wlp_pure, wlp_get, wlp_fail, wlp_modify, wlp_modifyBlock, wlp_onBlockInvalid,
        wlp_setSlot]
      refine ⟨fun _ _ => h, fun _ => ⟨fun _ => ⟨fun _ => h, fun _ hq => ?_⟩, fun _ _ hq => ?_⟩⟩
      · exact h.update_ne (Ne.symm hq) rfl
      · exact h.update_ne (Ne.symm hq) rfl
  | swapOut q bForce =>
      simp only [exec, ramSwapOut, wlp_bind, wlp_blockAt, wlp_ite, wlp_pure, wlp_fail,
        wlp_pageFilePreAlloc]
      refine ⟨fun _ _ => h, fun _ => ⟨fun _ => h, fun _ => ?_⟩⟩
      apply wlp_mono (wlp_store_locked h.prealloc)
      · intro _ u hu
        simp only [wlp_mark, wlp_onBlockInvalid, wlp_modifyBlock, wlp_setSlot]
        intro _ _
        by_cases hq : q = pb
        · rw [hq]
          exact hu.swappedOut rfl
        · exact hu.update_ne (Ne.symm hq) rfl
      · exact fun _ _ hu => hu
  | swapIn q =>
      simp only [exec, wlp_bind, wlp_pure]
      exact wlp_mono (wlp_swapIn_locked h) (fun _ _ hu _ => hu) fun _ _ hu => hu
  | ensure q =>
      simp only [exec, ensureRamBlock, wlp_bind, wlp_blockAt, wlp_ite, wlp_fail, wlp_pure, wlp_find]
      refine ⟨fun _ => h, fun _ => ⟨fun _ _ => h, fun hswap => ⟨fun i hi => ?_, fun _ => h⟩⟩⟩
      apply wlp_mono (wlp_swap_locked h ?_) (fun _ _ hu _ => hu) fun _ _ hu => hu
      intro hq
      obtain rfl : q = pb := by simpa using hq
      rw [← h.addr]
      exact hhome hswap h.locked i hi
  | directAccess q =>
      simp only [exec, wlp_bind, wlp_pure]
      exact wlp_mono (wlp_access_locked h) (fun _ _ hu _ => hu) fun _ _ hu => hu
  | directWrite q off p cb =>
      simp only [exec, ramDirectWrite, copyInto, wlp_bind, wlp_ite, wlp_fail, wlp_pure]
      refine ⟨fun _ => h, fun _ => ?_⟩
      apply wlp_mono (wlp_access_locked h)
      · intro b u hu
        simp only [wlp_readPage, wlp_writePage, wlp_fault, wlp_blockAt, implies_true, and_true]
        refine fun _ _ _ => ⟨fun _ _ => hu.setPage b _, fun _ => ?_⟩
        exact wlp_mono (wlp_store_locked (hu.setPage b _)) (fun _ _ hu _ => hu) fun _ _ hu => hu
      · exact fun _ _ hu => hu
  | directRead q off cb =>
      simp only [exec, ramDirectRead, copyFrom, wlp_bind, wlp_ite, wlp_fail]
      refine ⟨fun _ => h, fun _ => ?_⟩
      apply wlp_mono (wlp_access_locked h)
      · intro b u hu
        rw [wlp_readPage]
        intro _
        by_cases hle : off + cb ≤ 4096
        · simpa [hle] using fun _ => hu
        · simp [hle]
      · exact fun _ _ hu => hu

/-- An allocation puts its block in a slot, locked if it asks for it. -/
theorem wlp_alloc_locked (t : Target) (pb : Nat) (flags : BitVec 32) :
    wlp (exec t e (.alloc pb flags))
      (fun _ u => flags &&& BF_LOCKED ≠ 0#32 → LockedAt u pb (u.blocks pb).addr)
      (fun _ _ => True) s := by
  simp only [exec, ramAllocAddress, wlp_bind, wlp_find]
  refine ⟨fun i _ => ?_, fun _ => trivial⟩
  have htrue : wlp (swapRamAndPageFile e i none) (fun _ _ => True) (fun _ _ => True) s := by
    apply wlp_swap_none <;> simp
  apply wlp_mono htrue
  · intro _ u _
    simp only [wlp_modifyBlock, wlp_setSlot, wlp_pure]
    exact fun _ hlock => LockedAt.of_allocated (s := u) hlock rfl
  · exact fun _ _ _ => trivial

/-! ## Runs -/

/-- The addresses that locked blocks were given, after a step. -/
def givenAfter (t : RamManager) (v : Event) (given : Nat → Option Nat) : Nat → Option Nat :=
  match v.call, v.reply with
  | .alloc pb flags, .ok _ => Function.update given pb
      (if flags &&& BF_LOCKED ≠ 0#32 then some (t.blocks pb).addr else none)
  | .free pb, .ok _ => Function.update given pb none
  | _, _ => given

/-- A step of the manager, with the addresses that locked blocks were given. -/
def givenStep (t : Target) (x : RamManager × (Nat → Option Nat)) (v : Event)
    (y : RamManager × (Nat → Option Nat)) : Prop :=
  step t x.1 v y.1 ∧ y.2 = givenAfter y.1 v x.2

/-- Every block that was allocated with a lock is at the address it was given. -/
def Pinned (s : RamManager) (given : Nat → Option Nat) : Prop :=
  ∀ pb a, given pb = some a → LockedAt s pb a

theorem givenAfter_of_keeps {v : Event} {given : Nat → Option Nat}
    (h : ∀ bytes, v.reply = .ok bytes → ¬ v.call.Reassigns pb) :
    givenAfter u v given pb = given pb := by
  obtain ⟨c, e, reply⟩ := v
  cases reply with
  | error r => cases c <;> rfl
  | ok bytes =>
      have hne := h bytes rfl
      cases c with
      | alloc q flags => exact Function.update_of_ne (Ne.symm hne) _ _
      | free q => exact Function.update_of_ne (Ne.symm hne) _ _
      | _ => rfl

/-- An event that does not allocate or free the block keeps it. -/
theorem step_locked {t : Target} {v : Event} (hhome : v.call.ReturnsHome s v.env)
    (hstep : step t s v u) (hnot : ∀ bytes, v.reply = .ok bytes → ¬ v.call.Reassigns pb)
    (h : LockedAt s pb a) : LockedAt u pb a := by
  have hwlp := wlp_exec_locked t h hhome
  unfold step at hstep
  cases hr : v.reply with
  | ok bytes =>
      rw [hr] at hstep
      have hlocked := wlp_ok hwlp hstep
      exact hlocked (hnot bytes hr)
  | error r =>
      rw [hr] at hstep
      have hlocked := wlp_error hwlp hstep
      exact hlocked

theorem step_pinned {t : Target} {v : Event} {given : Nat → Option Nat}
    (hhome : v.call.ReturnsHome s v.env) (hstep : step t s v u) (h : Pinned s given) :
    Pinned u (givenAfter u v given) := by
  intro pb a hpb
  by_cases hnot : ∀ bytes, v.reply = .ok bytes → ¬ v.call.Reassigns pb
  · rw [givenAfter_of_keeps hnot] at hpb
    exact step_locked hhome hstep hnot (h pb a hpb)
  · obtain ⟨c, e, reply⟩ := v
    simp only [not_forall, not_not] at hnot
    obtain ⟨bytes, rfl, hre⟩ := hnot
    cases c with
    | alloc q flags =>
        obtain rfl : q = pb := hre
        by_cases hlock : flags &&& BF_LOCKED ≠ 0#32
        · obtain rfl : (u.blocks q).addr = a := by simpa [givenAfter, hlock] using hpb
          have hwlp := wlp_alloc_locked (s := s) (e := e) t q flags
          have hlocked := wlp_ok hwlp hstep
          exact hlocked hlock
        · simp [givenAfter, hlock] at hpb
    | free q =>
        obtain rfl : q = pb := hre
        simp [givenAfter] at hpb
    | _ => exact hre.elim

/-- In every run in which no locked block is ensured into a slot of another address, a block
that was allocated with a lock keeps the address it was given until it is freed. -/
theorem run_pinned (t : Target) {given : Nat → Option Nat} {es : List Event}
    (hrun : Run (When (fun x v => v.call.ReturnsHome x.1 v.env) (givenStep t)) (s, fun _ => none) es
      (u, given)) :
    ∀ pb a, given pb = some a → (u.blocks pb).addr = a := by
  have hpinned : Pinned u given := by
    apply hrun.invariant (P := fun x => Pinned x.1 x.2)
    · exact fun _ _ h => by simp at h
    · intro x v y hx ⟨hhome, hstep, hgiven⟩
      rw [hgiven]
      exact step_pinned hhome hstep hx
  exact fun pb a hpb => (hpinned pb a hpb).addr

theorem given_snoc {t : Target} {ok : RamManager × (Nat → Option Nat) → Event → Prop}
    {x : RamManager × (Nat → Option Nat)} {v : Event} {es : List Event} {given : Nat → Option Nat}
    (hrun : Run (When ok (givenStep t)) x es (s, given)) (hok : ok (s, given) v)
    (hstep : step t s v u) :
    Run (When ok (givenStep t)) x (v :: es) (u, givenAfter u v given) :=
  .snoc hrun ⟨hok, hstep, rfl⟩

/-- A manager of two slots. -/
def twoSlots : RamManager := { oneSlot with mBlocks := [none, none] }

theorem run_pinned_twoSlots : ∃ u given,
    Run (When (fun x v => v.call.ReturnsHome x.1 v.env) (givenStep .x64)) (twoSlots, fun _ => none)
      [⟨.swapIn 0, quiet, .ok []⟩, ⟨.swapOut 0 true, quiet, .ok []⟩,
        ⟨.alloc 0 BF_LOCKED, quiet, .ok []⟩, ⟨.alloc 1 0#32, quiet, .ok []⟩] (u, given) ∧
      given 0 = some 4096 ∧ (u.blocks 0).addr = 4096 := by
  have hrun : ∃ u given,
      Run (When (fun x v => v.call.ReturnsHome x.1 v.env) (givenStep .x64))
        (twoSlots, fun _ => none)
        [⟨.swapIn 0, quiet, .ok []⟩, ⟨.swapOut 0 true, quiet, .ok []⟩,
          ⟨.alloc 0 BF_LOCKED, quiet, .ok []⟩, ⟨.alloc 1 0#32, quiet, .ok []⟩] (u, given) ∧
        given 0 = some 4096 :=
    ⟨_, _, given_snoc (given_snoc (given_snoc (given_snoc .nil trivial rfl) trivial rfl) trivial rfl)
      trivial rfl, by decide⟩
  obtain ⟨u, given, hrun, hgiven⟩ := hrun
  exact ⟨u, given, hrun, hgiven, run_pinned .x64 hrun 0 4096 hgiven⟩

/-- Block 0 is locked and swapped out; block 1 takes its slot, and it is ensured in another
one. -/
def movingRun : List Event :=
  [⟨.ensure 0, quiet, .ok []⟩, ⟨.alloc 1 0#32, quiet, .ok []⟩, ⟨.swapOut 0 true, quiet, .ok []⟩,
    ⟨.alloc 0 BF_LOCKED, quiet, .ok []⟩]

/-- A locked block is at another address than it was given. -/
theorem ensure_moves_locked : ∃ u given,
    Run (When (fun _ v => v.env.Clean) (givenStep .x64)) (twoSlots, fun _ => none) movingRun
      (u, given) ∧
      u.Valid 0 ∧ ¬ u.IsSwapped 0 ∧ given 0 = some 0 ∧ (u.blocks 0).addr = 4096 :=
  ⟨_, _, given_snoc (given_snoc (given_snoc (given_snoc .nil (by decide) rfl) (by decide) rfl)
    (by decide) rfl) (by decide) rfl, by decide, by decide, by decide, by decide⟩

end Vin64.Vram
