import Vin64.Vm.Proofs.Rules
import Vin64.Vram.Proofs.Calls

/-!
# What the calls of the manager do to the blocks

A call is one of the moves of `vos/vram.cpp`, or it fails.  Only a write through the pointer
of `RamDirectAccess` is another: it goes to the bytes at the index of the block's slot.
-/

namespace Vin64.Vm

open Vin64.Lib Vin64.Lib.Op Vin64.Utils Vin64.Vram Vin64.Vram.RamManager

variable {s u : RamManager} {e : Env} {i q : Nat}

/-- What a call may leave. -/
inductive Moved (s : RamManager) (e : Env) : Call → RamManager → Prop
  | failed {c : Call} {u : RamManager} : Fails e.transfers s u → Moved s e c u
  | placed {q i : Nat} {flags f : BitVec 32} {u t : RamManager} : s.place q = none →
      MadeRoom s u i → Puts u t i q ((u.blocks q).allocated i f) → Moved s e (.alloc q flags) t
  | lifted {q : Nat} {u : RamManager} : Lifts s u q (s.blocks q).freed → Moved s e (.free q) u
  | left {q i j : Nat} {bForce : Bool} {u : RamManager} : Evicts s u i q j →
      Moved s e (.swapOut q bForce) u
  | fetched {c : Call} {i : Nat} {u : RamManager} : (∀ q bForce, c ≠ .swapOut q bForce) →
      Fetches s u i (blockOf c) → Moved s e c u
  | rewritten {c : Call} {pg : Page} {u : RamManager} : Rewrites s u (blockOf c) pg → Moved s e c u
  | overwritten {q off cb : Nat} {p : Nat → UInt8} : ¬ s.IsSwapped q →
      Moved s e (.directWrite q off p cb)
        (s.setPage (.ram ((s.blocks q).addr / 4096))
          (overwrite (s.page (.ram ((s.blocks q).addr / 4096))) off p cb))

/-- The slots and the blocks do not depend on the bytes of the pages. -/
theorem invariant_setPage (hs : s.Invariant) (b : Buffer) (p : Page) : (s.setPage b p).Invariant := by
  cases b <;> exact ⟨hs.slot_iff, hs.file, hs.unshared, hs.home, hs.flags, hs.grows, hs.low⟩

theorem Moved.refl (s : RamManager) (e : Env) (c : Call) : Moved s e c s := .failed (.refl _ s)

/-! ## The exchange of pages -/

theorem wlp_makeRoom (hs : s.Invariant) (hi : i < s.mBlocks.length) :
    wlp (swapRamAndPageFile e i none) (fun _ u => MadeRoom s u i)
      (fun _ u => Fails e.transfers s u) s := by
  rw [swap_none_eq]
  exact wlp_of_wp (wp_makeRoom hs hi (fun _ hu => hu) fun _ hu => hu)

theorem wlp_fetch {c j : Nat} (hs : s.Invariant) (hslots : s.mBlocks.length ≤ maxSlots)
    (hi : i < s.mBlocks.length) (hc : s.place c = some (.file j)) :
    wlp (swapRamAndPageFile e i (some c)) (fun _ u => Fetches s u i c)
      (fun _ u => Fails e.transfers s u) s := by
  rw [wlp_congr (swap_eq hslots i (some c))]
  exact wlp_of_wp (wp_fetch hs hi hc (fun _ hu => hu) fun _ hu => hu)

/-! ## The calls of `vos/vram.cpp` -/

theorem blockAt_eq (q : Nat) : (blockAt q : Ram RamBlock) s = some (.ok (s.blocks q), s) := rfl

/-- Reading the block once more makes no difference. -/
theorem ramFreeAddress_eq (q : Nat) : ramFreeAddress q s = Vram.ramFreeAddress q s := by
  unfold ramFreeAddress Vram.ramFreeAddress
  rw [bind_ok (blockAt_eq q), bind_ok (blockAt_eq q)]
  by_cases h : (s.blocks q).flags = 0#32
  · rw [if_pos h, if_pos h]
  · rw [if_neg h, if_neg h]
    unfold ramFreeBody
    exact bind_ok (blockAt_eq q)

theorem ramSwapOut_eq (q : Nat) (bForce : Bool) :
    ramSwapOut e q bForce s = Vram.ramSwapOut e.transfers q bForce s := by
  unfold ramSwapOut Vram.ramSwapOut
  rw [bind_ok (blockAt_eq q), bind_ok (blockAt_eq q)]
  by_cases hout : (s.blocks q).flags &&& BF_SWAPPED ≠ 0#32
  · rw [if_pos hout, if_pos hout]
  · rw [if_neg hout, if_neg hout]
    by_cases hlock : (s.blocks q).flags &&& BF_LOCKED ≠ 0#32 ∧ ¬ bForce
    · rw [if_pos hlock, if_pos hlock]
    · rw [if_neg hlock, if_neg hlock]
      unfold ramSwapOutBody
      exact bind_ok (blockAt_eq q)

/-- The access to a block in the page file is that of `vos/vram.cpp`. -/
theorem ramDirectAccess_eq (h : s.IsSwapped q) (o : Buffer) :
    ramDirectAccess e q (some o) s = Vram.ramDirectAccess e.transfers q (some o) s := by
  have hne : (s.blocks q).flags ≠ 0#32 := by
    intro hzero
    apply h
    rw [hzero]
    exact BitVec.zero_and
  have hout : (s.blocks q).flags &&& BF_SWAPPED ≠ 0#32 := h
  unfold ramDirectAccess Vram.ramDirectAccess
  rw [bind_ok (blockAt_eq q), bind_ok (blockAt_eq q), if_neg hne, if_neg hne, if_pos hout,
    if_pos hout]
  rfl

/-- An operation that begins in the same way is the same. -/
theorem bind_congr_left {α β : Type} {x y : Ram α} (h : x s = y s) (f : α → Ram β) :
    (x >>= f) s = (y >>= f) s := by
  show andThen x f s = andThen y f s
  unfold andThen
  rw [h]

theorem ramDirectWrite_eq (tgt : Target) {off cb : Nat} {p : Nat → UInt8} (h : s.IsSwapped q) :
    ramDirectWrite tgt e q off p cb s = Vram.ramDirectWrite tgt e.transfers q off p cb s := by
  unfold ramDirectWrite Vram.ramDirectWrite
  by_cases hbig : (off + cb) % 2 ^ tgt.sizeBits > VM_PAGE_SIZE
  · rw [if_pos hbig, if_pos hbig]
  · rw [if_neg hbig, if_neg hbig]
    exact bind_congr_left (ramDirectAccess_eq h .temp) _

theorem ramDirectRead_eq (tgt : Target) {off cb : Nat} (h : s.IsSwapped q) :
    ramDirectRead tgt e q off cb s = Vram.ramDirectRead tgt e.transfers q off cb s := by
  unfold ramDirectRead Vram.ramDirectRead
  by_cases hbig : (off + cb) % 2 ^ tgt.sizeBits > VM_PAGE_SIZE
  · rw [if_pos hbig, if_pos hbig]
  · rw [if_neg hbig, if_neg hbig]
    exact bind_congr_left (ramDirectAccess_eq h .temp) _

/-! ## The calls -/

variable {flags : BitVec 32}

/-- An allocation that succeeds puts the block in a slot it made free. -/
theorem wlp_alloc_puts (hs : s.Invariant) (hslots : s.mBlocks.length ≤ maxSlots)
    (hq : s.place q = none) :
    wlp (ramAllocAddress e q flags)
      (fun _ t => ∃ i f u, MadeRoom s u i ∧ Puts u t i q ((u.blocks q).allocated i f))
      (fun _ u => Fails e.transfers s u) s := by
  simp only [ramAllocAddress, wlp_bind, wlp_find]
  refine ⟨fun i hi => ?_, fun _ => .refl _ s⟩
  have hlt := (find_chosen hi).1
  apply wlp_mono (wlp_makeRoom hs hlt)
  · intro _ u hroom
    have hnone := hroom.place_none hs hq
    have hput := puts_allocated flags hroom.slots.1 fun k hk => by
      rw [hnone] at hk
      simp at hk
    simp only [wlp_modifyBlock, wlp_setSlot, ramAddress_of_lt (Nat.lt_of_lt_of_le hlt hslots)]
    intro _
    exact ⟨i, flags, u, hroom, hput⟩
  · exact fun _ u hu => hu

/-- A swap-in that succeeds found the block in its slot, or it fetched it. -/
theorem wlp_swapIn_fetches (hs : s.Invariant) (hslots : s.mBlocks.length ≤ maxSlots) :
    wlp (ramSwapIn e q)
      (fun _ t => (¬ s.IsSwapped q ∧ t = s) ∨ (s.IsSwapped q ∧ ∃ i, Fetches s t i q))
      (fun _ u => Fails e.transfers s u) s := by
  have hfetch : ∀ i, i < s.mBlocks.length → s.IsSwapped q →
      wlp (swapRamAndPageFile e i (some q))
        (fun _ t => (¬ s.IsSwapped q ∧ t = s) ∨ (s.IsSwapped q ∧ ∃ i, Fetches s t i q))
        (fun _ u => Fails e.transfers s u) s := by
    intro i hi hswap
    apply wlp_mono (wlp_fetch hs hslots hi (place_of_swapped hs hswap))
    · exact fun _ u hu => .inr ⟨hswap, i, hu⟩
    · exact fun _ u hu => hu
  simp only [ramSwapIn, ramSwapInBody, wlp_bind, wlp_blockAt, wlp_ite, wlp_pure, wlp_find]
  refine ⟨fun hres => .inl ⟨not_not.2 hres, trivial⟩, fun hswap => ⟨fun _ => ?_, fun _ =>
    ⟨fun i hi => hfetch i (find_chosen hi).1 hswap, fun _ => .refl _ s⟩⟩⟩
  obtain ⟨i, hi, haddr⟩ := hs.home q (by rw [place_of_swapped hs hswap]; simp)
  have hdiv : (s.blocks q).addr / VM_PAGE_SIZE = i := by
    rw [haddr]
    exact Nat.mul_div_cancel i (by decide)
  rw [hdiv]
  exact hfetch i hi hswap

theorem wlp_ensure_moved (hs : s.Invariant) (hslots : s.mBlocks.length ≤ maxSlots) :
    wlp (ensureRamBlock e q) (fun _ u => Moved s e (.ensure q) u)
      (fun _ u => Moved s e (.ensure q) u) s := by
  have hrefl := Moved.refl s e (.ensure q)
  simp only [ensureRamBlock, wlp_bind, wlp_blockAt, wlp_ite, wlp_fail, wlp_pure, wlp_find]
  refine ⟨fun _ => hrefl, fun _ => ⟨fun _ => hrefl, fun hswap => ⟨fun i hi => ?_, fun _ => hrefl⟩⟩⟩
  apply wlp_mono (wlp_fetch hs hslots (find_chosen hi).1 (place_of_swapped hs hswap))
  · exact fun _ u hu => .fetched (by simp) hu
  · exact fun _ u hu => .failed hu

theorem wlp_access_moved (hs : s.Invariant) (hslots : s.mBlocks.length ≤ maxSlots) :
    wlp (ramDirectAccess e q none) (fun _ u => Moved s e (.directAccess q) u)
      (fun _ u => Moved s e (.directAccess q) u) s := by
  have hrefl := Moved.refl s e (.directAccess q)
  simp only [ramDirectAccess, wlp_bind, wlp_blockAt, wlp_ite, wlp_fail, wlp_pure]
  refine ⟨fun _ => hrefl, fun _ => ⟨fun _ => ?_, fun _ => hrefl⟩⟩
  apply wlp_mono (wlp_swapIn_fetches hs hslots)
  · intro _ u hu
    rcases hu with ⟨-, rfl⟩ | ⟨-, i, hu⟩
    · exact hrefl
    · exact .fetched (by simp) hu
  · exact fun _ u hu => .failed hu

theorem wlp_write_moved (tgt : Target) {off cb : Nat} {p : Nat → UInt8} (hs : s.Invariant)
    (hin : off + cb ≤ 4096) :
    wlp (ramDirectWrite tgt e q off p cb) (fun _ u => Moved s e (.directWrite q off p cb) u)
      (fun _ u => Moved s e (.directWrite q off p cb) u) s := by
  by_cases hswap : s.IsSwapped q
  · rw [wlp_congr (ramDirectWrite_eq tgt hswap)]
    apply wlp_of_wp
    apply wp_ramDirectWrite tgt hs hin
    · intro u hu
      cases hu with
      | write _ hwrite => exact .rewritten hwrite
    · exact fun _ u hu _ => .failed hu
  · have hres : (s.blocks q).flags &&& BF_SWAPPED = 0#32 := not_not.1 hswap
    simp only [ramDirectWrite, ramDirectAccess, wlp_ite, wlp_bind, wlp_blockAt, wlp_fail, wlp_pure,
      hres, ne_eq, not_true_eq_false, copyInto, wlp_readPage, wlp_writePage, getRamBuffer,
      wlp_fault]
    have hrefl := Moved.refl s e (.directWrite q off p cb)
    refine ⟨fun _ => hrefl, fun _ => ⟨fun _ => hrefl, fun _ => ⟨False.elim, fun _ _ => ?_⟩⟩⟩
    refine ⟨fun _ _ => ⟨fun _ => .overwritten hswap, fun hne => ?_⟩, fun _ => trivial⟩
    exact absurd hres hne

theorem wlp_read_moved (tgt : Target) {off cb : Nat} (hs : s.Invariant) (hin : off + cb ≤ 4096) :
    wlp (ramDirectRead tgt e q off cb) (fun _ u => Moved s e (.directRead q off cb) u)
      (fun _ u => Moved s e (.directRead q off cb) u) s := by
  by_cases hswap : s.IsSwapped q
  · rw [wlp_congr (ramDirectRead_eq tgt hswap)]
    apply wlp_of_wp
    apply wp_ramDirectRead tgt hs hin
    · intro u bytes hu
      cases hu with
      | read _ _ hread => exact .rewritten hread
    · exact fun _ u hu _ => .failed hu
  · have hres : (s.blocks q).flags &&& BF_SWAPPED = 0#32 := not_not.1 hswap
    have hrefl := Moved.refl s e (.directRead q off cb)
    simp only [ramDirectRead, ramDirectAccess, wlp_ite, wlp_bind, wlp_blockAt, wlp_fail, wlp_pure,
      hres, ne_eq, not_true_eq_false, copyFrom, wlp_readPage]
    refine ⟨fun _ => hrefl, fun _ => ⟨fun _ => hrefl, fun _ => ⟨False.elim, fun _ _ => ?_⟩⟩⟩
    rw [dif_pos hin]
    exact hrefl

/-- A call as the manager is meant to be used. -/
theorem wlp_exec_moved (tgt : Target) {c : Call} (hs : s.Invariant)
    (hslots : s.mBlocks.length ≤ maxSlots) (hproper : c.Proper s) :
    wlp (exec tgt e c) (fun _ u => Moved s e c u) (fun _ u => Moved s e c u) s := by
  have hret : ∀ {x : Ram Unit}, wlp x (fun _ u => Moved s e c u) (fun _ u => Moved s e c u) s →
      wlp (x >>= fun _ => pure ([] : List UInt8)) (fun _ u => Moved s e c u)
        (fun _ u => Moved s e c u) s := by
    intro x hx
    rw [wlp_bind]
    exact hx
  cases c with
  | alloc q flags =>
      have hplace : s.place q = none := RamBlock.place_eq_none.2 (not_not.1 hproper)
      apply hret
      apply wlp_mono (wlp_alloc_puts hs hslots hplace)
      · intro _ t ht
        obtain ⟨i, f, u, hroom, hput⟩ := ht
        exact .placed hplace hroom hput
      · exact fun _ u hu => .failed hu
  | free q =>
      apply hret
      rw [wlp_congr (ramFreeAddress_eq q)]
      apply wlp_of_wp
      apply wp_ramFreeAddress (e := quiet) hs
      intro u hu
      cases hu with
      | freeUnused _ => exact .refl s e _
      | free hlift _ => exact .lifted hlift
  | swapOut q bForce =>
      apply hret
      rw [wlp_congr (ramSwapOut_eq q bForce)]
      apply wlp_of_wp
      apply wp_ramSwapOut hs hproper
      · intro u hu
        cases hu with
        | alreadyOut _ => exact .refl s e _
        | swapOut hev => exact .left hev
      · exact fun u hu => .failed hu
  | swapIn q =>
      apply hret
      apply wlp_mono (wlp_swapIn_fetches hs hslots)
      · intro _ u hu
        rcases hu with ⟨-, rfl⟩ | ⟨-, i, hu⟩
        · exact .refl _ e _
        · exact .fetched (by simp) hu
      · exact fun _ u hu => .failed hu
  | ensure q => exact hret (wlp_ensure_moved hs hslots)
  | directAccess q =>
      rw [exec, wlp_bind]
      exact wlp_access_moved hs hslots
  | directWrite q off p cb => exact hret (wlp_write_moved tgt hs hproper)
  | directRead q off cb => exact wlp_read_moved tgt hs hproper

end Vin64.Vm
