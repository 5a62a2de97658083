import Vin64.Vram.Proofs.Stable

/-!
# Calls on blocks that are not in use

A block without flags has no page.  `RamSwapOut` is the one call that does not see this: it
stores the page at the address of the block and clears the slot there.
-/

namespace Vin64.Vram

open Vin64.Lib Vin64.Lib.Op Vin64.Utils RamManager

/-- The slot table, the bitmap, the RAM and all blocks but `pb` are as before. -/
structure RamManager.Undisturbed (s t : RamManager) (pb : Nat) : Prop where
  slots : t.mBlocks = s.mBlocks
  bitmap : t.mBlockBitMap = s.mBlockBitMap
  ram : ∀ a < s.ramSize, t.mRamData a = s.mRamData a
  blocks : ∀ q ≠ pb, t.blocks q = s.blocks q

/-- The call ends and disturbs no block but its own. -/
def LeavesOthers (t : Target) (e : Env) (c : Call) (s : RamManager) : Prop :=
  ∃ r u, exec t e c s = some (r, u) ∧ s.Undisturbed u (blockOf c)

/-- A `SwapOut` finds a clear bit in the bitmap, and its seek fails. -/
def Call.StopsEarly (s : RamManager) (e : Env) : Call → Prop
  | .swapOut _ _ => s.mBlockBitMap.find0.isSome ∧ ¬ seeks e.store (uOffset s.nextPF)
  | _ => True

variable {s s₀ : RamManager} {e : Env} {pb : Nat} {t : Target}

theorem RamManager.Undisturbed.refl (s : RamManager) (pb : Nat) : s.Undisturbed s pb :=
  ⟨rfl, rfl, fun _ _ => rfl, fun _ _ => rfl⟩

/-! ## SwapOut -/

/-- The page that is stored is coded in the RAM, and stays so. -/
theorem ram_stored_ne (a : Access) (j addr : Nat) :
    (s.stored a j (.ram addr)).mRamData addr ≠ s.mRamData addr := by
  have hself := congrFun (window_blit_self s.mRamData addr
    (codeBlockPage (window s.mRamData 4096 addr))) 0
  intro h
  exact codeBlockPage_ne _ 0 (hself.symm.trans h)

/-- The bitmap grows when it has no clear bit. -/
theorem bitmap_prealloc (hgrow : 0 < s.mGrowCount)
    (h : s.prealloc.mBlockBitMap = s.mBlockBitMap) : s.mBlockBitMap.find0.isSome := by
  cases hfind : s.mBlockBitMap.find0 with
  | some j => rfl
  | none =>
      have hbits := congrArg XBitMap.bits h
      simp only [prealloc, hfind, if_true, XBitMap.bits_resize] at hbits
      omega

theorem wlp_store_disturbs {a : Access} {j addr : Nat} :
    wlp (storeToStorage a j (getRamBuffer addr))
      (fun _ u => addr < s.ramSize ∧ u.mRamData addr ≠ s.mRamData addr)
      (fun _ u => (addr < s.ramSize ∧ u.mRamData addr ≠ s.mRamData addr) ∨
        ¬ seeks a (uOffset j) ∧ u = s) s := by
  by_cases hb : s.Holds (.ram addr)
  · have hlt : addr < s.ramSize := Nat.lt_of_lt_of_le (Nat.lt_add_of_pos_right (by decide)) hb
    apply wlp_storeToStorage
    · exact fun _ _ => ⟨hlt, ram_stored_ne .ok j addr⟩
    · exact fun hseek => Or.inr ⟨hseek, rfl⟩
    · exact fun _ _ => Or.inl ⟨hlt, ram_stored_ne a j addr⟩
  · unfold storeToStorage getRamBuffer
    by_cases hs : seeks a (uOffset j) = true
    · simp [hs, hb]
    · simp [hs]

theorem wlp_swapOut_disturbs (e : Env) (bForce : Bool) (hidle : (s.blocks pb).flags = 0#32)
    (hgrow : 0 < s.mGrowCount) : wlp (ramSwapOut e pb bForce) (fun _ u => ¬ s.Undisturbed u pb)
      (fun _ u => s.Undisturbed u pb → Call.StopsEarly s e (.swapOut pb bForce)) s := by
  have hzero : ∀ f : BitVec 32, (s.blocks pb).flags &&& f = 0#32 := by
    intro f
    rw [hidle]
    exact BitVec.zero_and
  simp only [ramSwapOut, wlp_bind, wlp_blockAt, hzero, ne_eq, not_true_eq_false, false_and, if_false,
    wlp_pageFilePreAlloc]
  apply wlp_mono wlp_store_disturbs
  · intro _ u hu
    obtain ⟨hlt, hne⟩ := hu
    simp only [wlp_mark, wlp_onBlockInvalid, wlp_modifyBlock, wlp_setSlot]
    exact fun _ hsame => hne (hsame.ram _ hlt)
  · intro _ u hu hsame
    rcases hu with ⟨hlt, hne⟩ | ⟨hseek, rfl⟩
    · exact absurd (hsame.ram _ hlt) hne
    · exact ⟨bitmap_prealloc hgrow hsame.bitmap, hseek⟩

theorem swapOut_stops {bForce : Bool} (hidle : (s.blocks pb).flags = 0#32)
    (hstop : Call.StopsEarly s e (.swapOut pb bForce)) :
    ramSwapOut e pb bForce s = some (.error .E_FAIL, s) := by
  have hzero : ∀ f : BitVec 32, (s.blocks pb).flags &&& f = 0#32 := by
    intro f
    rw [hidle]
    exact BitVec.zero_and
  obtain ⟨hfind, hseek⟩ := hstop
  obtain ⟨j, hj⟩ := Option.isSome_iff_exists.1 hfind
  have hnext : s.nextPF = j := by
    unfold nextPF
    rw [hj]
    rfl
  have hpre : pageFilePreAlloc s = some (.ok j, s) := by
    unfold pageFilePreAlloc
    rw [bind_ok rfl, hj]
    rfl
  have hstore : storeToStorage e.store j (getRamBuffer (s.blocks pb).addr) s =
      some (.error .E_FAIL, s) := by
    unfold storeToStorage
    rw [← hnext, if_pos hseek]
    rfl
  have hblock : blockAt pb s = some (.ok (s.blocks pb), s) := rfl
  unfold ramSwapOut
  rw [bind_ok hblock, hzero, if_neg (by simp), hzero, if_neg (by simp), bind_ok hpre,
    bind_error hstore]

/-! ## The other calls -/

/-- A call on a block without flags that does not allocate it or swap it out. -/
theorem exec_idle {c : Call} (hidle : (s.blocks (blockOf c)).flags = 0#32)
    (halloc : ∀ pb flags, c ≠ .alloc pb flags) (hout : ∀ pb bForce, c ≠ .swapOut pb bForce) :
    ∃ r, exec t e c s = some (r, s) := by
  have hblock : ∀ pb, (blockAt pb : Ram RamBlock) s = some (.ok (s.blocks pb), s) := fun _ => rfl
  have hzero : (s.blocks (blockOf c)).flags &&& BF_SWAPPED = 0#32 := by
    rw [hidle]
    exact BitVec.zero_and
  have haccess : ∀ o, ramDirectAccess e (blockOf c) o s = some (.error .E_UNEXPECTED, s) := by
    intro o
    unfold ramDirectAccess
    rw [bind_ok (hblock _), if_pos hidle]
    rfl
  cases c with
  | alloc pb flags => exact absurd rfl (halloc pb flags)
  | swapOut pb bForce => exact absurd rfl (hout pb bForce)
  | free pb =>
      have hfree : ramFreeAddress pb s = some (.ok (), s) := by
        have hidle' : (s.blocks pb).flags = 0#32 := hidle
        unfold ramFreeAddress
        rw [bind_ok (hblock _), if_pos hidle']
        rfl
      exact ⟨_, bind_ok hfree⟩
  | swapIn pb =>
      have hin : ramSwapIn e pb s = some (.error .E_FAIL, s) := by
        have hzero' : (s.blocks pb).flags &&& BF_SWAPPED = 0#32 := hzero
        unfold ramSwapIn
        rw [bind_ok (hblock _), if_pos hzero']
        rfl
      exact ⟨_, bind_error hin⟩
  | ensure pb =>
      have hensure : ensureRamBlock e pb s = some (.error .E_UNEXPECTED, s) := by
        have hidle' : (s.blocks pb).flags = 0#32 := hidle
        unfold ensureRamBlock
        rw [bind_ok (hblock _), if_pos hidle']
        rfl
      exact ⟨_, bind_error hensure⟩
  | directAccess pb => exact ⟨_, bind_error (haccess none)⟩
  | directWrite pb off p cb =>
      by_cases hbig : (off + cb) % 2 ^ t.sizeBits > VM_PAGE_SIZE
      · have hwrite : ramDirectWrite t e pb off p cb s = some (.error .E_FAIL, s) := by
          unfold ramDirectWrite
          rw [if_pos hbig]
          rfl
        exact ⟨_, bind_error hwrite⟩
      · have hwrite : ramDirectWrite t e pb off p cb s = some (.error .E_UNEXPECTED, s) := by
          unfold ramDirectWrite
          rw [if_neg hbig]
          exact bind_error (haccess _)
        exact ⟨_, bind_error hwrite⟩
  | directRead pb off cb =>
      by_cases hbig : (off + cb) % 2 ^ t.sizeBits > VM_PAGE_SIZE
      · have hread : ramDirectRead t e pb off cb s = some (.error .E_FAIL, s) := by
          unfold ramDirectRead
          rw [if_pos hbig]
          rfl
        exact ⟨_, hread⟩
      · have hread : ramDirectRead t e pb off cb s = some (.error .E_UNEXPECTED, s) := by
          unfold ramDirectRead
          rw [if_neg hbig]
          exact bind_error (haccess _)
        exact ⟨_, hread⟩

/-- A call on a block without flags leaves everything else as it is exactly when it is no
`SwapOut`, or one that stops before it writes. -/
theorem idle_leavesOthers_iff {vs : List Event} {c : Call} (hs₀ : s₀.Started)
    (hrun : Run (step t) s₀ vs s) (hidle : (s.blocks (blockOf c)).flags = 0#32)
    (halloc : ∀ pb flags, c ≠ .alloc pb flags) : LeavesOthers t e c s ↔ c.StopsEarly s e := by
  have hgrow : 0 < s.mGrowCount := by
    have hsizes : s.sizes = s₀.sizes := (stable_sizes s₀.sizes).run rfl hrun
    have hsame : s.mGrowCount = s₀.mGrowCount := congrArg Prod.snd hsizes
    have hs := hs₀.grows
    omega
  by_cases hout : ∀ pb bForce, c ≠ .swapOut pb bForce
  · obtain ⟨r, hr⟩ := exec_idle (t := t) (e := e) hidle halloc hout
    refine iff_of_true ⟨r, s, hr, .refl s _⟩ ?_
    cases c with
    | swapOut pb bForce => exact absurd rfl (hout pb bForce)
    | _ => trivial
  · simp only [ne_eq, not_forall, Classical.not_not] at hout
    obtain ⟨pb, bForce, rfl⟩ := hout
    constructor
    · intro h
      obtain ⟨r, u, hr, hsame⟩ := h
      obtain ⟨r', hrun', -⟩ := bind_pure_eq hr
      have hwlp := wlp_swapOut_disturbs e bForce hidle hgrow
      cases r' with
      | ok _ => exact absurd hsame (wlp_ok hwlp hrun')
      | error _ => exact wlp_error hwlp hrun' hsame
    · intro hstop
      exact ⟨_, s, bind_error (swapOut_stops hidle hstop), .refl s _⟩

/-- A block that was never allocated is asked for, and block 0 stays in the slot. -/
theorem idle_ensure_resident : ∃ s, Run (step .x64) oneSlot [⟨.alloc 0 0#32, quiet, .ok []⟩] s ∧
    s.mBlocks = [some 0] ∧ LeavesOthers .x64 quiet (.ensure 1) s := by
  obtain ⟨s, hs, hslot, hidle⟩ : ∃ s, Run (step .x64) oneSlot [⟨.alloc 0 0#32, quiet, .ok []⟩] s ∧
      s.mBlocks = [some 0] ∧ (s.blocks (blockOf (.ensure 1))).flags = 0#32 :=
    ⟨_, .snoc .nil rfl, rfl, rfl⟩
  exact ⟨s, hs, hslot, (idle_leavesOthers_iff oneSlot_started hs hidle (by simp)).2 trivial⟩

/-- A block that was never allocated is swapped out, and the resident block loses its slot. -/
theorem idle_swapOut_takes_slot : ∃ s u,
    Run (step .x64) oneSlot [⟨.alloc 0 0#32, quiet, .ok []⟩] s ∧ (s.blocks 1).flags = 0#32 ∧
    exec .x64 quiet (.swapOut 1 false) s = some (.ok [], u) ∧ s.mBlocks = [some 0] ∧
    u.mBlocks = [none] ∧ u.Valid 0 ∧ ¬ LeavesOthers .x64 quiet (.swapOut 1 false) s := by
  have hrun : ∃ s u, Run (step .x64) oneSlot [⟨.alloc 0 0#32, quiet, .ok []⟩] s ∧
      (s.blocks 1).flags = 0#32 ∧ exec .x64 quiet (.swapOut 1 false) s = some (.ok [], u) ∧
      s.mBlocks = [some 0] ∧ u.mBlocks = [none] ∧ u.Valid 0 :=
    ⟨_, _, .snoc .nil rfl, rfl, rfl, rfl, rfl, by decide⟩
  obtain ⟨s, u, hs, hidle, hout, hbefore, hafter, hvalid⟩ := hrun
  refine ⟨s, u, hs, hidle, hout, hbefore, hafter, hvalid, fun h => ?_⟩
  obtain ⟨r, u', hr, hsame⟩ := h
  obtain ⟨-, rfl⟩ := outcome_unique hout hr
  have hslots := hsame.slots
  rw [hbefore, hafter] at hslots
  cases hslots

end Vin64.Vram
