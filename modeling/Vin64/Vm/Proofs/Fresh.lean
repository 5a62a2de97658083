import Vin64.Vram.Proofs.Fresh
import Vin64.Vm.Proofs.Alloc
import Vin64.Vm.Proofs.Direct

/-!
# The page of a new block in both managers

Both searches end at the first free slot, and both exchanges leave its page as it is.
-/

namespace Vin64.Vm

open Vin64.Lib Vin64.Lib.Op Vin64.Utils Vin64.Vram Vin64.Vram.RamManager

variable {s u : RamManager} {e : Env} {pb i : Nat}

/-! ## The search for a slot -/

theorem findLoop_stops (blocks : Nat → RamBlock) (change : Nat → Bool) (maxRefs : Nat) :
    StopsAtFree (findLoop blocks change maxRefs) where
  free := fun _ _ _ => rfl
  used := by
    intro pref ys i swapid
    rw [findLoop]
    split <;> exact ⟨_, rfl⟩

theorem find_free (change : Nat → Bool) (hfree : s.mBlocks[i]? = some none)
    (hfirst : ∀ k < i, s.mBlocks[k]? ≠ some none) : findFreeOrSwappable s change = some i := by
  have hlt := (List.getElem?_eq_some_iff.1 hfree).1
  have hstops := findLoop_stops s.blocks change s.mBlocks.length
  have hfound := hstops.first s.mBlocks.length hfree hfirst
  simp [findFreeOrSwappable, hfound, hlt]

theorem first_of_find {change : Nat → Bool} (hfind : findFreeOrSwappable s change = some i) :
    ∀ k < i, s.mBlocks[k]? ≠ some none := by
  unfold findFreeOrSwappable at hfind
  simp only [Option.ite_none_right_eq_some, Option.some.injEq] at hfind
  obtain ⟨-, rfl⟩ := hfind
  exact (findLoop_stops s.blocks change s.mBlocks.length).none_before

/-! ## What an allocation leaves in the RAM -/

theorem alloc_takes {t : Target} {flags : BitVec 32} {bytes : List UInt8}
    (h : exec t e (.alloc pb flags) s = some (.ok bytes, u)) :
    ∃ i, findFreeOrSwappable s e.change = some i ∧ Takes s u pb i flags := by
  obtain ⟨r, hr, hb⟩ := bind_pure_eq h
  cases r with
  | error er => cases hb
  | ok _ => exact wlp_ok wlp_alloc_takes hr

/-- Where an allocation does not clear a slot, the RAM is as it was. -/
theorem Takes.byte {flags : BitVec 32} (h : Takes s u pb i flags) (c : Nat) :
    u.mRamData c =
      if c / 4096 = i ∧ s.mBlocks[i]? ≠ some none then 0 else s.mRamData c := by
  have hin : c % 4096 < 4096 := Nat.mod_lt _ (by decide)
  have hbyte : ∀ v : RamManager, v.mRamData c = v.slotPage (c / 4096) ⟨c % 4096, hin⟩ := by
    intro v
    show v.mRamData c = v.mRamData (c / 4096 * 4096 + c % 4096)
    rw [Nat.div_add_mod']
  rw [hbyte u, hbyte s]
  by_cases hc : c / 4096 = i
  · subst hc
    rw [h.page]
    by_cases hfree : s.mBlocks[c / 4096]? = some none <;> simp [hfree]
  · rw [h.bytes _ hc, if_neg fun h => hc h.1]

/-! ## Reading a new block -/

/-- Every byte that a direct read of the new block meets, from the index of its slot on, is zero
or in the slot, which is cleared because it was taken from another block. -/
def DirectClean (s : RamManager) (change : Nat → Bool) : Prop :=
  ∀ i ∈ findFreeOrSwappable s change, ∀ k < VM_PAGE_SIZE,
    s.mRamData (i + k) = 0 ∨ (i + k) / VM_PAGE_SIZE = i ∧ s.mBlocks[i]? ≠ some none

/-- A direct read of a new block returns bytes of the buffer at the index of its slot. -/
theorem wp_read_new (t : Target) {off cb : Nat} {flags : BitVec 32} (hslots : i < maxSlots)
    (h : Takes s u pb i flags) (hle : off + cb ≤ 4096) :
    wp (exec t e (.directRead pb off cb)) (fun bytes _ => IsSlice (u.page (.ram i)) off cb bytes)
      (fun _ _ => False) u := by
  have hres : u.Resident pb := by
    obtain ⟨hvalid, hswap, -⟩ := RamBlock.place_eq_slot.1
      (RamBlock.place_allocated (b := u.blocks pb) (i := i) (f := flags))
    unfold Resident Valid IsSwapped
    rw [h.flags]
    exact ⟨hvalid, not_not.2 hswap⟩
  have haddr : (u.blocks pb).addr / VM_PAGE_SIZE = i := by
    rw [h.addr, ramAddress_of_lt hslots]
    exact Nat.mul_div_cancel i (by decide)
  have hsmall : ¬ (off + cb) % 2 ^ t.sizeBits > VM_PAGE_SIZE :=
    Nat.not_lt.2 (Nat.le_trans (Nat.mod_le _ _) hle)
  have hholds : u.Holds (.ram i) := by
    have hlen : u.mBlocks.length = s.mBlocks.length := by rw [h.slots, List.length_set]
    have hbound := h.bound
    show i + VM_PAGE_SIZE ≤ u.mBlocks.length * VM_PAGE_SIZE
    rw [hlen]
    unfold VM_PAGE_SIZE
    omega
  rw [exec, ramDirectRead, if_neg hsmall, wp_bind, wp_of_ok (access_resident _ hres), haddr]
  exact wp_copyFrom hholds hle fun bytes hbytes => hbytes

/-- After a successful allocation of the manager of `vos/vram.cpp` the page of the block reads as
zero exactly when no slot was free or the page of the first free slot held zeros.  The same holds
of the page at the block's address in the manager of the test program; its direct reads take the
buffer at the index of the slot and return zeros exactly when that is clean. -/
theorem newBlock_readsZero_iff (t : Target) {pb : Nat} {flags : BitVec 32} {bytes : List UInt8} :
    (∀ (e : Vram.Env), Vram.exec t e (.alloc pb flags) s = some (.ok bytes, u) →
      (ReadsZero t u pb ↔ FirstFreeClean s)) ∧
    ∀ (e : Env), s.mBlocks.length ≤ maxSlots → exec t e (.alloc pb flags) s = some (.ok bytes, u) →
      (u.page (getRamBuffer (u.blocks pb).addr) = (fun _ => 0) ↔ FirstFreeClean s) ∧
      ((∀ e' off cb, off + cb ≤ VM_PAGE_SIZE →
        ∃ v, exec t e' (.directRead pb off cb) u = some (.ok (List.replicate cb 0), v)) ↔
          DirectClean s e.change) := by
  refine ⟨fun e h => alloc_readsZero_iff t h, fun e hslots h => ?_⟩
  obtain ⟨i, hfind, htakes⟩ := alloc_takes h
  have hi : i < maxSlots := Nat.lt_of_lt_of_le htakes.bound hslots
  constructor
  · have hpage : u.page (getRamBuffer (u.blocks pb).addr) = u.slotPage i := by
      rw [htakes.addr, ramAddress_of_lt hi]
      rfl
    rw [hpage, htakes.page]
    refine clean_iff (first_of_find hfind) fun k hk hbefore => ?_
    rw [find_free e.change hk hbefore] at hfind
    exact (Option.some.inj hfind).symm
  · have hreads := reads_zeros_iff (fun e' off cb => exec t e' (.directRead pb off cb)) calm
      fun e' off cb hle => wp_read_new t hi htakes hle
    refine hreads.trans ?_
    unfold DirectClean
    rw [hfind]
    simp only [Option.mem_some_iff, forall_eq']
    constructor
    · intro hzero k hk
      have hbyte : u.mRamData (i + k) = 0 := congrFun hzero ⟨k, hk⟩
      rw [htakes.byte] at hbyte
      by_cases hclear : (i + k) / 4096 = i ∧ s.mBlocks[i]? ≠ some none
      · exact .inr hclear
      · rw [if_neg hclear] at hbyte
        exact .inl hbyte
    · intro hclean
      funext k
      show u.mRamData (i + k) = 0
      rw [htakes.byte]
      split
      · rfl
      · exact (hclean k k.isLt).resolve_right ‹_›

/-- A new block of a new manager reads as zero. -/
theorem newBlock_readsZero_oneSlot :
    (∃ u, Vram.exec .x64 quiet (.alloc 0 0#32) oneSlot = some (.ok [], u) ∧ ReadsZero .x64 u 0) ∧
    ∃ u, exec .x64 calm (.alloc 0 0#32) oneSlot = some (.ok [], u) ∧
      u.page (getRamBuffer (u.blocks 0).addr) = (fun _ => 0) ∧
      ∃ v, exec .x64 calm (.directRead 0 5 3) u = some (.ok [0, 0, 0], v) := by
  have hclean : FirstFreeClean oneSlot := fun _ _ _ => rfl
  have hvos : ∃ u, Vram.exec .x64 quiet (.alloc 0 0#32) oneSlot = some (.ok [], u) := ⟨_, rfl⟩
  have hvm : ∃ u, exec .x64 calm (.alloc 0 0#32) oneSlot = some (.ok [], u) := ⟨_, rfl⟩
  obtain ⟨u, hu⟩ := hvos
  obtain ⟨w, hw⟩ := hvm
  obtain ⟨hpage, hreads⟩ := (newBlock_readsZero_iff .x64).2 calm (by decide) hw
  refine ⟨⟨u, hu, ((newBlock_readsZero_iff .x64).1 quiet hu).2 hclean⟩, w, hw, hpage.2 hclean, ?_⟩
  exact hreads.2 (fun _ _ _ _ => .inl rfl) calm 5 3 (by decide)

end Vin64.Vm
