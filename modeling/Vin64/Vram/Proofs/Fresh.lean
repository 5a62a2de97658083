import Vin64.Vram.Proofs.Calls

/-!
# The page of a new block

The slot of a new block is the first free one, or one that is taken from another block.
Only the latter is cleared.
-/

namespace Vin64.Vram

open Vin64.Lib Vin64.Lib.Op Vin64.Utils RamManager

variable {s u : RamManager} {e : Env}

/-! ## The search for a slot -/

/-- A search from slot to slot that ends at a free one. -/
structure StopsAtFree (loop : List (Option Nat) → Nat → Nat → Nat) : Prop where
  free : ∀ ys i swapid, loop (none :: ys) i swapid = i
  used : ∀ pb ys i swapid, ∃ swapid', loop (some pb :: ys) i swapid = loop ys (i + 1) swapid'

namespace StopsAtFree

variable {loop : List (Option Nat) → Nat → Nat → Nat} (h : StopsAtFree loop)

include h

theorem append (xs ys : List (Option Nat)) (i swapid : Nat) (hxs : none ∉ xs) :
    loop (xs ++ none :: ys) i swapid = i + xs.length := by
  induction xs generalizing i swapid with
  | nil => exact h.free ys i swapid
  | cons v xs ih =>
      rw [List.mem_cons, not_or] at hxs
      cases v with
      | none => exact absurd rfl hxs.1
      | some pb =>
          obtain ⟨swapid', hnext⟩ := h.used pb (xs ++ none :: ys) i swapid
          rw [List.cons_append, hnext, ih _ _ hxs.2, List.length_cons]
          omega

/-- The first free slot is found. -/
theorem first {slots : List (Option Nat)} {i : Nat} (swapid : Nat) (hfree : slots[i]? = some none)
    (hfirst : ∀ k < i, slots[k]? ≠ some none) : loop slots 0 swapid = i := by
  obtain ⟨hlt, hget⟩ := List.getElem?_eq_some_iff.1 hfree
  have hsplit : slots = slots.take i ++ none :: slots.drop (i + 1) := by
    rw [← hget, List.getElem_cons_drop hlt, List.take_append_drop]
  have htake : none ∉ slots.take i := by
    intro hmem
    obtain ⟨k, hk⟩ := List.mem_iff_getElem?.1 hmem
    rw [List.getElem?_take] at hk
    by_cases hki : k < i
    · rw [if_pos hki] at hk
      exact hfirst k hki hk
    · rw [if_neg hki] at hk
      simp at hk
  have hfound := h.append (slots.take i) (slots.drop (i + 1)) 0 swapid htake
  rw [← hsplit, List.length_take, Nat.min_eq_left (Nat.le_of_lt hlt), Nat.zero_add] at hfound
  exact hfound

/-- No slot before the one that is found is free. -/
theorem none_before {slots : List (Option Nat)} {swapid : Nat} :
    ∀ k < loop slots 0 swapid, slots[k]? ≠ some none := by
  intro k
  induction k using Nat.strongRecOn with
  | ind k ih =>
      intro hk hfreek
      have hfirst := h.first swapid hfreek fun l hl => ih l hl (Nat.lt_trans hl hk)
      omega

end StopsAtFree

theorem findLoop_stops (blocks : Nat → RamBlock) (rand : Nat → Nat) :
    StopsAtFree (findLoop blocks rand) where
  free := fun _ _ _ => rfl
  used := by
    intro pb ys i swapid
    rw [findLoop]
    split <;> exact ⟨_, rfl⟩

/-- The first free slot is chosen, whatever `rand()` returns. -/
theorem find_free {i : Nat} (rand : Nat → Nat) (hfree : s.mBlocks[i]? = some none)
    (hfirst : ∀ k < i, s.mBlocks[k]? ≠ some none) : s.findFreeOrSwappable rand = some i := by
  have hlt := (List.getElem?_eq_some_iff.1 hfree).1
  simp [findFreeOrSwappable, (findLoop_stops s.blocks rand).first _ hfree hfirst, hlt]

/-- No slot before the chosen one is free. -/
theorem first_of_find {i : Nat} {rand : Nat → Nat} (hfind : s.findFreeOrSwappable rand = some i) :
    ∀ k < i, s.mBlocks[k]? ≠ some none := by
  unfold findFreeOrSwappable at hfind
  simp only [Option.ite_none_right_eq_some, Option.some.injEq] at hfind
  obtain ⟨-, rfl⟩ := hfind
  exact (findLoop_stops s.blocks rand).none_before

/-! ## Reading a new block -/

/-- Every read of the block returns zeros. -/
def ReadsZero (t : Target) (s : RamManager) (pb : Nat) : Prop :=
  ∀ e off cb, off + cb ≤ 4096 →
    ∃ u, exec t e (.directRead pb off cb) s = some (.ok (List.replicate cb 0), u)

/-- No slot is free, or the page of the first free slot holds only zeros. -/
def FirstFreeClean (s : RamManager) : Prop :=
  ∀ i, s.mBlocks[i]? = some none → (∀ k < i, s.mBlocks[k]? ≠ some none) →
    s.slotPage i = fun _ => 0

/-- Where an allocation puts the block, and what its page holds then. -/
theorem wp_alloc_page (t : Target) {pb : Nat} {flags : BitVec 32} :
    wp (exec t e (.alloc pb flags))
      (fun _ u => ∃ i b, s.findFreeOrSwappable e.rand = some i ∧ i < u.mBlocks.length ∧
        u.blocks pb = RamBlock.allocated b i flags ∧
        u.slotPage i = if s.mBlocks[i]? = some none then s.slotPage i else fun _ => 0)
      (fun _ _ => True) s := by
  unfold exec ramAllocAddress
  rw [wp_bind, wp_bind]
  apply wp_find
  · intro i hi hfind
    rw [wp_bind]
    apply wp_swap_none hi
    · intro hfree
      simp only [wp_bind, wp_modifyBlock, wp_setSlot]
      refine ⟨hi, i, s.blocks pb, hfind, by simpa using hi, Function.update_self _ _ _, ?_⟩
      rw [if_pos hfree]
      rfl
    · intro m hm _ _
      simp only [wp_bind, wp_modifyBlock, wp_setSlot]
      have hlen : i < (s.vacated i m).mBlocks.length := by simpa [vacated] using hi
      refine ⟨hlen, i, (s.vacated i m).blocks pb, hfind, by simpa using hlen,
        Function.update_self _ _ _, ?_⟩
      rw [if_neg (by rw [hm]; simp)]
      exact slotPage_stowed_self m fun _ => 0
    · exact fun _ _ _ => trivial
    · exact fun _ => trivial
    · exact fun _ _ _ _ _ => trivial
  · exact fun _ => trivial

/-- A read of a block in a slot returns bytes of the slot. -/
theorem wp_read_allocated (t : Target) {pb off cb i : Nat} {b : RamBlock} {flags : BitVec 32}
    (hi : i < s.mBlocks.length) (hb : s.blocks pb = b.allocated i flags) (h : off + cb ≤ 4096) :
    wp (exec t e (.directRead pb off cb)) (fun bytes _ => IsSlice (s.slotPage i) off cb bytes)
      (fun _ _ => False) s := by
  obtain ⟨hv, hres, -⟩ := RamBlock.place_eq_slot.1
    (RamBlock.place_allocated (b := b) (i := i) (f := flags))
  rw [← hb] at hv hres
  have hne : (s.blocks pb).flags ≠ 0#32 := by
    intro h0
    rw [h0] at hv
    exact hv BitVec.zero_and
  have haddr : (s.blocks pb).addr = i * 4096 := by rw [hb]; rfl
  unfold exec ramDirectRead ramDirectAccess
  rw [wp_ite]
  refine ⟨fun hbig => absurd hbig (sizeTest t h), fun _ => ?_⟩
  simp only [wp_bind, wp_blockAt, wp_ite, hne, false_implies, not_false_eq_true, true_implies,
    true_and, wp_pure, getRamBuffer, haddr]
  refine ⟨fun hswap => absurd hres hswap, fun _ => ?_⟩
  exact wp_copyFrom (holds_slot hi) h fun bytes hbytes => hbytes

theorem isSlice_zero {q : Page} {off cb : Nat} {bytes : List UInt8} (h : off + cb ≤ 4096)
    (hbytes : IsSlice q off cb bytes) (hq : q = fun _ => 0) : bytes = List.replicate cb 0 := by
  apply List.ext_getElem?
  intro k
  rw [List.getElem?_replicate]
  by_cases hk : k < cb
  · rw [hbytes.2 k (by omega) hk, if_pos hk, hq]
  · have hlen := hbytes.1
    rw [if_neg hk, List.getElem?_eq_none (by omega)]

/-- Reads that return slices of a page return zeros exactly when the page holds zeros. -/
theorem reads_zeros_iff {ι : Type} (read : ι → Nat → Nat → Ram (List UInt8)) {q : Page} (x : ι)
    (h : ∀ x off cb, off + cb ≤ 4096 →
      wp (read x off cb) (fun bytes _ => IsSlice q off cb bytes) (fun _ _ => False) s) :
    (∀ x off cb, off + cb ≤ 4096 → ∃ u, read x off cb s = some (.ok (List.replicate cb 0), u)) ↔
      q = fun _ => 0 := by
  constructor
  · intro hzero
    funext k
    obtain ⟨v, hv⟩ := hzero x k 1 (by omega)
    have hbytes := wp_ok (h x k 1 (by omega)) hv
    have hk := hbytes.2 0 (by omega) (by omega)
    simpa using hk.symm
  · intro hq x off cb hle
    obtain ⟨bytes, v, hr, hbytes⟩ := ok_of_wp (h x off cb hle)
    have hzero := isSlice_zero hle hbytes hq
    exact ⟨v, hzero ▸ hr⟩

/-- A block in a slot reads as zero exactly when the slot holds zeros. -/
theorem readsZero_iff (t : Target) {pb i : Nat} {b : RamBlock} {flags : BitVec 32}
    (hi : i < s.mBlocks.length) (hb : s.blocks pb = b.allocated i flags) :
    ReadsZero t s pb ↔ s.slotPage i = fun _ => 0 :=
  reads_zeros_iff (fun e off cb => exec t e (.directRead pb off cb)) ⟨fun _ => 0, .ok, .ok⟩
    fun _ _ _ => wp_read_allocated t hi hb

/-- The page that a search leads to holds zeros, or is cleared, exactly when the first free slot
is clean. -/
theorem clean_iff {i : Nat} (hfirst : ∀ k < i, s.mBlocks[k]? ≠ some none)
    (hfound : ∀ k, s.mBlocks[k]? = some none → (∀ l < k, s.mBlocks[l]? ≠ some none) → i = k) :
    ((if s.mBlocks[i]? = some none then s.slotPage i else fun _ => 0) = fun _ => 0) ↔
      FirstFreeClean s := by
  by_cases hfree : s.mBlocks[i]? = some none
  · rw [if_pos hfree]
    constructor
    · intro hzero k hk hbefore
      rw [← hfound k hk hbefore]
      exact hzero
    · exact fun hclean => hclean i hfree hfirst
  · rw [if_neg hfree]
    refine ⟨fun _ k hk hbefore => ?_, fun _ => rfl⟩
    rw [hfound k hk hbefore] at hfree
    exact absurd hk hfree

/-- After a successful allocation the page of the block reads as zero exactly when no slot
was free or the page of the first free slot held zeros. -/
theorem alloc_readsZero_iff (t : Target) {pb : Nat} {flags : BitVec 32} {bytes : List UInt8}
    (h : exec t e (.alloc pb flags) s = some (.ok bytes, u)) :
    ReadsZero t u pb ↔ FirstFreeClean s := by
  obtain ⟨i, b, hfind, hi, hb, hpage⟩ := wp_ok (wp_alloc_page t) h
  rw [readsZero_iff t hi hb, hpage]
  refine clean_iff (first_of_find hfind) fun k hk hbefore => ?_
  rw [find_free e.rand hk hbefore] at hfind
  exact (Option.some.inj hfind).symm

/-- Block 0 writes and is freed, and block 1 gets its slot. -/
def leakingRun : List Event :=
  [⟨.alloc 1 0#32, quiet, .ok []⟩, ⟨.free 0, quiet, .ok []⟩,
    ⟨.directWrite 0 0 (fun _ => 0x11) 1, quiet, .ok []⟩, ⟨.alloc 0 0#32, quiet, .ok []⟩]

/-- The page of a new block shows what a freed block wrote. -/
theorem alloc_shows_freed_page :
    ∃ u, Run (When (fun s v => v.call.Proper s) (step .x64)) oneSlot leakingRun u ∧
      (exec .x64 quiet (.directRead 1 0 1) u).map Prod.fst = some (.ok [0x11]) :=
  ⟨_, .snoc (.snoc (.snoc (.snoc .nil ⟨by decide, rfl⟩) ⟨by decide, rfl⟩) ⟨by decide, rfl⟩)
    ⟨by decide, rfl⟩, rfl⟩

end Vin64.Vram
