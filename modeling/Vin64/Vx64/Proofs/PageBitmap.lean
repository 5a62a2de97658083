import Vin64.Vx64.Translations

/-!
# The bitmap of a page

One bit for each byte of the page, set where some block has code.
-/

namespace Vin64.Vx64

variable {tab : Nat → BitVec 8} {start len k : Nat}

def codeBit (tab : Nat → BitVec 8) (k : Nat) : Bool := (tab (k / 8)).getLsbD (k % 8)

/-! ## `set_bits` -/

theorem ones_getLsbD : ∀ i < 8, (255#8).getLsbD i = true := by decide

theorem highBits_getLsbD (k : Nat) {i : Nat} (hi : i < 8) :
    (highBits k).getLsbD i = decide (k ≤ i) := by
  unfold highBits
  rw [BitVec.getLsbD_shiftLeft, decide_eq_true hi, Bool.true_and]
  by_cases h : i < k
  · rw [decide_eq_true h, decide_eq_false (Nat.not_le_of_lt h)]
    rfl
  · rw [decide_eq_false h, ones_getLsbD (i - k) (by omega), decide_eq_true (Nat.le_of_not_lt h)]
    rfl

theorem codeBit_orByte (i : Nat) (mask : BitVec 8) (k : Nat) :
    codeBit (orByte tab i mask) k =
      (codeBit tab k || (decide (k / 8 = i) && mask.getLsbD (k % 8))) := by
  unfold codeBit orByte
  by_cases h : k / 8 = i
  · subst h
    rw [Function.update_self, BitVec.getLsbD_or, decide_eq_true rfl, Bool.true_and]
  · rw [Function.update_of_ne h, decide_eq_false h, Bool.false_and, Bool.or_false]

theorem codeBit_fill (i n k : Nat) :
    codeBit ((List.range' i n).foldl (fun tab j => Function.update tab j 255) tab) k =
      (codeBit tab k || decide (i ≤ k / 8 ∧ k / 8 < i + n)) := by
  induction n generalizing tab i with
  | zero => simp
  | succ n ih =>
      rw [List.range'_succ, List.foldl_cons, ih]
      unfold codeBit
      by_cases h : k / 8 = i
      · rw [h, Function.update_self]
        have hone := ones_getLsbD (k % 8) (Nat.mod_lt k (by decide))
        have hin : decide (i ≤ i ∧ i < i + (n + 1)) = true := decide_eq_true (by omega)
        rw [show BitVec.getLsbD 255 (k % 8) = true from hone, hin, Bool.true_or, Bool.or_true]
      · rw [Function.update_of_ne h]
        congr 1
        rw [decide_eq_decide]
        omega

theorem codeBit_setBits (tab : Nat → BitVec 8) (start len k : Nat) :
    codeBit (setBits tab start len) k =
      (codeBit tab k || decide (start ≤ k ∧ k < start + len)) := by
  have hlt := Nat.mod_lt k (show 0 < 8 by decide)
  unfold setBits
  dsimp only
  by_cases hone : start / 8 = (start + len) / 8
  · rw [if_pos hone]
    by_cases hlen : start < start + len
    · rw [if_pos hlen, codeBit_orByte, BitVec.getLsbD_and, BitVec.getLsbD_not,
        highBits_getLsbD _ hlt, highBits_getLsbD _ hlt, decide_eq_true hlt,
        Bool.true_and]
      congr 1
      rw [Bool.eq_iff_iff]
      simp only [Bool.and_eq_true, decide_eq_true_eq, Bool.not_eq_true', decide_eq_false_iff_not]
      omega
    · rw [if_neg hlen, decide_eq_false (by omega), Bool.or_false]
  · rw [if_neg hone]
    by_cases hrest : (start + len) / 8 * 8 < start + len
    · rw [if_pos hrest, codeBit_orByte, codeBit_fill, codeBit_orByte, BitVec.getLsbD_not,
        highBits_getLsbD _ hlt, highBits_getLsbD _ hlt, decide_eq_true hlt,
        Bool.true_and, Bool.or_assoc, Bool.or_assoc]
      congr 1
      rw [Bool.eq_iff_iff]
      simp only [Bool.or_eq_true, Bool.and_eq_true, decide_eq_true_eq, Bool.not_eq_true',
        decide_eq_false_iff_not]
      omega
    · rw [if_neg hrest, codeBit_fill, codeBit_orByte, highBits_getLsbD _ hlt, Bool.or_assoc]
      congr 1
      rw [Bool.eq_iff_iff]
      simp only [Bool.or_eq_true, Bool.and_eq_true, decide_eq_true_eq]
      omega

/-! ## A whole page -/

/-- The bits of a page that a block has there. -/
def TranslationBlock.HasBit (tb : TranslationBlock) (n : Fin 2) (k : Nat) : Prop :=
  if n = 0 then tb.pc.toNat % 4096 ≤ k ∧ k < min (tb.pc.toNat % 4096 + tb.size) 4096
  else k < (tb.pc.toNat + tb.size) % 4096

/-- `build_page_bitmap` sets the bits of the blocks of the page, and no others. -/
theorem buildBitmap_spec (p : PageDesc) (tbs : Nat → TranslationBlock) :
    ∃ m, p.buildBitmap tbs = { p with codeBitmap := some m } ∧
      ∀ k, codeBit m k = true ↔ ∃ b ∈ p.firstTb, (tbs b.1).HasBit b.2 k := by
  refine ⟨_, rfl, fun k => ?_⟩
  have hloop : ∀ (l : List (Nat × Fin 2)) (tab : Nat → BitVec 8),
      codeBit (l.foldl (fun tab (b : Nat × Fin 2) =>
        let tb := tbs b.1
        if b.2 = 0 then
          let tbStart := tb.pc.toNat % 4096
          setBits tab tbStart (min (tbStart + tb.size) 4096 - tbStart)
        else setBits tab 0 ((tb.pc.toNat + tb.size) % 4096)) tab) k = true ↔
      codeBit tab k = true ∨ ∃ b ∈ l, (tbs b.1).HasBit b.2 k := by
    intro l
    induction l with
    | nil => simp
    | cons b l ih =>
        intro tab
        rw [List.foldl_cons, ih, List.exists_mem_cons_iff, ← or_assoc]
        refine or_congr_left ?_
        unfold TranslationBlock.HasBit
        dsimp only
        by_cases h : b.2 = 0
        · rw [if_pos h, if_pos h, codeBit_setBits, Bool.or_eq_true, decide_eq_true_eq]
          refine or_congr_right ?_
          omega
        · rw [if_neg h, if_neg h, codeBit_setBits, Bool.or_eq_true, decide_eq_true_eq]
          refine or_congr_right ?_
          omega
  have hzero : codeBit (fun _ => 0) k = false := by
    unfold codeBit
    exact BitVec.getLsbD_zero
  exact (hloop p.firstTb fun _ => 0).trans (by rw [hzero]; simp)

theorem lowOnes_getLsbD :
    ∀ len < 9, ∀ i < 8, ((1#8 <<< len) - 1).getLsbD i = decide (i < len) := by
  decide

/-- The test of `tb_invalidate_phys_page_fast`. -/
theorem hasCode_iff (m : Nat → BitVec 8) (hlen : start % 8 + len ≤ 8) :
    PageDesc.hasCode m start len = true ↔ ∃ i < len, codeBit m (start % 4096 + i) = true := by
  have hbit : ∀ i < 8, ((m (start % 4096 / 8) >>> (start % 4096 % 8)) &&&
      ((1#8 <<< len) - 1)).getLsbD i =
        (decide (i < len) && codeBit m (start % 4096 + i)) := by
    intro i hi
    rw [BitVec.getLsbD_and, BitVec.getLsbD_ushiftRight, lowOnes_getLsbD len (by omega) i hi,
      Bool.and_comm]
    by_cases h : i < len
    · have hbyte : (start % 4096 + i) / 8 = start % 4096 / 8 := by omega
      have hplace : (start % 4096 + i) % 8 = start % 4096 % 8 + i := by omega
      unfold codeBit
      rw [hbyte, hplace]
    · rw [decide_eq_false h, Bool.false_and, Bool.false_and]
  unfold PageDesc.hasCode
  rw [decide_eq_true_eq]
  constructor
  · intro hne
    refine Classical.byContradiction fun hnone => hne (BitVec.eq_of_getLsbD_eq fun i hi => ?_)
    refine (hbit i hi).trans (Eq.trans ?_ BitVec.getLsbD_zero.symm)
    refine Bool.eq_false_iff.2 fun hboth => hnone ?_
    obtain ⟨hlt, hset⟩ := Bool.and_eq_true_iff.1 hboth
    exact ⟨i, of_decide_eq_true hlt, hset⟩
  · rintro ⟨i, hlt, hset⟩ hzero
    have hone := hbit i (by omega)
    rw [hzero, hset, decide_eq_true hlt] at hone
    exact Bool.false_ne_true (BitVec.getLsbD_zero.symm.trans hone)

end Vin64.Vx64
