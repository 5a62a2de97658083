import Mathlib.Algebra.Order.Ring.Nat
import Mathlib.Tactic.Ring
import Vin64.Utils.Libstr

/-!
# Numbers survive as text

`int2str` writes the digits from the right, `str2int` reads them from the left.
-/

namespace Vin64.Utils.Libstr

variable {w base val n : Nat}

/-! ## Positional notation -/

theorem length_paddedDigits (base n val : Nat) : (paddedDigits base n val).length = n := by
  induction n generalizing val with
  | zero => rfl
  | succ n ih => rw [paddedDigits, List.length_append, ih]; rfl

theorem paddedDigits_lt (hbase : 0 < base) {d : Nat} (hd : d ∈ paddedDigits base n val) :
    d < base := by
  induction n generalizing val with
  | zero => cases hd
  | succ n ih =>
      rcases List.mem_append.1 hd with hd | hd
      · exact ih hd
      · rw [List.mem_singleton.1 hd]
        exact Nat.mod_lt _ hbase

theorem paddedDigits_zero (base n : Nat) : paddedDigits base n 0 = List.replicate n 0 := by
  induction n with
  | zero => rfl
  | succ n ih => rw [paddedDigits, Nat.zero_div, Nat.zero_mod, ih, List.replicate_succ']

theorem digitsValue_padded (base ret n val : Nat) :
    digitsValue base ret (paddedDigits base n val) = ret * base ^ n + val % base ^ n := by
  induction n generalizing val with
  | zero => simp [paddedDigits, digitsValue, Nat.mod_one]
  | succ n ih =>
      have hstep : digitsValue base ret (paddedDigits base (n + 1) val) =
          digitsValue base ret (paddedDigits base n (val / base)) * base + val % base := by
        rw [paddedDigits, digitsValue, List.foldl_append]
        rfl
      calc
        digitsValue base ret (paddedDigits base (n + 1) val)
          = (ret * base ^ n + val / base % base ^ n) * base + val % base := by rw [hstep, ih]
        _ = ret * base ^ (n + 1) + (val % base + base * (val / base % base ^ n)) := by
          rw [Nat.pow_succ]; ring
        _ = ret * base ^ (n + 1) + val % base ^ (n + 1) := by
          rw [Nat.pow_succ', Nat.mod_mul]

/-! ## Writing -/

theorem drop_set {α : Type} (ptr : List α) (ch : α) (h : n < ptr.length) :
    (ptr.set n ch).drop n = ch :: ptr.drop (n + 1) := by
  rw [List.drop_eq_getElem_cons (by rwa [List.length_set]), List.getElem_set_self,
    List.drop_set_of_lt (Nat.lt_succ_self n)]

theorem putZeros_eq (ptr : List Nat) (h : n ≤ ptr.length) :
    putZeros n ptr = List.replicate n 0x30 ++ ptr.drop n := by
  induction n generalizing ptr with
  | zero => rfl
  | succ n ih =>
      rw [putZeros, ih _ (by rw [List.length_set]; omega), drop_set ptr _ (by omega),
        List.replicate_succ', List.append_assoc]
      rfl

theorem digitChar_zero (base : Nat) : digitChar base 0 = 0x30 := by
  unfold digitChar
  split <;> rfl

/-- The first loop uses up the number exactly when it fits; with the zeros in front the digits
are then complete. -/
theorem putDigits_spec (hbase : 0 < base) (ptr : List Nat) (h : n ≤ ptr.length) :
    ((putDigits base n val ptr).2.1 = 0 ↔ val < base ^ n) ∧
      (val < base ^ n →
        putZeros (putDigits base n val ptr).1 (putDigits base n val ptr).2.2 =
          (paddedDigits base n val).map (digitChar base) ++ ptr.drop n) := by
  induction n generalizing val ptr with
  | zero => exact ⟨by simp [putDigits], fun _ => rfl⟩
  | succ n ih =>
      by_cases hval : 0 = val
      · subst hval
        rw [putDigits, if_pos rfl]
        refine ⟨iff_of_true rfl (Nat.pow_pos hbase), fun _ => ?_⟩
        rw [putZeros_eq ptr h, paddedDigits_zero, List.map_replicate, digitChar_zero]
      · rw [putDigits, if_neg hval]
        have hfits : val / base < base ^ n ↔ val < base ^ (n + 1) := by
          rw [Nat.div_lt_iff_lt_mul hbase, Nat.pow_succ]
        obtain ⟨hused, hput⟩ := @ih (val / base) (ptr.set n (digitChar base (val % base)))
          (by rw [List.length_set]; omega)
        refine ⟨hused.trans hfits, fun hlt => ?_⟩
        rw [hput (hfits.2 hlt), drop_set ptr _ (by omega), paddedDigits, List.map_append,
          List.append_assoc]
        rfl

/-! ## Reading -/

theorem digitValue_digitChar (hbase : base ≤ 36) {d : Nat} (hd : d < base) :
    digitValue base (digitChar base d) = some d := by
  unfold digitValue digitChar
  by_cases hused : base > 10
  · rw [if_pos hused, if_pos hused]
    by_cases hten : d < 10
    · rw [if_pos hten, if_pos (by omega), Nat.add_sub_cancel]
    · rw [if_neg hten, if_neg (by omega), if_pos (by omega)]
      congr 1
      omega
  · rw [if_neg hused, if_neg hused, if_pos (by omega), Nat.add_sub_cancel]

theorem digitChar_ne_blank (base d : Nat) : 0x20 ≠ digitChar base d := by
  unfold digitChar
  split
  · split <;> omega
  · omega

theorem digitValue_nul (base : Nat) : digitValue base 0 = none := by simp [digitValue]

/-- Digits are read up to the character behind them. -/
theorem convertStr_digits (hbase : base ≤ 36) {ds : List Nat} (hds : ∀ d ∈ ds, d < base)
    {size : Nat} (hsize : ds.length ≤ size) (rest : List Nat) (ret : Nat) :
    convertStr w base size (ds.map (digitChar base) ++ 0 :: rest) (ret % 2 ^ w) =
      digitsValue base ret ds % 2 ^ w := by
  induction ds generalizing size ret with
  | nil =>
      cases size with
      | zero => rfl
      | succ size => simp [convertStr, digitValue_nul, digitsValue]
  | cons d ds ih =>
      obtain ⟨size, rfl⟩ : ∃ k, size = k + 1 :=
        ⟨size - 1, by rw [List.length_cons] at hsize; omega⟩
      have hmod : (ret % 2 ^ w * base + d) % 2 ^ w = (ret * base + d) % 2 ^ w := by
        rw [Nat.add_mod, Nat.mul_mod, Nat.mod_mod, ← Nat.mul_mod, ← Nat.add_mod]
      rw [List.map_cons, List.cons_append, convertStr,
        digitValue_digitChar hbase (hds d List.mem_cons_self)]
      simp only [hmod]
      rw [ih (fun e he => hds e (List.mem_cons_of_mem d he)) (by simpa using hsize)]
      rfl

/-- There are no blanks in front of the digits. -/
theorem skipBlanks_digits (ds : List Nat) (size : Nat) (rest : List Nat) :
    skipBlanks size (ds.map (digitChar base) ++ 0 :: rest) =
      (size, ds.map (digitChar base) ++ 0 :: rest) := by
  cases size with
  | zero => rfl
  | succ size =>
      cases ds with
      | nil => rfl
      | cons d ds => simp [skipBlanks, digitChar_ne_blank]

theorem str2int_padded (hbase : 2 ≤ base ∧ base ≤ 36) (hval : val < base ^ n) (hw : val < 2 ^ w)
    {size : Nat} (hsize : n ≤ size) (rest : List Nat) :
    str2int w base ((paddedDigits base n val).map (digitChar base) ++ 0 :: rest) size = val := by
  have hvalid : validArg base = true := by simp [validArg, hbase.1, hbase.2]
  have hread := @convertStr_digits w base hbase.2 (paddedDigits base n val)
    (fun d hd => paddedDigits_lt (by omega) hd) size (by rwa [length_paddedDigits]) rest 0
  rw [digitsValue_padded, Nat.zero_mul, Nat.zero_add, Nat.mod_eq_of_lt hval,
    Nat.mod_eq_of_lt hw, Nat.zero_mod] at hread
  simp only [str2int, skipBlanks_digits, hvalid, if_true]
  exact hread

/-! ## There and back -/

/-- `int2str` succeeds exactly for the numbers that fit, and `str2int` reads them back. -/
theorem int2str_iff (hbase : 2 ≤ base ∧ base ≤ 36) (hw : val < 2 ^ w) {size : Nat}
    (hsize : 1 ≤ size) {ptr : List Nat} (hptr : size ≤ ptr.length) :
    ((int2str base val ptr size).1 = true ↔ val < base ^ (size - 1)) ∧
      (val < base ^ (size - 1) →
        (int2str base val ptr size).2 =
          (paddedDigits base (size - 1) val).map (digitChar base) ++ 0 :: ptr.drop size ∧
        ∀ n, size - 1 ≤ n → n ≤ ptr.length →
          str2int w base (int2str base val ptr size).2 n = val) := by
  have hvalid : validArg base = true := by simp [validArg, hbase.1, hbase.2]
  have hdrop : (ptr.set (size - 1) 0).drop (size - 1) = 0 :: ptr.drop size := by
    rw [drop_set ptr 0 (by omega), Nat.sub_add_cancel hsize]
  obtain ⟨hused, hput⟩ := @putDigits_spec base val (size - 1) (by omega) (ptr.set (size - 1) 0)
    (by rw [List.length_set]; omega)
  rw [hdrop] at hput
  by_cases hfits : val < base ^ (size - 1)
  · have hcall : int2str base val ptr size =
        (true, (paddedDigits base (size - 1) val).map (digitChar base) ++ 0 :: ptr.drop size) := by
      simp only [int2str, hvalid, if_true]
      rw [if_pos (hused.2 hfits).symm, hput hfits]
    rw [hcall]
    exact ⟨iff_of_true rfl hfits,
      fun _ => ⟨rfl, fun n hn _ => str2int_padded hbase hfits hw hn _⟩⟩
  · have hcall : (int2str base val ptr size).1 = false := by
      simp only [int2str, hvalid, if_true]
      rw [if_neg fun h => hfits (hused.1 h.symm)]
    rw [hcall]
    exact ⟨iff_of_false (by decide) hfits, fun h => absurd h hfits⟩

/-- The number 255 in base 16 and a buffer of 5 characters -/
theorem int2str_255 :
    int2str 16 255 [1, 1, 1, 1, 1, 1] 5 = (true, [0x30, 0x30, 0x46, 0x46, 0, 1]) ∧
      str2int 32 16 (int2str 16 255 [1, 1, 1, 1, 1, 1] 5).2 6 = 255 :=
  ⟨by decide, ((@int2str_iff 32 16 255 (by decide) (by decide) 5 (by decide)
    [1, 1, 1, 1, 1, 1] (by decide)).2 (by decide)).2 6 (by decide) (by decide)⟩

end Vin64.Utils.Libstr
