import Vin64.Utils.Murmur

/-!
# The hash of the lower case

Both overloads of `lv` make an ASCII letter lower case, so the words and the last bytes of
`MurmurHash1LowCase` are those that `MurmurHash1` reads from the bytes in lower case.
-/

namespace Vin64.Utils.Murmur

theorem lvRound_eq (b : Byte) : lvRound b = asciiLower b := by
  revert b
  decide +kernel

theorem lv8_eq (b : Byte) : lv8 b = asciiLower b := by
  revert b
  decide +kernel

theorem byteAt_map (data : List Byte) (i : Nat) :
    byteAt (data.map asciiLower) i = asciiLower (byteAt data i) := by
  unfold byteAt
  rw [List.getD_eq_getElem?_getD, List.getD_eq_getElem?_getD, List.getElem?_map]
  cases data[i]? <;> rfl

theorem getLsbD_le32 (b0 b1 b2 b3 : Byte) (i : Nat) :
    (le32 b0 b1 b2 b3).getLsbD i =
      if i < 8 then b0.getLsbD i
      else if i < 16 then b1.getLsbD (i - 8)
      else if i < 24 then b2.getLsbD (i - 16)
      else b3.getLsbD (i - 24) := by
  change (b3 ++ b2 ++ b1 ++ b0 : BitVec (8 + 8 + 8 + 8)).getLsbD i = _
  rw [BitVec.getLsbD_append, BitVec.getLsbD_append, BitVec.getLsbD_append]
  rcases (by omega : i < 8 ∨ (8 ≤ i ∧ i < 16) ∨ (16 ≤ i ∧ i < 24) ∨ 24 ≤ i) with h | h | h | h
  · simp [h]
  · simp [h, show ¬ i < 8 by omega, show i - 8 < 8 by omega]
  · simp [h, show ¬ i < 8 by omega, show ¬ i < 16 by omega, show ¬ i - 8 < 8 by omega,
      show i - 8 - 8 = i - 16 by omega, show i - 16 < 8 by omega]
  · simp [show ¬ i < 8 by omega, show ¬ i < 16 by omega, show ¬ i < 24 by omega,
      show ¬ i - 8 < 8 by omega, show ¬ i - 8 - 8 < 8 by omega,
      show i - 8 - 8 - 8 = i - 24 by omega]

/-- The bytes of a word -/
theorem extract_le32 (b0 b1 b2 b3 : Byte) :
    (le32 b0 b1 b2 b3).extractLsb' 0 8 = b0 ∧ (le32 b0 b1 b2 b3).extractLsb' 8 8 = b1 ∧
      (le32 b0 b1 b2 b3).extractLsb' 16 8 = b2 ∧ (le32 b0 b1 b2 b3).extractLsb' 24 8 = b3 := by
  refine ⟨?_, ?_, ?_, ?_⟩ <;> refine BitVec.eq_of_getLsbD_eq fun i hi => ?_
  · simp [getLsbD_le32, hi]
  · simp [getLsbD_le32, hi, show 8 + i < 16 by omega]
  · simp [getLsbD_le32, hi, show ¬ 16 + i < 8 by omega, show ¬ 16 + i < 16 by omega,
      show 16 + i < 24 by omega]
  · simp [getLsbD_le32, hi, show ¬ 24 + i < 8 by omega, show ¬ 24 + i < 16 by omega,
      show ¬ 24 + i < 24 by omega]

theorem lv32_le32 (b0 b1 b2 b3 : Byte) :
    lv32 (le32 b0 b1 b2 b3) =
      le32 (asciiLower b0) (asciiLower b1) (asciiLower b2) (asciiLower b3) := by
  obtain ⟨h0, h1, h2, h3⟩ := extract_le32 b0 b1 b2 b3
  unfold lv32
  rw [h0, h1, h2, h3, lvRound_eq, lvRound_eq, lvRound_eq, lvRound_eq]

/-- The words read from the lower case are the lower case of the words. -/
theorem lv32_get (data : List Byte) :
    lv32 (GET_AS_LE32 data) = GET_AS_LE32 (data.map asciiLower) := by
  unfold GET_AS_LE32
  rw [lv32_le32, byteAt_map, byteAt_map, byteAt_map, byteAt_map]

theorem words_map (data : List Byte) (len : Nat) (h : BitVec 32) :
    words (fun k => k) (data.map asciiLower) len h =
      ((words lv32 data len h).1.map asciiLower, (words lv32 data len h).2) := by
  induction data, len, h using words.induct lv32 with
  | case1 data len h hlen k ih =>
      have hk : k = GET_AS_LE32 (data.map asciiLower) := lv32_get data
      rw [words, if_pos hlen, words.eq_def lv32, if_pos hlen, ← ih, List.map_drop, ← hk]
  | case2 data len h hlen =>
      rw [words, if_neg hlen, words.eq_def lv32, if_neg hlen]

theorem lastBytes_map (data : List Byte) (len : Nat) (h : BitVec 32) :
    lastBytes (fun b => b) (data.map asciiLower) len h = lastBytes lv8 data len h := by
  unfold lastBytes
  rw [byteAt_map, byteAt_map, byteAt_map, lv8_eq, lv8_eq, lv8_eq]

theorem lowCase_eq (data : List Byte) (seed : BitVec 32) :
    MurmurHash1LowCase data seed = MurmurHash1 (data.map asciiLower) seed := by
  simp only [MurmurHash1, MurmurHash1LowCase, hash, List.length_map, words_map, lastBytes_map]

/-- The hash is the one of the lower case; so bytes that are equal up to case have one hash. -/
theorem murmurHash1LowCase_lower (seed : BitVec 32) :
    (∀ d : List Byte, MurmurHash1LowCase d seed = MurmurHash1 (d.map asciiLower) seed) ∧
      ∀ d e : List Byte, d.map asciiLower = e.map asciiLower →
        MurmurHash1LowCase d seed = MurmurHash1LowCase e seed := by
  refine ⟨fun d => lowCase_eq d seed, fun d e h => ?_⟩
  rw [lowCase_eq, lowCase_eq, h]

/-- `"Ab"` and `"aB"` -/
theorem murmurHash1LowCase_ab :
    MurmurHash1LowCase [0x41#8, 0x62#8] 0#32 = MurmurHash1LowCase [0x61#8, 0x42#8] 0#32 :=
  (murmurHash1LowCase_lower 0#32).2 _ _ (by decide)

end Vin64.Utils.Murmur
