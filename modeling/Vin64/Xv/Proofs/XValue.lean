import Vin64.Xv.Proofs.Lost
import Vin64.Xv.XValue

/-!
# Storing integers

The type of the value is changed first; what the value holds then is the integer it held before,
or 0.  The overloads for 16 bits leave it at that.
-/

namespace Vin64.Xv

open Vin64.Lib.Op

variable {v : XValue} {vs : ValueSize} {T : IntType}

/-- The integer of a value survives the change to another width. -/
theorem valueSetType2_int (made : BitVec 64) (v : XValue) (vs : ValueSize) :
    ∃ released, valueSetType2 made v .dInt vs = (true, ⟨.dInt, vs, v.number, released⟩) := by
  unfold valueSetType2 XValue.number
  by_cases htype : v.type = .dInt
  · rw [if_pos htype, if_pos htype]
    exact ⟨v.released, by rw [← htype]⟩
  · rw [if_neg htype, if_neg htype]
    exact ⟨(valueClear v).released, rfl⟩

theorem setInteger_eq (vs : ValueSize) (i : BitVec 64) (v : XValue) :
    ∃ released, setInteger vs i v = (true, ⟨.dInt, vs, i, released⟩) := by
  obtain ⟨released, htype⟩ := valueSetType2_int 0 v vs
  unfold setInteger
  rw [htype]
  exact ⟨released, rfl⟩

theorem setParameter_eq (vs : ValueSize) (v : XValue) :
    ∃ released, setParameter vs v = (true, ⟨.dInt, vs, v.number, released⟩) := by
  obtain ⟨released, htype⟩ := valueSetType2_int 0 v vs
  unfold setParameter
  rw [htype]
  exact ⟨released, rfl⟩

/-- What each overload leaves. -/
theorem set_eq (i : BitVec (8 * T.bsiz.bytes)) (v : XValue) :
    ∃ released, set T i v =
      (true, ⟨.dInt, T.bsiz, if T.bsiz = .s16 then v.number else T.extend i, released⟩) := by
  cases T with
  | int8_t | uint8_t => exact setInteger_eq .s8 _ v
  | int16_t | uint16_t => exact setParameter_eq .s16 v
  | int32_t | uint32_t => exact setInteger_eq .s32 _ v
  | int64_t | uint64_t => exact setInteger_eq .s64 _ v

/-- Converting to 64 bits and back gives the integer. -/
theorem setWidth_extend (i : BitVec (8 * T.bsiz.bytes)) :
    (T.extend i).setWidth (8 * T.bsiz.bytes) = i := by
  have hwidth : 8 * T.bsiz.bytes ≤ 64 := by cases T <;> decide
  cases T with
  | int8_t | int16_t | int32_t | int64_t => exact setWidth_signExtend hwidth i
  | uint8_t | uint16_t | uint32_t | uint64_t =>
    exact (BitVec.setWidth_setWidth_of_le i hwidth).trans (BitVec.setWidth_eq i)

/-- An integer of any type but those of 16 bits is stored; one of these only where the value holds
it already. -/
theorem stores_iff (T : IntType) (i : BitVec (8 * T.bsiz.bytes)) (v : XValue) :
    Stores T i v ↔ (T.bsiz = .s16 → v.number = T.extend i) := by
  obtain ⟨released, hset⟩ := set_eq i v
  constructor
  · intro h hwidth
    have hinteger := h.integer
    rw [hset, if_pos hwidth] at hinteger
    exact hinteger
  · intro h
    have hnumber : (if T.bsiz = .s16 then v.number else T.extend i) = T.extend i := by
      split
      · rename_i hwidth
        exact h hwidth
      · rfl
    rw [hnumber] at hset
    refine ⟨?_, ?_, ?_, ?_, ?_⟩
    · rw [hset]
    · rw [hset]
    · rw [hset]
    · rw [hset]
    · rw [hset]
      exact congrArg some (setWidth_extend i)

/-- `xvalue_t()` -/
def nullValue : XValue := ⟨.dNull, .s8, 0, []⟩

/-- The number 5 as an `int16_t`. -/
theorem not_stores_int16 : ¬ ∀ (T : IntType) (i : BitVec (8 * T.bsiz.bytes)) (v : XValue),
    Stores T i v := by
  intro hall
  have hinteger := (hall .int16_t 5 nullValue).integer
  exact absurd hinteger (by decide)

/-- The type of the number that `fetch_number` reads. -/
def fetchedType : ValueSize → IntType
  | .s8 => .int8_t
  | .s16 => .int16_t
  | .s32 => .int32_t
  | .s64 => .int64_t

/-- The reader stores what it reads into a null value. -/
theorem fetchNumber_eq_set (src : Buffer) (bsiz : ValueSize) :
    fetchNumber src (some bsiz) = do
      let bytes ← src.fetchBytes bsiz.bytes
      let stored := set (fetchedType bsiz) (BitVec.ofNat _ (ofBytes bytes)) nullValue
      return .int bsiz stored.2.anyval := by
  cases bsiz <;> rfl

end Vin64.Xv
