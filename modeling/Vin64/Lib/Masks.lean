/-!
# Fields of a word selected by a mask
-/

namespace Vin64.Lib

variable {w : Nat}

/-- `x` with the bits of the mask `m` replaced by `p`. -/
def setField (m p x : BitVec w) : BitVec w := x &&& ~~~m ||| p

theorem setField_and {m p : BitVec w} (hp : p &&& m = p) (x : BitVec w) :
    setField m p x &&& m = p := by
  ext i hi
  have hi' := congrArg (fun v : BitVec w => v[i]) hp
  simp only [BitVec.getElem_and] at hi'
  simp only [setField, BitVec.getElem_and, BitVec.getElem_or, BitVec.getElem_not]
  revert hi'
  cases x[i] <;> cases m[i] <;> cases p[i] <;> simp

theorem setField_and_not {m p : BitVec w} (hp : p &&& m = p) (x : BitVec w) :
    setField m p x &&& ~~~m = x &&& ~~~m := by
  ext i hi
  have hi' := congrArg (fun v : BitVec w => v[i]) hp
  simp only [BitVec.getElem_and] at hi'
  simp only [setField, BitVec.getElem_and, BitVec.getElem_or, BitVec.getElem_not]
  revert hi'
  cases x[i] <;> cases m[i] <;> cases p[i] <;> simp

/-- A word is determined by its bits inside and outside a mask. -/
theorem eq_of_fields {m x y : BitVec w} (h : x &&& m = y &&& m)
    (h' : x &&& ~~~m = y &&& ~~~m) : x = y := by
  ext i hi
  have h₁ := congrArg (fun v : BitVec w => v[i]) h
  have h₂ := congrArg (fun v : BitVec w => v[i]) h'
  simp only [BitVec.getElem_and, BitVec.getElem_not] at h₁ h₂
  revert h₁ h₂
  cases x[i] <;> cases m[i] <;> cases y[i] <;> simp

theorem setField_eq_iff {m p x y : BitVec w} (hp : p &&& m = p) :
    setField m p x = y ↔ y &&& m = p ∧ x &&& ~~~m = y &&& ~~~m := by
  constructor
  · rintro rfl
    exact ⟨setField_and hp x, (setField_and_not hp x).symm⟩
  · rintro ⟨h, h'⟩
    exact eq_of_fields ((setField_and hp x).trans h.symm) ((setField_and_not hp x).trans h')

end Vin64.Lib
