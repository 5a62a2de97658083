import Mathlib.Algebra.Group.Nat.Defs

/-!
# Blocks of a flat store

A store is a function from addresses to cells; a block is a fixed number of consecutive
cells.
-/

namespace Vin64.Lib

variable {α : Type} {n : Nat}

/-- The block at an address. -/
def window (m : Nat → α) (n a : Nat) : Fin n → α := fun k => m (a + k)

/-- The store with the block at `a` overwritten. -/
def blit (m : Nat → α) (a : Nat) (p : Fin n → α) : Nat → α := fun i =>
  if h : a ≤ i ∧ i - a < n then p ⟨i - a, h.2⟩ else m i

/-- The first `c` cells of one block and the rest of another. -/
def splice (c : Nat) (p q : Fin n → α) : Fin n → α := fun k => if k < c then p k else q k

@[simp] theorem window_blit_self (m : Nat → α) (a : Nat) (p : Fin n → α) :
    window (blit m a p) n a = p := by
  funext k
  have h : a ≤ a + k ∧ a + k - a < n := ⟨by omega, by omega⟩
  simp [window, blit, h]

theorem blit_of_outside (m : Nat → α) {a i : Nat} (p : Fin n → α) (h : i < a ∨ a + n ≤ i) :
    blit m a p i = m i := by
  have h' : ¬ (a ≤ i ∧ i - a < n) := by omega
  simp [blit, h']

theorem blit_blit (m : Nat → α) (a : Nat) (p q : Fin n → α) : blit (blit m a p) a q = blit m a q := by
  funext i
  by_cases h : a ≤ i ∧ i - a < n <;> simp [blit, h]

/-- A block that is written where it was read -/
theorem blit_window (m : Nat → α) (a : Nat) : blit m a (window m n a) = m := by
  funext i
  unfold blit window
  by_cases h : a ≤ i ∧ i - a < n
  · rw [dif_pos h, Nat.add_sub_cancel' h.1]
  · rw [dif_neg h]

theorem window_blit_of_disjoint (m : Nat → α) {a b : Nat} (p : Fin n → α)
    (h : a + n ≤ b ∨ b + n ≤ a) : window (blit m b p) n a = window m n a := by
  funext k
  exact blit_of_outside m p (by omega)

/-- Writing one block keeps another one exactly when it keeps their common cells. -/
theorem window_blit_eq_iff (m : Nat → α) {a b : Nat} (p : Fin n → α) :
    window (blit m a p) n b = window m n b ↔ ∀ k l : Fin n, b + k = a + l → p l = m (a + l) := by
  constructor
  · intro h k l hkl
    have hk := congrFun h k
    have hin : a ≤ a + l ∧ a + l - a < n := ⟨by omega, by omega⟩
    have hl : (⟨a + l - a, hin.2⟩ : Fin n) = l := Fin.ext (Nat.add_sub_cancel_left a l)
    simp only [window, hkl, blit, hin, and_self, dite_true] at hk
    rwa [hl] at hk
  · intro h
    funext k
    unfold window blit
    by_cases hin : a ≤ b + k ∧ b + k - a < n
    · have hsum : a + (b + k - a) = b + k := by omega
      rw [dif_pos hin, h k ⟨b + k - a, hin.2⟩ hsum.symm, hsum]
    · rw [dif_neg hin]

/-- Blocks at different multiples of the block size do not meet. -/
theorem window_blit_of_ne (m : Nat → α) {i j : Nat} (p : Fin n → α) (h : i ≠ j) :
    window (blit m (j * n) p) n (i * n) = window m n (i * n) := by
  apply window_blit_of_disjoint
  rcases Nat.lt_or_gt_of_ne h with hlt | hgt
  · left
    calc i * n + n = (i + 1) * n := (Nat.succ_mul i n).symm
      _ ≤ j * n := Nat.mul_le_mul_right n hlt
  · right
    calc j * n + n = (j + 1) * n := (Nat.succ_mul j n).symm
      _ ≤ i * n := Nat.mul_le_mul_right n hgt

theorem splice_of_le {c : Nat} (p q : Fin n → α) (h : n ≤ c) : splice c p q = p := by
  funext k
  have hk : (k : Nat) < c := by omega
  simp [splice, hk]

end Vin64.Lib
