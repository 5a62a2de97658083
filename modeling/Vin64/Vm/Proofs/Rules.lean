import Vin64.Vram.Proofs.Partial
import Vin64.Vm.Manager

/-!
# The RAM manager of the test program and that of `vos/vram.cpp`

In a RAM below 4 GiB an address keeps its value in 32 bits, and the exchange of pages is the
same.
-/

namespace Vin64.Vm

open Vin64.Lib Vin64.Lib.Op Vin64.Utils Vin64.Vram
open Vin64.Vram.RamManager (getRamBuffer)

variable {s : RamManager} {e : Env}

/-- The slots of a RAM below 4 GiB. -/
def maxSlots : Nat := 2 ^ 20

theorem ramAddress_of_lt {i : Nat} (h : i < maxSlots) : ramAddress i = i * 4096 := by
  unfold ramAddress VM_PAGE_SIZE
  unfold maxSlots at h
  exact Nat.mod_eq_of_lt (by omega)

theorem shiftLeft_of_lt {i : Nat} (h : i < maxSlots) : ramAddress i = i <<< VM_PAGE_SHIFT := by
  rw [ramAddress_of_lt h, shiftLeft_page]

/-- At a slot whose address fits the exchange is that of `vos/vram.cpp`. -/
theorem swap_eq_of_lt {i : Nat} (h : i < maxSlots) (inPF : Option Nat) :
    swapRamAndPageFile e i inPF = Vram.swapRamAndPageFile e.transfers i inPF := by
  unfold swapRamAndPageFile Vram.swapRamAndPageFile
  rw [shiftLeft_of_lt h]
  rfl

/-- In a RAM below 4 GiB the exchange is that of `vos/vram.cpp`. -/
theorem swap_eq (h : s.mBlocks.length ≤ maxSlots) (i : Nat) (inPF : Option Nat) :
    swapRamAndPageFile e i inPF s = Vram.swapRamAndPageFile e.transfers i inPF s := by
  by_cases hi : i < s.mBlocks.length
  · rw [swap_eq_of_lt (Nat.lt_of_lt_of_le hi h)]
  · have hfault : (slotAt i : Ram (Option Nat)) s = none := by
      have hnone : s.mBlocks[i]? = none := List.getElem?_eq_none (Nat.not_lt.1 hi)
      apply fault_of_not_wp
      simp [slotAt, hnone]
    show andThen (slotAt i) _ s = andThen (slotAt i) _ s
    unfold andThen
    rw [hfault]

/-- Without a block to bring in, the exchange is that of `vos/vram.cpp` at every slot. -/
theorem swap_none_eq (i : Nat) :
    swapRamAndPageFile e i none = Vram.swapRamAndPageFile e.transfers i none := rfl

/-! ## The search for a slot -/

theorem findLoop_chosen (blocks : Nat → RamBlock) (change : Nat → Bool) (n : Nat)
    (xs : List (Option Nat)) (i swapid : Nat) :
    findLoop blocks change n xs i swapid = swapid ∨
      ∃ k < xs.length, findLoop blocks change n xs i swapid = i + k ∧
        ∀ pref, xs[k]? = some (some pref) → (blocks pref).flags &&& BF_LOCKED = 0#32 := by
  induction xs generalizing i swapid with
  | nil => exact .inl rfl
  | cons v xs ih =>
      have hrest : ∀ w, findLoop blocks change n xs (i + 1) w = w ∨
          ∃ k < (v :: xs).length, findLoop blocks change n xs (i + 1) w = i + k ∧
            ∀ pref, (v :: xs)[k]? = some (some pref) →
              (blocks pref).flags &&& BF_LOCKED = 0#32 := by
        intro w
        rcases ih (i + 1) w with hsame | ⟨k, hk, hval, hfree⟩
        · exact .inl hsame
        · refine .inr ⟨k + 1, by simpa using hk, by omega, ?_⟩
          intro pref hpref
          exact hfree pref (by simpa using hpref)
      cases v with
      | none => exact .inr ⟨0, by simp, rfl, by simp⟩
      | some pref =>
          rw [findLoop]
          by_cases hlock : (blocks pref).flags &&& BF_LOCKED ≠ 0#32
          · rw [if_pos hlock]
            exact hrest swapid
          · rw [if_neg hlock]
            have hfree : (blocks pref).flags &&& BF_LOCKED = 0#32 := not_not.1 hlock
            by_cases hpick : swapid = n ∨ change i = true
            · rw [if_pos hpick]
              rcases hrest i with hsame | hchosen
              · refine .inr ⟨0, by simp, hsame, ?_⟩
                intro q hq
                obtain rfl : pref = q := by simpa using hq
                exact hfree
              · exact .inr hchosen
            · rw [if_neg hpick]
              exact hrest swapid

/-- The chosen slot exists, and its block is not locked. -/
theorem find_chosen {change : Nat → Bool} {i : Nat} (h : findFreeOrSwappable s change = some i) :
    i < s.mBlocks.length ∧
      ∀ pref, s.mBlocks[i]? = some (some pref) → (s.blocks pref).flags &&& BF_LOCKED = 0#32 := by
  unfold findFreeOrSwappable at h
  simp only [Option.ite_none_right_eq_some, Option.some.injEq] at h
  obtain ⟨hlt, hi⟩ := h
  rcases findLoop_chosen s.blocks change s.mBlocks.length s.mBlocks 0 s.mBlocks.length with
    hsame | ⟨k, hk, hval, hfree⟩
  · omega
  · obtain rfl : k = i := by omega
    exact ⟨hk, hfree⟩

section Find

variable {change : Nat → Bool} {Q : Nat → RamManager → Prop} {E : HRESULT → RamManager → Prop}

@[simp] theorem wlp_find : wlp (findFreeOrSwappableAddress change) Q E s ↔
    (∀ i, findFreeOrSwappable s change = some i → Q i s) ∧
      (findFreeOrSwappable s change = none → E .E_FAIL s) := by
  cases h : findFreeOrSwappable s change <;> simp [findFreeOrSwappableAddress, h]

end Find

end Vin64.Vm
