import Vin64.Vram.Proofs.Fresh

/-!
# The search for a slot

`FindFreeOrSwappableAddress` takes the first free slot, or else the last slot without a
locked block for which the random number is small.  The first slot needs no luck: the loop
draws its number behind each round.
-/

namespace Vin64.Vram

open Vin64.Lib Vin64.Lib.Op RamManager

namespace RamManager

def FreeSlot (s : RamManager) (i : Nat) : Prop := s.mBlocks[i]? = some none

/-- The slot holds a block that is not locked. -/
def UnlockedSlot (s : RamManager) (i : Nat) : Prop :=
  ∃ pb, s.mBlocks[i]? = some (some pb) ∧ (s.blocks pb).flags &&& BF_LOCKED = 0#32

/-- A slot is found exactly when there is one, and a free one is preferred. -/
structure FindsSlot (s : RamManager) (rand : Nat → Nat) : Prop where
  found : (s.findFreeOrSwappable rand).isSome ↔ ∃ i, s.FreeSlot i ∨ s.UnlockedSlot i
  chosen : ∀ i, s.findFreeOrSwappable rand = some i →
    s.FreeSlot i ∨ (∀ k, ¬ s.FreeSlot k) ∧ s.UnlockedSlot i

end RamManager

/-- `RamAllocAddress` behind the search. -/
def allocIn (e : Env) (pb : Nat) (flags : BitVec 32) (i : Nat) : Ram Unit := do
  swapRamAndPageFile e i none
  modifyBlock pb fun b =>
    { b with addr := i * VM_PAGE_SIZE, flags := flags &&& BF_LOCKED ||| BF_VALID, swapid := 0 }
  setSlot i (some pb)

namespace RamManager

/-- `Alloc`, and `SwapIn` of an unlocked block, go on with a slot that they may use. -/
def FindsRam (s : RamManager) (e : Env) : Prop :=
  (∀ pb flags, ∃ i, (s.FreeSlot i ∨ s.UnlockedSlot i) ∧
    ramAllocAddress e pb flags s = allocIn e pb flags i s) ∧
  ∀ pb, s.IsSwapped pb → (s.blocks pb).flags &&& BF_LOCKED = 0#32 →
    ∃ i, (s.FreeSlot i ∨ s.UnlockedSlot i) ∧
      ramSwapIn e pb s = swapRamAndPageFile e i (some pb) s

/-- What the search promises its callers. -/
def SearchKept (s : RamManager) (e : Env) : Prop :=
  s.FindsSlot e.rand ∧ ((∃ i, s.UnlockedSlot i) → s.FindsRam e)

/-- Where no slot is free, an unlocked block is in the first slot or its number is small. -/
def Lucky (s : RamManager) (rand : Nat → Nat) : Prop :=
  (∀ k, ¬ s.FreeSlot k) → (∃ i, s.UnlockedSlot i) →
    ∃ i, s.UnlockedSlot i ∧ (i = 0 ∨ rand i % 100 < 50)

end RamManager

variable {s : RamManager} {e : Env} {rand : Nat → Nat}

/-- The slot holds an unlocked block and the loop takes it, unless a later one follows. -/
def Taken (blocks : Nat → RamBlock) (rand : Nat → Nat) (i : Nat) (v : Option Nat) : Prop :=
  ∃ pb, v = some pb ∧ (blocks pb).flags &&& BF_LOCKED = 0#32 ∧ (i = 0 ∨ rand i % 100 < 50)

/-- Over slots that hold a block each, the loop returns the last one it takes. -/
theorem findLoop_busy (blocks : Nat → RamBlock) (rand : Nat → Nat) (xs : List (Option Nat))
    (i swapid : Nat) (h : none ∉ xs) :
    (findLoop blocks rand xs i swapid = swapid ∧
      ∀ k v, xs[k]? = some v → ¬ Taken blocks rand (i + k) v) ∨
    ∃ k v, findLoop blocks rand xs i swapid = i + k ∧ xs[k]? = some v ∧
      Taken blocks rand (i + k) v := by
  induction xs generalizing i swapid with
  | nil => exact Or.inl ⟨rfl, by simp⟩
  | cons v xs ih =>
      rw [List.mem_cons, not_or] at h
      cases v with
      | none => exact absurd rfl h.1
      | some pb =>
          have hlater : ∀ w, (∃ k v, findLoop blocks rand xs (i + 1) w = i + 1 + k ∧
              xs[k]? = some v ∧ Taken blocks rand (i + 1 + k) v) →
              ∃ k v, findLoop blocks rand xs (i + 1) w = i + k ∧
                (some pb :: xs)[k]? = some v ∧ Taken blocks rand (i + k) v := by
            rintro w ⟨k, v, hw, hv, ht⟩
            have hk : i + 1 + k = i + (k + 1) := by omega
            exact ⟨k + 1, v, by rw [hw, hk], by simpa using hv, hk ▸ ht⟩
          have hskip : (∀ k v, xs[k]? = some v → ¬ Taken blocks rand (i + 1 + k) v) →
              ¬ Taken blocks rand i (some pb) →
              ∀ k v, (some pb :: xs)[k]? = some v → ¬ Taken blocks rand (i + k) v := by
            intro hrest hhead k v hv
            cases k with
            | zero =>
                obtain rfl : some pb = v := by simpa using hv
                exact hhead
            | succ k =>
                have hk : i + (k + 1) = i + 1 + k := by omega
                rw [hk]
                exact hrest k v (by simpa using hv)
          by_cases hlock : (blocks pb).flags &&& BF_LOCKED ≠ 0#32
          · rw [findLoop, if_pos hlock]
            rcases ih (i + 1) swapid h.2 with ⟨hw, hrest⟩ | hw
            · refine Or.inl ⟨hw, hskip hrest ?_⟩
              rintro ⟨q, hq, hun, -⟩
              obtain rfl : pb = q := by simpa using hq
              exact hlock hun
            · exact Or.inr (hlater swapid hw)
          · have hluck : (if i = 0 then 0 else rand i % 100) < 50 ↔ i = 0 ∨ rand i % 100 < 50 := by
              by_cases hi : i = 0 <;> simp [hi]
            rw [findLoop, if_neg hlock]
            simp only [hluck]
            by_cases hl : i = 0 ∨ rand i % 100 < 50
            · rw [if_pos hl]
              right
              rcases ih (i + 1) i h.2 with ⟨hw, -⟩ | hw
              · exact ⟨0, some pb, hw, rfl, pb, rfl, not_not.1 hlock, hl⟩
              · exact hlater i hw
            · rw [if_neg hl]
              rcases ih (i + 1) swapid h.2 with ⟨hw, hrest⟩ | hw
              · refine Or.inl ⟨hw, hskip hrest ?_⟩
                rintro ⟨q, -, -, hq⟩
                exact hl hq
              · exact Or.inr (hlater swapid hw)

theorem not_mem_of_busy (h : ∀ k, ¬ s.FreeSlot k) : none ∉ s.mBlocks := by
  intro hmem
  obtain ⟨k, hk⟩ := List.mem_iff_getElem?.1 hmem
  exact h k hk

/-- Without a free slot the search finds a slot exactly when the loop takes one. -/
theorem find_busy (h : ∀ k, ¬ s.FreeSlot k) :
    (s.findFreeOrSwappable rand = none ∧
      ∀ k, s.UnlockedSlot k → ¬ (k = 0 ∨ rand k % 100 < 50)) ∨
    ∃ i, s.findFreeOrSwappable rand = some i ∧ s.UnlockedSlot i ∧
      (i = 0 ∨ rand i % 100 < 50) := by
  rcases findLoop_busy s.blocks rand s.mBlocks 0 s.mBlocks.length (not_mem_of_busy h) with
    ⟨hw, hnone⟩ | ⟨i, v, hw, hv, pb, rfl, hun, hl⟩
  · refine Or.inl ⟨by simp [findFreeOrSwappable, hw], ?_⟩
    rintro k ⟨pb, hk, hun⟩ hl
    exact hnone k (some pb) hk ⟨pb, rfl, hun, by simpa using hl⟩
  · rw [Nat.zero_add] at hw hl
    have hlt : i < s.mBlocks.length := (List.getElem?_eq_some_iff.1 hv).1
    exact Or.inr ⟨i, by simp [findFreeOrSwappable, hw, hlt], ⟨pb, hv, hun⟩, hl⟩

/-- With a free slot the search finds one. -/
theorem find_some_free {k : Nat} (h : s.FreeSlot k) :
    ∃ i, s.findFreeOrSwappable rand = some i ∧ s.FreeSlot i := by
  induction k using Nat.strongRecOn with
  | ind k ih =>
      by_cases hfirst : ∀ i < k, s.mBlocks[i]? ≠ some none
      · exact ⟨k, find_free rand h hfirst, h⟩
      · obtain ⟨i, hi⟩ := Classical.not_forall.1 hfirst
        obtain ⟨hik, hfree⟩ := Classical.not_imp.1 hi
        exact ih i hik (not_not.1 hfree)

theorem findsSlot_iff (s : RamManager) (rand : Nat → Nat) : s.FindsSlot rand ↔ s.Lucky rand := by
  constructor
  · intro h hbusy hun
    obtain ⟨k, hk⟩ := hun
    rcases @find_busy s rand hbusy with ⟨hnone, -⟩ | ⟨i, -, hi, hl⟩
    · have := h.found.2 ⟨k, Or.inr hk⟩
      rw [hnone] at this
      cases this
    · exact ⟨i, hi, hl⟩
  · intro h
    by_cases hfree : ∃ k, s.FreeSlot k
    · obtain ⟨k, hk⟩ := hfree
      obtain ⟨i, hi, hfi⟩ := @find_some_free s rand k hk
      refine ⟨by simp only [hi, Option.isSome_some, true_iff]; exact ⟨k, Or.inl hk⟩, ?_⟩
      intro j hj
      obtain rfl : i = j := Option.some_inj.1 (hi.symm.trans hj)
      exact Or.inl hfi
    · have hbusy := not_exists.1 hfree
      rcases @find_busy s rand hbusy with ⟨hnone, hunlucky⟩ | ⟨i, hi, hun, -⟩
      · refine ⟨?_, by simp [hnone]⟩
        constructor
        · rw [hnone]
          intro hsome
          cases hsome
        · rintro ⟨k, hk | hk⟩
          · exact absurd hk (hbusy k)
          · obtain ⟨i, hi, hl⟩ := h hbusy ⟨k, hk⟩
            exact absurd hl (hunlucky i hi)
      · refine ⟨by simp only [hi, Option.isSome_some, true_iff]; exact ⟨i, Or.inr hun⟩, ?_⟩
        intro j hj
        obtain rfl : i = j := Option.some_inj.1 (hi.symm.trans hj)
        exact Or.inr ⟨hbusy, hun⟩

theorem find_ok {i : Nat} (h : s.findFreeOrSwappable e.rand = some i) :
    findFreeOrSwappableAddress e.rand s = some (.ok i, s) := by
  simp only [findFreeOrSwappableAddress, Op.bind_ok (show Op.get s = some (.ok s, s) from rfl), h]
  rfl

/-- The calls go on behind a search that found a slot. -/
theorem findsRam_of_found {i : Nat} (hi : s.findFreeOrSwappable e.rand = some i)
    (hslot : s.FreeSlot i ∨ s.UnlockedSlot i) : s.FindsRam e := by
  constructor
  · intro pb flags
    refine ⟨i, hslot, ?_⟩
    unfold ramAllocAddress
    rw [Op.bind_ok (find_ok hi)]
    rfl
  · intro pb hswap hun
    refine ⟨i, hslot, ?_⟩
    have hswap : ¬ (s.blocks pb).flags &&& BF_SWAPPED = 0#32 := hswap
    unfold ramSwapIn
    rw [Op.bind_ok (show blockAt pb s = some (.ok (s.blocks pb), s) from rfl)]
    simp only [hswap, if_false, hun, ne_eq, not_true_eq_false]
    rw [Op.bind_ok (find_ok hi)]

/-- The search keeps its promise exactly when it is lucky. -/
theorem searchKept_iff_lucky (s : RamManager) (e : Env) : s.SearchKept e ↔ s.Lucky e.rand := by
  rw [← findsSlot_iff]
  refine ⟨fun h => h.1, fun h => ⟨h, ?_⟩⟩
  rintro ⟨k, hk⟩
  obtain ⟨i, hi⟩ := Option.isSome_iff_exists.1 (h.found.2 ⟨k, Or.inr hk⟩)
  refine findsRam_of_found hi ?_
  rcases h.chosen i hi with hfree | ⟨-, hun⟩
  · exact Or.inl hfree
  · exact Or.inr hun

/-- A manager whose first slot holds a locked block and whose second one an unlocked block. -/
def lockedFirst : RamManager :=
  { RamManager.constructed (fun pb => if pb = 0 then ⟨BF_VALID ||| BF_LOCKED, 0, 0, none⟩
      else ⟨BF_VALID, 0x1000, 0, none⟩) with
    mBlocks := [some 0, some 1], mGrowCount := 4 }

/-- The search fails although the second slot could be used. -/
theorem search_unlucky : ¬ ∀ (s : RamManager) (e : Env), s.SearchKept e := by
  intro hall
  have hnone : lockedFirst.findFreeOrSwappable (fun _ => 99) = none := by decide
  have hsome := (hall lockedFirst ⟨fun _ => 99, .ok, .ok⟩).1.found.2
    ⟨1, Or.inr ⟨1, rfl, by decide⟩⟩
  rw [show (⟨fun _ => 99, .ok, .ok⟩ : Env).rand = fun _ => 99 from rfl, hnone] at hsome
  cases hsome

end Vin64.Vram
