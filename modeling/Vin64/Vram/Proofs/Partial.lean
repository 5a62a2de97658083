import Vin64.Vram.Proofs.Ops

/-!
# What the operations do from any state

The rules for the liberal precondition: in a state that is not well formed an operation may
fault, and these say what it does when it does not.
-/

namespace Vin64.Vram

open Vin64.Lib Vin64.Lib.Op Vin64.Utils RamManager

variable {s : RamManager} {E : HRESULT → RamManager → Prop}

@[simp] theorem wlp_blockAt (pb : Nat) {Q : RamBlock → RamManager → Prop} :
    wlp (blockAt pb) Q E s ↔ Q (s.blocks pb) s := by
  simp [blockAt]

@[simp] theorem wlp_modifyBlock (pb : Nat) (f : RamBlock → RamBlock)
    {Q : Unit → RamManager → Prop} :
    wlp (modifyBlock pb f) Q E s ↔
      Q () { s with blocks := Function.update s.blocks pb (f (s.blocks pb)) } := by
  simp [modifyBlock]

@[simp] theorem wlp_onBlockInvalid (pb : Nat) {Q : Unit → RamManager → Prop} :
    wlp (onBlockInvalid pb) Q E s ↔ Q () { s with invalidated := s.note pb ++ s.invalidated } :=
  Iff.rfl

@[simp] theorem wlp_slotAt (i : Nat) {Q : Option Nat → RamManager → Prop} :
    wlp (slotAt i) Q E s ↔ ∀ v, s.mBlocks[i]? = some v → Q v s := by
  cases h : s.mBlocks[i]? <;> simp [slotAt, h]

@[simp] theorem wlp_setSlot (i : Nat) (v : Option Nat) {Q : Unit → RamManager → Prop} :
    wlp (setSlot i v) Q E s ↔
      (i < s.mBlocks.length → Q () { s with mBlocks := s.mBlocks.set i v }) := by
  by_cases h : i < s.mBlocks.length <;> simp [setSlot, h]

@[simp] theorem wlp_readPage (b : Buffer) {Q : Page → RamManager → Prop} :
    wlp (readPage b) Q E s ↔ (s.Holds b → Q (s.page b) s) := by
  by_cases h : s.Holds b <;> simp [readPage, h]

@[simp] theorem wlp_writePage (b : Buffer) (p : Page) {Q : Unit → RamManager → Prop} :
    wlp (writePage b p) Q E s ↔ (s.Holds b → Q () (s.setPage b p)) := by
  by_cases h : s.Holds b <;> simp [writePage, h]

@[simp] theorem wlp_pageFilePreAlloc {Q : Nat → RamManager → Prop} :
    wlp pageFilePreAlloc Q E s ↔ Q s.nextPF s.prealloc := by
  unfold pageFilePreAlloc RamManager.nextPF RamManager.prealloc
  cases h : s.mBlockBitMap.find0 <;> simp [h]

@[simp] theorem wlp_mark {idx : Nat} {Q : Unit → RamManager → Prop} :
    wlp (ignore (pageFileMarkUsed idx true)) Q E s ↔ Q () (s.marked idx) := by
  unfold pageFileMarkUsed markSwapBlockUsed RamManager.marked
  by_cases h : s.mBlockBitMap.bits ≤ idx
  · simp [h, Nat.not_lt.2 h]
  · simp [h, Nat.not_le.1 h]

theorem wlp_storeToStorage {a : Access} {index : Nat} {b : Buffer} {Q : Unit → RamManager → Prop}
    (hok : a = .ok → seeks a (uOffset index) → Q () (s.stored .ok index b))
    (hseek : ¬ seeks a (uOffset index) → E .E_FAIL s)
    (hshort : seeks a (uOffset index) → a ≠ .ok → E .E_FAIL (s.stored a index b)) :
    wlp (storeToStorage a index b) Q E s := by
  unfold storeToStorage
  by_cases hs : seeks a (uOffset index) = true
  · simp only [hs, not_true_eq_false, if_false, wlp_bind, wlp_readPage, wlp_writePage, writeFile,
      wlp_modify, storage_setPage, wlp_ite, wlp_fail, wlp_pure]
    intro _ _
    refine ⟨fun ha => hshort hs ha, fun ha => ?_⟩
    obtain rfl : a = .ok := not_not.1 ha
    exact hok rfl hs
  · simpa [hs] using hseek hs

theorem wlp_loadFromStorage {a : Access} {index : Nat} {b : Buffer}
    {Q : Unit → RamManager → Prop}
    (hok : a = .ok → seeks a (uOffset index) → Q () (s.setPage b (s.filePage index)))
    (hseek : ¬ seeks a (uOffset index) → E .E_FAIL s)
    (hshort : seeks a (uOffset index) → a ≠ .ok →
      E .E_FAIL (s.setPage b (s.fetched a index b))) :
    wlp (loadFromStorage a index b) Q E s := by
  unfold loadFromStorage
  by_cases hs : seeks a (uOffset index) = true
  · simp only [hs, not_true_eq_false, if_false, wlp_bind, wlp_get, wlp_readPage, wlp_writePage,
      wlp_ite, wlp_fail, holds_setPage]
    intro _ _
    refine ⟨fun ha => hshort hs ha, fun ha _ => ?_⟩
    obtain rfl : a = .ok := not_not.1 ha
    have hall : s.fetched .ok index b = window s.storage 4096 (uOffset index) :=
      splice_of_le _ _ (Nat.le_refl _)
    have hq := hok rfl hs
    unfold RamManager.filePage at hq
    rw [← hall] at hq
    rw [setPage_setPage]
    exact hq
  · simpa [hs] using hseek hs

@[simp] theorem wlp_find {rand : Nat → Nat} {Q : Nat → RamManager → Prop} :
    wlp (findFreeOrSwappableAddress rand) Q E s ↔
      (∀ i, s.findFreeOrSwappable rand = some i → Q i s) ∧
        (s.findFreeOrSwappable rand = none → E .E_FAIL s) := by
  cases h : s.findFreeOrSwappable rand <;> simp [findFreeOrSwappableAddress, h]

/-! ## The exchange -/

/-- The state after block `c` got slot `i`. -/
def RamManager.brought (u : RamManager) (i c : Nat) : RamManager :=
  { u with
    blocks := Function.update u.blocks c ((u.blocks c).swappedIn i)
    mBlocks := u.mBlocks.set i (some c) }

/-- The page that block `c` brings in from the page file. -/
def RamManager.incoming (s : RamManager) (c : Nat) : Page := s.filePage (s.blocks c).swapid

section Exchange

variable {e : Env} {i : Nat} {Q : Unit → RamManager → Prop}

theorem wlp_evict {j m : Nat} {inPF : Option Nat}
    (hok : e.store = .ok → seeks e.store (uOffset j) →
      Q () (s.stowed i j m (if inPF = none then fun _ => 0 else s.mTemp)))
    (hseek : ¬ seeks e.store (uOffset j) → E .E_FAIL s)
    (hshort : seeks e.store (uOffset j) → e.store ≠ .ok →
      E .E_FAIL (s.stored e.store j (.ram (i * 4096)))) :
    wlp (evict e i j m inPF) Q E s := by
  unfold evict getRamBuffer
  simp only [wlp_bind, shiftLeft_page]
  apply wlp_storeToStorage _ hseek hshort
  intro he hs
  have hq := hok he hs
  cases inPF with
  | none =>
      simp only [wlp_mark, wlp_onBlockInvalid, wlp_modifyBlock, wlp_writePage]
      exact fun _ => hq
  | some c =>
      simp only [wlp_mark, wlp_onBlockInvalid, wlp_bind, wlp_modifyBlock, wlp_readPage,
        wlp_writePage]
      exact fun _ _ => hq

theorem wlp_swap_none
    (hidle : s.mBlocks[i]? = some none → Q () s)
    (hevict : ∀ m, s.mBlocks[i]? = some (some m) → ¬ s.lockedSlot (some m) → Q () (s.vacated i m))
    (hlocked : ∀ m, s.mBlocks[i]? = some (some m) → s.lockedSlot (some m) → E .E_FAIL s)
    (hseek : ¬ seeks e.store (uOffset s.nextPF) → E .E_FAIL s.prealloc)
    (hshort : ∀ m, s.mBlocks[i]? = some (some m) → ¬ s.lockedSlot (some m) →
      seeks e.store (uOffset s.nextPF) → e.store ≠ .ok →
      E .E_FAIL (s.prealloc.stored e.store s.nextPF (.ram (i * 4096)))) :
    wlp (swapRamAndPageFile e i none) Q E s := by
  unfold swapRamAndPageFile
  rw [wlp_bind, wlp_slotAt]
  intro v hv
  cases v with
  | none => simpa using hidle hv
  | some m =>
      by_cases hlock : s.lockedSlot (some m) = true
      · simpa [hlock] using hlocked m hv hlock
      · simp only [wlp_bind, wlp_get, hlock, reduceCtorEq, false_and, ne_eq, not_true_eq_false,
          if_false, Bool.false_eq_true, wlp_pageFilePreAlloc]
        apply wlp_evict (s := s.prealloc)
        · intro _ _
          simp only [if_true, wlp_setSlot]
          exact fun _ => hevict m hv hlock
        · exact hseek
        · exact hshort m hv hlock

theorem wlp_swap_some {c : Nat}
    (hload : s.mBlocks[i]? = some none →
      Q () ((s.setPage (.ram (i * 4096)) (s.incoming c)).brought i c))
    (hexchange : ∀ m, s.mBlocks[i]? = some (some m) → ¬ s.lockedSlot (some m) →
      Q () (((s.setPage .temp (s.incoming c)).stowed i (s.blocks c).swapid m
        (s.incoming c)).brought i c))
    (hlocked : ∀ m, s.mBlocks[i]? = some (some m) → s.lockedSlot (some m) → E .E_FAIL s)
    (hseek : ∀ v, s.mBlocks[i]? = some v → ¬ s.lockedSlot v →
      ¬ seeks e.load (uOffset (s.blocks c).swapid) → E .E_FAIL s)
    (hshort : ∀ v, s.mBlocks[i]? = some v → ¬ s.lockedSlot v →
      seeks e.load (uOffset (s.blocks c).swapid) → e.load ≠ .ok →
      ∀ b, b = (if v ≠ none then Buffer.temp else .ram (i * 4096)) →
      E .E_FAIL (s.setPage b (s.fetched e.load (s.blocks c).swapid b)))
    (hseek' : ∀ m, s.mBlocks[i]? = some (some m) → ¬ seeks e.store (uOffset (s.blocks c).swapid) →
      E .E_FAIL (s.setPage .temp (s.incoming c)))
    (hshort' : ∀ m, s.mBlocks[i]? = some (some m) → ¬ s.lockedSlot (some m) → e.load = .ok →
      seeks e.load (uOffset (s.blocks c).swapid) →
      seeks e.store (uOffset (s.blocks c).swapid) → e.store ≠ .ok →
      E .E_FAIL ((s.setPage .temp (s.incoming c)).stored e.store (s.blocks c).swapid
        (.ram (i * 4096)))) :
    wlp (swapRamAndPageFile e i (some c)) Q E s := by
  unfold swapRamAndPageFile
  rw [wlp_bind, wlp_slotAt]
  intro v hv
  cases v with
  | none =>
      have hfree : s.lockedSlot none = false := rfl
      simp only [wlp_bind, wlp_get, reduceCtorEq, and_false, if_false, hfree, Bool.false_eq_true,
        wlp_pure, ne_eq, not_true_eq_false, not_false_eq_true, if_true]
      apply wlp_loadFromStorage
      · intro _ _
        simp only [wlp_modifyBlock, wlp_setSlot, shiftLeft_page]
        exact fun _ => hload hv
      · exact hseek none hv (by simp [hfree])
      · exact fun hs he => hshort none hv (by simp [hfree]) hs he _ rfl
  | some m =>
      by_cases hlock : s.lockedSlot (some m) = true
      · simpa [hlock] using hlocked m hv hlock
      · simp only [wlp_bind, wlp_get, hlock, reduceCtorEq, false_and, ne_eq, not_false_eq_true,
          if_false, if_true, Bool.false_eq_true, wlp_pure]
        apply wlp_loadFromStorage (b := .temp)
        · intro hload' hs
          apply wlp_evict (s := s.setPage .temp (s.incoming c))
          · intro _ _
            simp only [reduceCtorEq, if_false, wlp_modifyBlock, wlp_setSlot, shiftLeft_page,
              mTemp_setPage]
            exact fun _ => hexchange m hv hlock
          · exact hseek' m hv
          · exact hshort' m hv hlock hload' hs
        · exact hseek _ hv hlock
        · exact fun hs he => hshort _ hv hlock hs he _ rfl

end Exchange

end Vin64.Vram
