import Vin64.Vram.Store

/-!
# What each operation of the RAM manager does

One rule for each primitive and each access to the page file, with the state it leaves.
-/

namespace Vin64.Vram

open Vin64.Lib Vin64.Lib.Op Vin64.Utils

variable {s : RamManager} {E : HRESULT → RamManager → Prop}

theorem flags_ne_of_valid {q : Nat} (h : s.Valid q) : (s.blocks q).flags ≠ 0#32 := by
  intro hzero
  apply h
  rw [hzero]
  exact BitVec.zero_and

section Primitives

variable {α : Type} {Q : α → RamManager → Prop}

@[simp] theorem wp_blockAt (pb : Nat) {Q : RamBlock → RamManager → Prop} :
    wp (blockAt pb) Q E s ↔ Q (s.blocks pb) s := by
  simp [blockAt]

@[simp] theorem wp_modifyBlock (pb : Nat) (f : RamBlock → RamBlock)
    {Q : Unit → RamManager → Prop} :
    wp (modifyBlock pb f) Q E s ↔
      Q () { s with blocks := Function.update s.blocks pb (f (s.blocks pb)) } := by
  simp [modifyBlock]

theorem wp_slotAt {i : Nat} {v : Option Nat} (h : s.mBlocks[i]? = some v)
    {Q : Option Nat → RamManager → Prop} : wp (slotAt i) Q E s ↔ Q v s := by
  simp [slotAt, h]

@[simp] theorem wp_setSlot (i : Nat) (v : Option Nat) {Q : Unit → RamManager → Prop} :
    wp (setSlot i v) Q E s ↔
      i < s.mBlocks.length ∧ Q () { s with mBlocks := s.mBlocks.set i v } := by
  by_cases h : i < s.mBlocks.length <;> simp [setSlot, h]

@[simp] theorem wp_readPage (b : Buffer) {Q : Page → RamManager → Prop} :
    wp (readPage b) Q E s ↔ s.Holds b ∧ Q (s.page b) s := by
  by_cases h : s.Holds b <;> simp [readPage, h]

@[simp] theorem wp_writePage (b : Buffer) (p : Page) {Q : Unit → RamManager → Prop} :
    wp (writePage b p) Q E s ↔ s.Holds b ∧ Q () (s.setPage b p) := by
  by_cases h : s.Holds b <;> simp [writePage, h]

end Primitives

/-! ## The page file -/

@[simp] theorem codeBlockPage_codeBlockPage (p : Page) : codeBlockPage (codeBlockPage p) = p := by
  funext k
  unfold codeBlockPage
  rw [UInt8.xor_assoc, UInt8.xor_self, UInt8.xor_zero]

/-- Coding changes every byte. -/
theorem codeBlockPage_ne (p : Page) (k : Fin 4096) : codeBlockPage p k ≠ p k := by
  have hkey : ∀ r < 8, UInt8.ofNat (0x1982120119821201 >>> (8 * r)) ≠ 0 := by decide
  intro h
  unfold codeBlockPage at h
  apply hkey ((k : Nat) % 8) (Nat.mod_lt _ (by decide))
  have hx : p k ^^^ (p k ^^^ UInt8.ofNat (0x1982120119821201 >>> (8 * ((k : Nat) % 8)))) =
      p k ^^^ p k := congrArg (p k ^^^ ·) h
  rwa [← UInt8.xor_assoc, UInt8.xor_self, UInt8.zero_xor] at hx

namespace RamManager

/-- The index the next page of the page file gets. -/
def nextPF (s : RamManager) : Nat := s.mBlockBitMap.find0.getD s.mBlockBitMap.bits

def prealloc (s : RamManager) : RamManager :=
  { s with mBlockBitMap :=
      if s.mBlockBitMap.find0 = none then
        s.mBlockBitMap.resize (s.mBlockBitMap.bits + s.mGrowCount)
      else s.mBlockBitMap }

def marked (s : RamManager) (idx : Nat) : RamManager :=
  { s with mBlockBitMap :=
      if s.mBlockBitMap.bits ≤ idx then s.mBlockBitMap else s.mBlockBitMap.setbit idx true }

def stored (s : RamManager) (a : Access) (index : Nat) (b : Buffer) : RamManager :=
  { s.setPage b (codeBlockPage (s.page b)) with
    storage := blit s.storage (uOffset index)
      (splice (moved a) (codeBlockPage (s.page b)) (window s.storage 4096 (uOffset index))) }

/-- The bytes a load moves to its buffer. -/
def fetched (s : RamManager) (a : Access) (index : Nat) (b : Buffer) : Page :=
  splice (moved a) (window s.storage 4096 (uOffset index)) (s.page b)


end RamManager

theorem wp_pageFilePreAlloc {Q : Nat → RamManager → Prop} :
    wp pageFilePreAlloc Q E s ↔ Q s.nextPF s.prealloc := by
  unfold pageFilePreAlloc RamManager.nextPF RamManager.prealloc
  cases h : s.mBlockBitMap.find0 <;> simp [h]

theorem wp_mark {idx : Nat} {Q : Unit → RamManager → Prop} :
    wp (ignore (pageFileMarkUsed idx true)) Q E s ↔ Q () (s.marked idx) := by
  unfold pageFileMarkUsed markSwapBlockUsed RamManager.marked
  by_cases h : s.mBlockBitMap.bits ≤ idx
  · simp [h, Nat.not_lt.2 h]
  · simp [h, Nat.not_le.1 h]

theorem holds_setPage {b b' : Buffer} {p : Page} : (s.setPage b p).Holds b' ↔ s.Holds b' := by
  cases b <;> cases b' <;> rfl

theorem storage_setPage {b : Buffer} {p : Page} : (s.setPage b p).storage = s.storage := by
  cases b <;> rfl

theorem setPage_setPage {b : Buffer} {p q : Page} : (s.setPage b p).setPage b q = s.setPage b q := by
  cases b with
  | temp => rfl
  | ram addr => simp [RamManager.setPage, blit_blit]

theorem wp_storeToStorage {a : Access} {index : Nat} {b : Buffer} (hb : s.Holds b)
    {Q : Unit → RamManager → Prop}
    (hok : a = .ok → uOffset index < 2 ^ 63 → Q () (s.stored .ok index b))
    (hseek : ¬ seeks a (uOffset index) → E .E_FAIL s)
    (hshort : seeks a (uOffset index) → a ≠ .ok → E .E_FAIL (s.stored a index b)) :
    wp (storeToStorage a index b) Q E s := by
  unfold storeToStorage
  by_cases hs : seeks a (uOffset index) = true
  · have hlt : uOffset index < 2 ^ 63 := by
      unfold seeks at hs
      simpa using (of_decide_eq_true hs).2
    simp only [hs, not_true_eq_false, if_false, wp_bind, wp_readPage, wp_writePage, hb, true_and,
      writeFile, wp_modify, storage_setPage, wp_ite]
    refine ⟨fun ha => hshort hs ha, fun ha => ?_⟩
    obtain rfl : a = .ok := not_not.1 ha
    exact hok rfl hlt
  · simpa [hs] using hseek hs

theorem wp_loadFromStorage {a : Access} {index : Nat} {b : Buffer} (hb : s.Holds b)
    {Q : Unit → RamManager → Prop}
    (hok : a = .ok → uOffset index < 2 ^ 63 → Q () (s.setPage b (s.filePage index)))
    (hseek : ¬ seeks a (uOffset index) → E .E_FAIL s)
    (hshort : a ≠ .ok → E .E_FAIL (s.setPage b (s.fetched a index b))) :
    wp (loadFromStorage a index b) Q E s := by
  unfold loadFromStorage
  by_cases hs : seeks a (uOffset index) = true
  · have hlt : uOffset index < 2 ^ 63 := by
      unfold seeks at hs
      simpa using (of_decide_eq_true hs).2
    simp only [hs, not_true_eq_false, if_false, wp_bind, wp_get, wp_readPage, wp_writePage, hb,
      true_and, wp_ite, wp_fail, holds_setPage]
    refine ⟨fun ha => hshort ha, fun ha => ?_⟩
    obtain rfl : a = .ok := not_not.1 ha
    have hall : s.fetched .ok index b = window s.storage 4096 (uOffset index) :=
      splice_of_le _ _ (Nat.le_refl _)
    have hq := hok rfl hlt
    unfold RamManager.filePage at hq
    rw [← hall] at hq
    rw [setPage_setPage]
    exact hq
  · simpa [hs] using hseek hs

/-! ## Slots -/

theorem shiftLeft_page (i : Nat) : i <<< VM_PAGE_SHIFT = i * 4096 := Nat.shiftLeft_eq i 12

theorem holds_slot {i : Nat} (h : i < s.mBlocks.length) : s.Holds (.ram (i * 4096)) := by
  have hle : (i + 1) * 4096 ≤ s.mBlocks.length * 4096 := Nat.mul_le_mul_right 4096 h
  rw [Nat.succ_mul] at hle
  exact hle

theorem mTemp_setPage (p : Page) : (s.setPage .temp p).mTemp = p := rfl

namespace RamBlock

/-- The block with the changes of a swap-out. -/
def swappedOut (b : RamBlock) (j : Nat) : RamBlock :=
  { b with swapid := j, flags := b.flags ||| BF_SWAPPED }

/-- The block with the changes of a swap-in. -/
def swappedIn (b : RamBlock) (i : Nat) : RamBlock :=
  { b with addr := i * 4096, flags := b.flags &&& ~~~BF_SWAPPED, swapid := 0 }

/-- The block with the changes of an allocation. -/
def allocated (b : RamBlock) (i : Nat) (flags : BitVec 32) : RamBlock :=
  { b with addr := i * 4096, flags := flags &&& BF_LOCKED ||| BF_VALID, swapid := 0 }

def freed (b : RamBlock) : RamBlock := { b with flags := 0#32, addr := 0, swapid := 0 }

end RamBlock

namespace RamManager

/-- The call of `onBlockInvalid` for a block. -/
def note (s : RamManager) (m : Nat) : List Invalidated :=
  ((s.blocks m).owner.map fun o => ⟨o, m, s.blocks m⟩).toList

/-- The state after the page of slot `i` is stored, with the page `p` put into the slot. -/
def stowed (s : RamManager) (i j m : Nat) (p : Page) : RamManager :=
  setPage { (s.stored .ok j (.ram (i * 4096))).marked j with
    invalidated := s.note m ++ s.invalidated
    blocks := Function.update s.blocks m ((s.blocks m).swappedOut j) } (.ram (i * 4096)) p

/-- The state after block `m` was evicted from slot `i`. -/
def vacated (s : RamManager) (i m : Nat) : RamManager :=
  { s.prealloc.stowed i s.nextPF m fun _ => 0 with mBlocks := s.mBlocks.set i none }

/-- The state after block `m`, in slot `i`, was swapped out; its page is left as it was coded. -/
def putOut (s : RamManager) (i m : Nat) : RamManager :=
  { s.prealloc.stowed i s.nextPF m (codeBlockPage (s.slotPage i)) with
    mBlocks := s.mBlocks.set i none }

/-- The state after block `c` was loaded into the free slot `i`. -/
def loadedIn (s : RamManager) (i c : Nat) : RamManager :=
  { s.setPage (.ram (i * 4096)) (s.filePage (s.blocks c).swapid) with
    blocks := Function.update s.blocks c ((s.blocks c).swappedIn i)
    mBlocks := s.mBlocks.set i (some c) }

/-- The state after block `c` took slot `i` from block `m`. -/
def exchanged (s : RamManager) (i m c : Nat) : RamManager :=
  { (s.setPage .temp (s.filePage (s.blocks c).swapid)).stowed i (s.blocks c).swapid m
      (s.filePage (s.blocks c).swapid) with
    blocks := Function.update
      (Function.update s.blocks m ((s.blocks m).swappedOut (s.blocks c).swapid)) c
      ((s.blocks c).swappedIn i)
    mBlocks := s.mBlocks.set i (some c) }

end RamManager

open RamManager

section Slots

variable {e : Env} {i m : Nat} {Q : Unit → RamManager → Prop}

theorem wp_evict {j : Nat} {inPF : Option Nat} (hi : i < s.mBlocks.length)
    (hok : e.store = .ok → uOffset j < 2 ^ 63 →
      Q () (s.stowed i j m (if inPF = none then fun _ => 0 else s.mTemp)))
    (hseek : ¬ seeks e.store (uOffset j) → E .E_FAIL s)
    (hshort : seeks e.store (uOffset j) → e.store ≠ .ok →
      E .E_FAIL (s.stored e.store j (.ram (i * 4096)))) :
    wp (evict e i j m inPF) Q E s := by
  have hholds := holds_slot hi
  unfold evict getRamBuffer
  simp only [wp_bind, shiftLeft_page]
  apply wp_storeToStorage hholds _ hseek hshort
  intro he hlt
  rw [wp_mark]
  have hq := hok he hlt
  cases inPF with
  | none =>
      simp only [onBlockInvalid, wp_modify, wp_modifyBlock, wp_writePage]
      exact ⟨hholds, hq⟩
  | some c =>
      simp only [onBlockInvalid, wp_bind, wp_modify, wp_modifyBlock, wp_readPage, wp_writePage]
      exact ⟨trivial, hholds, hq⟩

/-- The exchange without a block to bring in frees the slot. -/
theorem wp_swap_none (hi : i < s.mBlocks.length)
    (hidle : s.mBlocks[i]? = some none → Q () s)
    (hevict : ∀ m, s.mBlocks[i]? = some (some m) → e.store = .ok → uOffset s.nextPF < 2 ^ 63 →
      Q () (s.vacated i m))
    (hlocked : ∀ m, s.mBlocks[i]? = some (some m) → s.lockedSlot (some m) → E .E_FAIL s)
    (hseek : ¬ seeks e.store (uOffset s.nextPF) → E .E_FAIL s.prealloc)
    (hshort : ∀ m, s.mBlocks[i]? = some (some m) → ¬ s.lockedSlot (some m) →
      seeks e.store (uOffset s.nextPF) → e.store ≠ .ok →
      E .E_FAIL (s.prealloc.stored e.store s.nextPF (.ram (i * 4096)))) :
    wp (swapRamAndPageFile e i none) Q E s := by
  unfold swapRamAndPageFile
  obtain ⟨v, hv⟩ : ∃ v, s.mBlocks[i]? = some v := ⟨_, List.getElem?_eq_getElem hi⟩
  rw [wp_bind, wp_slotAt hv]
  cases v with
  | none => simpa using hidle hv
  | some m =>
      by_cases hlock : s.lockedSlot (some m) = true
      · simpa [hlock] using hlocked m hv hlock
      · simp only [wp_bind, wp_get, hlock, reduceCtorEq, false_and, ne_eq, not_true_eq_false,
          if_false, Bool.false_eq_true, wp_pageFilePreAlloc]
        apply wp_evict (s := s.prealloc) hi
        · intro he hlt
          simp only [if_true, wp_setSlot]
          exact ⟨hi, hevict m hv he hlt⟩
        · exact hseek
        · exact hshort m hv hlock

/-- The exchange that brings block `c` in. -/
theorem wp_swap_some {c : Nat} (hi : i < s.mBlocks.length) (hmc : s.mBlocks[i]? ≠ some (some c))
    (hload : s.mBlocks[i]? = some none → e.load = .ok → Q () (s.loadedIn i c))
    (hexchange : ∀ m, s.mBlocks[i]? = some (some m) → ¬ s.lockedSlot (some m) → e.load = .ok →
      e.store = .ok → Q () (s.exchanged i m c))
    (hlocked : ∀ m, s.mBlocks[i]? = some (some m) → s.lockedSlot (some m) → E .E_FAIL s)
    (hseek : ¬ seeks e.load (uOffset (s.blocks c).swapid) → E .E_FAIL s)
    (hshort : e.load ≠ .ok → ∀ b, (b = .temp ∨ s.mBlocks[i]? = some none ∧ b = .ram (i * 4096)) →
      E .E_FAIL (s.setPage b (s.fetched e.load (s.blocks c).swapid b)))
    (hseek' : ¬ seeks e.store (uOffset (s.blocks c).swapid) →
      E .E_FAIL (s.setPage .temp (s.filePage (s.blocks c).swapid)))
    (hshort' : ∀ m, s.mBlocks[i]? = some (some m) → ¬ s.lockedSlot (some m) → e.load = .ok →
      seeks e.store (uOffset (s.blocks c).swapid) → e.store ≠ .ok →
      E .E_FAIL ((s.setPage .temp (s.filePage (s.blocks c).swapid)).stored e.store
        (s.blocks c).swapid (.ram (i * 4096)))) :
    wp (swapRamAndPageFile e i (some c)) Q E s := by
  unfold swapRamAndPageFile
  obtain ⟨v, hv⟩ : ∃ v, s.mBlocks[i]? = some v := ⟨_, List.getElem?_eq_getElem hi⟩
  rw [wp_bind, wp_slotAt hv]
  cases v with
  | none =>
      simp only [wp_bind, wp_get, reduceCtorEq, and_false, if_false, RamManager.lockedSlot,
        Option.any_none, Bool.false_eq_true, wp_pure, ne_eq, not_true_eq_false,
        not_false_eq_true, if_true]
      apply wp_loadFromStorage (holds_slot hi)
      · intro he _
        simp only [wp_modifyBlock, wp_setSlot, shiftLeft_page]
        exact ⟨hi, hload hv he⟩
      · exact hseek
      · exact fun he => hshort he _ (.inr ⟨hv, rfl⟩)
  | some m =>
      by_cases hlock : s.lockedSlot (some m) = true
      · simpa [hlock] using hlocked m hv hlock
      · simp only [wp_bind, wp_get, hlock, reduceCtorEq, false_and, ne_eq, not_false_eq_true,
          if_false, if_true, Bool.false_eq_true, wp_pure]
        apply wp_loadFromStorage (b := .temp) trivial
        · intro hload' _
          apply wp_evict (s := s.setPage .temp (s.filePage (s.blocks c).swapid)) hi
          · intro hstore _
            have hne : c ≠ m := by
              rintro rfl
              exact hmc hv
            have hblocks : ((s.setPage .temp (s.filePage (s.blocks c).swapid)).stowed i
                (s.blocks c).swapid m (s.filePage (s.blocks c).swapid)).blocks c = s.blocks c :=
              Function.update_of_ne hne _ _
            simp only [reduceCtorEq, if_false, wp_modifyBlock, wp_setSlot, shiftLeft_page,
              mTemp_setPage]
            rw [hblocks]
            exact ⟨hi, hexchange m hv hlock hload' hstore⟩
          · exact hseek'
          · exact hshort' m hv hlock hload'
        · exact hseek
        · exact fun he => hshort he _ (.inl rfl)

theorem wp_find {Q : Nat → RamManager → Prop}
    (hok : ∀ i, i < s.mBlocks.length → s.findFreeOrSwappable e.rand = some i → Q i s)
    (hE : s.findFreeOrSwappable e.rand = none → E .E_FAIL s) :
    wp (findFreeOrSwappableAddress e.rand) Q E s := by
  unfold findFreeOrSwappableAddress
  rw [wp_bind, wp_get]
  cases hf : s.findFreeOrSwappable e.rand with
  | none => exact hE hf
  | some i =>
      apply hok i _ hf
      unfold findFreeOrSwappable at hf
      simp only [Option.ite_none_right_eq_some, Option.some.injEq] at hf
      rw [← hf.2]
      exact hf.1

end Slots

end Vin64.Vram
