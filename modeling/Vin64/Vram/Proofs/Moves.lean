import Mathlib.Tactic.SplitIfs
import Vin64.Vram.Proofs.Ops

/-!
# Moving pages

A call moves pages between slots and the page file.  Each kind of move keeps the
invariant and the pages themselves.
-/

namespace Vin64.Vram

open Vin64.Lib Vin64.Utils

/-! ## Flags and places -/

theorem and_valid_eq_zero (f : BitVec 32) : f &&& BF_VALID = 0#32 ↔ f.getLsbD 0 = false := by
  rw [← XBitMap.hasBit_eq f (by decide : 0 < 32)]
  simp [XBitMap.hasBit, BF_VALID]

theorem and_swapped_eq_zero (f : BitVec 32) : f &&& BF_SWAPPED = 0#32 ↔ f.getLsbD 1 = false := by
  have hmask : BF_SWAPPED = 1#32 <<< 1 := by decide
  rw [← XBitMap.hasBit_eq f (by decide : 1 < 32), hmask]
  simp [XBitMap.hasBit]

theorem and_locked_eq_zero (f : BitVec 32) : f &&& BF_LOCKED = 0#32 ↔ f.getLsbD 2 = false := by
  have hmask : BF_LOCKED = 1#32 <<< 2 := by decide
  rw [← XBitMap.hasBit_eq f (by decide : 2 < 32), hmask]
  simp [XBitMap.hasBit]

namespace RamBlock

variable {b : RamBlock} {i j : Nat}

theorem place_eq_none : b.place = none ↔ b.flags &&& BF_VALID = 0#32 := by
  unfold place
  split_ifs with hv hs <;> simp [hv]

theorem place_eq_slot : b.place = some (.slot i) ↔
    b.flags &&& BF_VALID ≠ 0#32 ∧ b.flags &&& BF_SWAPPED = 0#32 ∧ b.addr / 4096 = i := by
  unfold place
  split_ifs with hv hs <;> simp_all

theorem place_eq_file : b.place = some (.file j) ↔
    b.flags &&& BF_VALID ≠ 0#32 ∧ b.flags &&& BF_SWAPPED ≠ 0#32 ∧ b.swapid = j := by
  unfold place
  split_ifs with hv hs <;> simp_all

theorem valid_swappedOut : (b.swappedOut j).flags &&& BF_VALID = 0#32 ↔ b.flags &&& BF_VALID = 0#32 := by
  have hmask : BF_SWAPPED[0] = false := by decide
  rw [and_valid_eq_zero, and_valid_eq_zero]
  simp [swappedOut, hmask]

theorem place_swappedOut (h : b.flags &&& BF_VALID ≠ 0#32) : (b.swappedOut j).place = some (.file j) := by
  have hmask : BF_SWAPPED[1] = true := by decide
  apply place_eq_file.2
  refine ⟨fun h0 => h (valid_swappedOut.1 h0), ?_, rfl⟩
  rw [ne_eq, and_swapped_eq_zero]
  simp [swappedOut, hmask]

theorem valid_swappedIn : (b.swappedIn i).flags &&& BF_VALID = 0#32 ↔ b.flags &&& BF_VALID = 0#32 := by
  have hmask : BF_SWAPPED[0] = false := by decide
  rw [and_valid_eq_zero, and_valid_eq_zero]
  simp [swappedIn, hmask]

theorem place_swappedIn (h : b.flags &&& BF_VALID ≠ 0#32) : (b.swappedIn i).place = some (.slot i) := by
  have hmask : BF_SWAPPED[1] = true := by decide
  apply place_eq_slot.2
  refine ⟨fun h0 => h (valid_swappedIn.1 h0), ?_, by simp [swappedIn]⟩
  rw [and_swapped_eq_zero]
  simp [swappedIn, hmask]

theorem valid_allocated {f : BitVec 32} : (b.allocated i f).flags &&& BF_VALID ≠ 0#32 := by
  have hmask : BF_VALID[0] = true := by decide
  rw [ne_eq, and_valid_eq_zero]
  simp [allocated, hmask]

theorem place_allocated {f : BitVec 32} : (b.allocated i f).place = some (.slot i) := by
  have hv : BF_VALID[1] = false := by decide
  have hl : BF_LOCKED[1] = false := by decide
  apply place_eq_slot.2
  refine ⟨valid_allocated, ?_, by simp [allocated]⟩
  rw [and_swapped_eq_zero]
  simp [allocated, hv, hl]

end RamBlock

namespace RamManager

variable {s t : RamManager}

/-! ## The invariant -/

structure Invariant (s : RamManager) : Prop where
  slot_iff : ∀ i pb : Nat, s.mBlocks[i]? = some (some pb) ↔ s.place pb = some (.slot i)
  file : ∀ pb j : Nat, s.place pb = some (.file j) →
    j < s.mBlockBitMap.bits ∧ s.mBlockBitMap.bit j = true
  unshared : ∀ pb q j : Nat, s.place pb = some (.file j) → s.place q = some (.file j) → pb = q
  home : ∀ pb, s.place pb ≠ none →
    ∃ i < s.mBlocks.length, (s.blocks pb).addr = i * 4096
  flags : ∀ pb, (s.blocks pb).flags ≠ 0#32 → s.place pb ≠ none
  grows : 0 < s.mGrowCount
  low : ∀ j, s.mBlockBitMap.bit j = true → j < 2 ^ 51

theorem eq_mul_of_div {a i k : Nat} (hk : a = k * 4096) (hi : a / 4096 = i) : a = i * 4096 := by
  rw [← hi, hk, Nat.mul_div_cancel _ (by decide)]

theorem Invariant.slot_unique (h : s.Invariant) {pb q i : Nat} (hp : s.place pb = some (.slot i))
    (hq : s.place q = some (.slot i)) : pb = q := by
  have hslot := (h.slot_iff i pb).2 hp
  rw [(h.slot_iff i q).2 hq] at hslot
  simpa using hslot.symm

theorem Invariant.rep (h : s.Invariant) : s.RepInvariant where
  slot := by
    intro i pb hslot
    have hp := (h.slot_iff i pb).1 hslot
    obtain ⟨hv, hs, hi⟩ := RamBlock.place_eq_slot.1 hp
    obtain ⟨k, -, hk⟩ := h.home pb (by rw [hp]; simp)
    exact ⟨hv, by simpa [IsSwapped] using hs, eq_mul_of_div hk hi⟩
  resident := by
    intro pb hv hs
    have hp : s.place pb = some (.slot ((s.blocks pb).addr / 4096)) :=
      RamBlock.place_eq_slot.2 ⟨hv, by simpa [IsSwapped] using hs, rfl⟩
    obtain ⟨k, -, hk⟩ := h.home pb (by rw [hp]; simp)
    exact ⟨(s.blocks pb).addr / 4096, eq_mul_of_div hk rfl, (h.slot_iff _ pb).2 hp⟩
  swapped := by
    intro pb hv hs
    have hp : s.place pb = some (.file (s.blocks pb).swapid) :=
      RamBlock.place_eq_file.2 ⟨hv, hs, rfl⟩
    obtain ⟨hlt, hbit⟩ := h.file pb _ hp
    refine ⟨hlt, ?_⟩
    rw [XBitMap.testbit_eq]
    simp [hlt, hbit]
  unshared := by
    intro pb q hpv hps hqv hqs heq
    exact h.unshared pb q _ (RamBlock.place_eq_file.2 ⟨hpv, hps, heq⟩)
      (RamBlock.place_eq_file.2 ⟨hqv, hqs, rfl⟩)

theorem Started.invariant (h : s.Started) : s.Invariant := by
  have hnone : ∀ pb, s.place pb = none := by
    intro pb
    apply RamBlock.place_eq_none.2
    rw [h.unused pb]
    exact BitVec.zero_and
  have hbit : ∀ j, s.mBlockBitMap.bit j = false := by
    intro j
    rw [h.bits]
    simp [XBitMap.bit, XBitMap.word, XBitMap.empty]
  constructor
  · intro i pb
    simp [h.slots i pb, hnone pb]
  · intro pb j hp
    rw [hnone pb] at hp
    simp at hp
  · intro pb q j hp
    rw [hnone pb] at hp
    simp at hp
  · intro pb hp
    exact absurd (hnone pb) hp
  · intro pb hp
    exact absurd (h.unused pb) hp
  · exact h.grows
  · intro j hj
    rw [hbit j] at hj
    simp at hj

/-- A block that stays where it is keeps its page while no page is written. -/
theorem content_congr {q : Nat} (hplace : t.place q = s.place q) (hram : t.mRamData = s.mRamData)
    (hfile : t.storage = s.storage) : t.content q = s.content q := by
  have hpage : t.pageAt = s.pageAt := by
    funext x
    cases x with
    | slot i => simp [pageAt, slotPage, page, hram]
    | file j => simp [pageAt, filePage, hfile]
  unfold RamManager.content
  rw [hplace, hpage]

/-- The block says where its page is. -/
theorem place_congr {q : Nat} (h : t.blocks q = s.blocks q) : t.place q = s.place q := by
  unfold place
  rw [h]

theorem place_of_blocks (h : t.blocks = s.blocks) : t.place = s.place :=
  funext fun q => place_congr (congrFun h q)

theorem place_of_update {b : RamBlock} {m : Nat} (h : t.blocks = Function.update s.blocks m b) :
    t.place m = b.place ∧ ∀ q, q ≠ m → t.place q = s.place q := by
  unfold place
  rw [h]
  constructor
  · rw [Function.update_self]
  · intro q hq
    rw [Function.update_of_ne hq]

theorem Invariant.addr_lt (h : s.Invariant) {i pb : Nat} (hp : s.place pb = some (.slot i)) :
    i < s.mBlocks.length ∧ (s.blocks pb).addr = i * 4096 := by
  obtain ⟨k, hlt, hk⟩ := h.home pb (by rw [hp]; simp)
  have hi := (RamBlock.place_eq_slot.1 hp).2.2
  have hki : k = i := by rw [← hi, hk, Nat.mul_div_cancel _ (by decide)]
  rw [← hki]
  exact ⟨hlt, hk⟩

/-! ## A page moves to the page file -/

/-- Block `m` gives slot `i` up for the page `j` of the page file. -/
structure Evicts (s t : RamManager) (i m j : Nat) : Prop where
  was : s.mBlocks[i]? = some (some m)
  blocks : t.blocks = Function.update s.blocks m ((s.blocks m).swappedOut j)
  slots : t.mBlocks = s.mBlocks.set i none
  grows : t.mGrowCount = s.mGrowCount
  took : j < t.mBlockBitMap.bits ∧ t.mBlockBitMap.bit j = true
  used : ∀ k, k ≠ j → t.mBlockBitMap.bit k = s.mBlockBitMap.bit k
  more : s.mBlockBitMap.bits ≤ t.mBlockBitMap.bits
  fresh : j < s.mBlockBitMap.bits → s.mBlockBitMap.bit j = false
  low : j < 2 ^ 51
  filed : t.filePage j = s.slotPage i
  files : ∀ k < 2 ^ 51, k ≠ j → t.filePage k = s.filePage k
  pages : ∀ k, k ≠ i → t.slotPage k = s.slotPage k
  notes : t.invalidated = s.note m ++ s.invalidated

namespace Evicts

variable {i m j : Nat}

theorem place_self (h : Evicts s t i m j) (hs : s.Invariant) : t.place m = some (.file j) := by
  have hm := (hs.slot_iff i m).1 h.was
  rw [(place_of_update h.blocks).1]
  exact RamBlock.place_swappedOut (RamBlock.place_eq_slot.1 hm).1

theorem place_ne (h : Evicts s t i m j) {q : Nat} (hq : q ≠ m) : t.place q = s.place q :=
  (place_of_update h.blocks).2 q hq

/-- No block is at the page of the page file that the move takes. -/
theorem not_file (h : Evicts s t i m j) (hs : s.Invariant) (q : Nat) : s.place q ≠ some (.file j) := by
  intro hq
  obtain ⟨hlt, hbit⟩ := hs.file q j hq
  rw [h.fresh hlt] at hbit
  simp at hbit

theorem invariant (h : Evicts s t i m j) (hs : s.Invariant) : t.Invariant := by
  have hm := (hs.slot_iff i m).1 h.was
  have hself := h.place_self hs
  constructor
  · intro k q
    rw [h.slots, List.getElem?_set]
    by_cases hq : q = m
    · rw [hq, hself]
      by_cases hk : i = k
      · simp [hk]
      · have hne : s.mBlocks[k]? ≠ some (some m) := by
          intro hk'
          rw [(hs.slot_iff k m).1 hk'] at hm
          exact hk (by simpa using hm.symm)
        simp [hk, hne]
    · rw [h.place_ne hq, ← hs.slot_iff k q]
      by_cases hk : i = k
      · rw [← hk, h.was]
        simp [Ne.symm hq]
      · simp [hk]
  · intro q k hq
    by_cases hqm : q = m
    · rw [hqm, hself] at hq
      obtain rfl : j = k := by simpa using hq
      exact h.took
    · rw [h.place_ne hqm] at hq
      obtain ⟨hlt, hbit⟩ := hs.file q k hq
      have hkj : k ≠ j := by
        rintro rfl
        exact h.not_file hs q hq
      exact ⟨Nat.lt_of_lt_of_le hlt h.more, by rw [h.used k hkj]; exact hbit⟩
  · intro p q k hp hq
    by_cases hpm : p = m
    · rw [hpm, hself] at hp
      obtain rfl : j = k := by simpa using hp
      by_cases hqm : q = m
      · rw [hpm, hqm]
      · rw [h.place_ne hqm] at hq
        exact absurd hq (h.not_file hs q)
    · rw [h.place_ne hpm] at hp
      by_cases hqm : q = m
      · rw [hqm, hself] at hq
        obtain rfl : j = k := by simpa using hq
        exact absurd hp (h.not_file hs p)
      · rw [h.place_ne hqm] at hq
        exact hs.unshared p q k hp hq
  · intro q hq
    rw [h.slots, List.length_set, h.blocks]
    by_cases hqm : q = m
    · rw [hqm, Function.update_self]
      exact hs.home m (by rw [hm]; simp)
    · rw [Function.update_of_ne hqm]
      exact hs.home q (by rwa [h.place_ne hqm] at hq)
  · intro q hq
    by_cases hqm : q = m
    · rw [hqm, hself]
      simp
    · rw [h.place_ne hqm]
      rw [h.blocks, Function.update_of_ne hqm] at hq
      exact hs.flags q hq
  · rw [h.grows]
    exact hs.grows
  · intro k hk
    by_cases hkj : k = j
    · rw [hkj]
      exact h.low
    · rw [h.used k hkj] at hk
      exact hs.low k hk

theorem content (h : Evicts s t i m j) (hs : s.Invariant) : t.content = s.content := by
  have hm := (hs.slot_iff i m).1 h.was
  funext q
  unfold RamManager.content
  by_cases hq : q = m
  · rw [hq, h.place_self hs, hm]
    simpa [pageAt] using h.filed
  · rw [h.place_ne hq]
    cases hp : s.place q with
    | none => rfl
    | some x =>
        cases x with
        | slot k =>
            have hk : k ≠ i := by
              rintro rfl
              exact hq (hs.slot_unique hp hm)
            simpa [pageAt] using h.pages k hk
        | file k =>
            have hk : k ≠ j := by
              rintro rfl
              exact h.not_file hs q hp
            have hlow := hs.low k (hs.file q k hp).2
            simpa [pageAt] using h.files k hlow hk

end Evicts

/-! ## A block gets a slot -/

/-- Block `c`, which has no slot, becomes `b` in the free slot `i`. -/
structure Puts (s t : RamManager) (i c : Nat) (b : RamBlock) : Prop where
  was : s.mBlocks[i]? = some none
  apart : ∀ k, s.place c ≠ some (.slot k)
  placed : b.place = some (.slot i)
  addr : b.addr = i * 4096
  blocks : t.blocks = Function.update s.blocks c b
  slots : t.mBlocks = s.mBlocks.set i (some c)
  grows : t.mGrowCount = s.mGrowCount
  bitmap : t.mBlockBitMap = s.mBlockBitMap
  files : ∀ k, t.filePage k = s.filePage k
  pages : ∀ k, k ≠ i → t.slotPage k = s.slotPage k
  notes : t.invalidated = s.invalidated

namespace Puts

variable {i c : Nat} {b : RamBlock}

theorem place_self (h : Puts s t i c b) : t.place c = some (.slot i) := by
  rw [(place_of_update h.blocks).1, h.placed]

theorem place_ne (h : Puts s t i c b) {q : Nat} (hq : q ≠ c) : t.place q = s.place q :=
  (place_of_update h.blocks).2 q hq

/-- Only the block that moves can change its page of the page file, and it has none. -/
theorem file_of_file (h : Puts s t i c b) {q j : Nat} (hq : t.place q = some (.file j)) :
    q ≠ c ∧ s.place q = some (.file j) := by
  have hne : q ≠ c := by
    rintro rfl
    rw [h.place_self] at hq
    simp at hq
  exact ⟨hne, by rwa [h.place_ne hne] at hq⟩

theorem invariant (h : Puts s t i c b) (hs : s.Invariant) : t.Invariant := by
  have hlt : i < s.mBlocks.length := (List.getElem?_eq_some_iff.1 h.was).1
  constructor
  · intro k q
    rw [h.slots, List.getElem?_set]
    by_cases hq : q = c
    · rw [hq, h.place_self]
      by_cases hk : i = k
      · simp [← hk, hlt]
      · have hne : s.mBlocks[k]? ≠ some (some c) := fun hk' =>
          h.apart k ((hs.slot_iff k c).1 hk')
        simp [hk, hne]
    · rw [h.place_ne hq, ← hs.slot_iff k q]
      by_cases hk : i = k
      · rw [← hk, h.was]
        simp [hlt, Ne.symm hq]
      · simp [hk]
  · intro q j hq
    rw [h.bitmap]
    exact hs.file q j (h.file_of_file hq).2
  · intro p q j hp hq
    exact hs.unshared p q j (h.file_of_file hp).2 (h.file_of_file hq).2
  · intro q hq
    rw [h.slots, List.length_set, h.blocks]
    by_cases hqc : q = c
    · rw [hqc, Function.update_self]
      exact ⟨i, hlt, h.addr⟩
    · rw [Function.update_of_ne hqc]
      exact hs.home q (by rwa [h.place_ne hqc] at hq)
  · intro q hq
    by_cases hqc : q = c
    · rw [hqc, h.place_self]
      simp
    · rw [h.place_ne hqc]
      rw [h.blocks, Function.update_of_ne hqc] at hq
      exact hs.flags q hq
  · rw [h.grows]
    exact hs.grows
  · rw [h.bitmap]
    exact hs.low

theorem content (h : Puts s t i c b) (hs : s.Invariant) :
    t.content = Function.update s.content c (some (t.slotPage i)) := by
  funext q
  by_cases hq : q = c
  · rw [hq, Function.update_self]
    simp [RamManager.content, h.place_self, pageAt]
  · rw [Function.update_of_ne hq]
    unfold RamManager.content
    rw [h.place_ne hq]
    cases hp : s.place q with
    | none => rfl
    | some x =>
        cases x with
        | slot k =>
            have hk : k ≠ i := by
              rintro rfl
              have hwas := h.was
              rw [(hs.slot_iff k q).2 hp] at hwas
              simp at hwas
            simpa [pageAt] using h.pages k hk
        | file k => simpa [pageAt] using h.files k

theorem content_of_loaded (h : Puts s t i c b) (hs : s.Invariant) {j : Nat}
    (hc : s.place c = some (.file j)) (hpage : t.slotPage i = s.filePage j) :
    t.content = s.content := by
  have hcontent : s.content c = some (s.filePage j) := by simp [RamManager.content, hc, pageAt]
  rw [h.content hs, hpage, ← hcontent, Function.update_eq_self]

end Puts

/-! ## A block loses its page -/

/-- Block `c` becomes `b`, which is not allocated. -/
structure Lifts (s t : RamManager) (c : Nat) (b : RamBlock) : Prop where
  gone : b.flags = 0#32
  blocks : t.blocks = Function.update s.blocks c b
  of_slot : ∀ i, s.place c = some (.slot i) → t.mBlocks = s.mBlocks.set i none
  of_rest : (∀ i, s.place c ≠ some (.slot i)) → t.mBlocks = s.mBlocks
  grows : t.mGrowCount = s.mGrowCount
  bits : t.mBlockBitMap.bits = s.mBlockBitMap.bits
  used : ∀ k, s.place c ≠ some (.file k) → t.mBlockBitMap.bit k = s.mBlockBitMap.bit k
  clears : ∀ k, t.mBlockBitMap.bit k = true →
    s.mBlockBitMap.bit k = true ∧ s.place c ≠ some (.file k)
  ram : t.mRamData = s.mRamData
  storage : t.storage = s.storage
  notes_slot : ∀ i, s.place c = some (.slot i) → t.invalidated = s.note c ++ s.invalidated
  notes_rest : (∀ i, s.place c ≠ some (.slot i)) → t.invalidated = s.invalidated

namespace Lifts

variable {c : Nat} {b : RamBlock}

theorem place_self (h : Lifts s t c b) : t.place c = none := by
  rw [(place_of_update h.blocks).1]
  apply RamBlock.place_eq_none.2
  rw [h.gone]
  exact BitVec.zero_and

theorem place_ne (h : Lifts s t c b) {q : Nat} (hq : q ≠ c) : t.place q = s.place q :=
  (place_of_update h.blocks).2 q hq

theorem ne_of_place (h : Lifts s t c b) {q : Nat} (hq : t.place q ≠ none) : q ≠ c := by
  rintro rfl
  exact hq h.place_self

theorem length (h : Lifts s t c b) : t.mBlocks.length = s.mBlocks.length := by
  by_cases hc : ∃ i, s.place c = some (.slot i)
  · obtain ⟨i, hi⟩ := hc
    rw [h.of_slot i hi, List.length_set]
  · rw [h.of_rest fun i hi => hc ⟨i, hi⟩]

theorem slot_iff (h : Lifts s t c b) (hs : s.Invariant) (k q : Nat) :
    t.mBlocks[k]? = some (some q) ↔ t.place q = some (.slot k) := by
  by_cases hc : ∃ i, s.place c = some (.slot i)
  · obtain ⟨i, hi⟩ := hc
    rw [h.of_slot i hi, List.getElem?_set]
    have hci := (hs.slot_iff i c).2 hi
    by_cases hq : q = c
    · rw [hq, h.place_self]
      by_cases hk : i = k
      · simp [hk]
      · have hne : s.mBlocks[k]? ≠ some (some c) := by
          intro hk'
          rw [(hs.slot_iff k c).1 hk'] at hi
          exact hk (by simpa using hi.symm)
        simp [hk, hne]
    · rw [h.place_ne hq, ← hs.slot_iff k q]
      by_cases hk : i = k
      · rw [← hk, hci]
        simp [Ne.symm hq]
      · simp [hk]
  · have hrest : ∀ i, s.place c ≠ some (.slot i) := fun i hi => hc ⟨i, hi⟩
    rw [h.of_rest hrest, hs.slot_iff k q]
    by_cases hq : q = c
    · rw [hq, h.place_self]
      simp [hrest k]
    · rw [h.place_ne hq]

theorem invariant (h : Lifts s t c b) (hs : s.Invariant) : t.Invariant := by
  have hback : ∀ {q : Nat} {x : Place}, t.place q = some x → q ≠ c ∧ s.place q = some x := by
    intro q x hq
    have hne := h.ne_of_place (q := q) (by rw [hq]; simp)
    exact ⟨hne, by rwa [h.place_ne hne] at hq⟩
  constructor
  · exact h.slot_iff hs
  · intro q j hq
    obtain ⟨hne, hq⟩ := hback hq
    have hcj : s.place c ≠ some (.file j) := fun hcj => hne (hs.unshared q c j hq hcj)
    rw [h.bits, h.used j hcj]
    exact hs.file q j hq
  · intro p q j hp hq
    exact hs.unshared p q j (hback hp).2 (hback hq).2
  · intro q hq
    have hne := h.ne_of_place hq
    rw [h.length, h.blocks, Function.update_of_ne hne]
    exact hs.home q (by rwa [h.place_ne hne] at hq)
  · intro q hq
    have hne : q ≠ c := by
      rintro rfl
      rw [h.blocks, Function.update_self, h.gone] at hq
      exact hq rfl
    rw [h.place_ne hne]
    rw [h.blocks, Function.update_of_ne hne] at hq
    exact hs.flags q hq
  · rw [h.grows]
    exact hs.grows
  · intro k hk
    exact hs.low k (h.clears k hk).1

theorem content (h : Lifts s t c b) : t.content = Function.update s.content c none := by
  funext q
  by_cases hq : q = c
  · rw [hq, Function.update_self]
    simp [RamManager.content, h.place_self]
  · rw [Function.update_of_ne hq]
    exact content_congr (h.place_ne hq) h.ram h.storage

end Lifts

/-- `s` with the block at the page `j` of the page file freed. -/
def lifted (s : RamManager) (c j : Nat) : RamManager :=
  { s with
    blocks := Function.update s.blocks c (s.blocks c).freed
    mBlockBitMap := s.mBlockBitMap.setbit j false }

theorem lifts_file {c j : Nat} (hs : s.Invariant) (hc : s.place c = some (.file j)) :
    Lifts s (lifted s c j) c (s.blocks c).freed := by
  have hj := (hs.file c j hc).1
  constructor <;> try rfl
  · intro k hk
    rw [hc] at hk
    simp at hk
  · exact fun _ => rfl
  · intro k hk
    have hkj : k ≠ j := by
      rintro rfl
      exact hk hc
    exact XBitMap.bit_setbit_of_ne _ _ hj hkj
  · intro k hk
    have hkj : k ≠ j := by
      rintro rfl
      rw [show (lifted s c k).mBlockBitMap.bit k = _ from XBitMap.bit_setbit_self _ false hj] at hk
      simp at hk
    have hset := XBitMap.bit_setbit_of_ne s.mBlockBitMap false hj hkj
    refine ⟨hset.symm.trans hk, ?_⟩
    rw [hc]
    simp [Ne.symm hkj]
  · intro i hi
    rw [hc] at hi
    simp at hi
  · exact fun _ => rfl

theorem lifts_slot {c i : Nat} (hc : s.place c = some (.slot i)) :
    Lifts s { s with
      invalidated := s.note c ++ s.invalidated
      mBlocks := s.mBlocks.set i none
      blocks := Function.update s.blocks c (s.blocks c).freed } c (s.blocks c).freed := by
  constructor <;> try rfl
  · intro k hk
    rw [hc] at hk
    obtain rfl : i = k := by simpa using hk
    rfl
  · exact fun hrest => absurd hc (hrest i)
  · exact fun _ _ => rfl
  · exact fun k hk => ⟨hk, by rw [hc]; simp⟩
  · exact fun _ _ => rfl
  · exact fun hrest => absurd hc (hrest i)

/-! ## Two blocks change places -/

/-- Block `m` gives slot `i` up for block `c`, which is at the page `j` of the page file. -/
structure Exchanges (s t : RamManager) (i m c j : Nat) : Prop where
  was : s.mBlocks[i]? = some (some m)
  at_file : s.place c = some (.file j)
  blocks : t.blocks = Function.update (Function.update s.blocks m ((s.blocks m).swappedOut j)) c
    ((s.blocks c).swappedIn i)
  slots : t.mBlocks = s.mBlocks.set i (some c)
  grows : t.mGrowCount = s.mGrowCount
  bits : t.mBlockBitMap.bits = s.mBlockBitMap.bits
  took : t.mBlockBitMap.bit j = true
  used : ∀ k, k ≠ j → t.mBlockBitMap.bit k = s.mBlockBitMap.bit k
  loaded : t.slotPage i = s.filePage j
  filed : t.filePage j = s.slotPage i
  files : ∀ k < 2 ^ 51, k ≠ j → t.filePage k = s.filePage k
  pages : ∀ k, k ≠ i → t.slotPage k = s.slotPage k
  notes : t.invalidated = s.note m ++ s.invalidated

namespace Exchanges

variable {i m c j : Nat}

/-- `t` before block `c` gets its slot. -/
def evicted (s t : RamManager) (i m c j : Nat) : RamManager :=
  { t with
    blocks := Function.update (lifted s c j).blocks m ((s.blocks m).swappedOut j)
    mBlocks := s.mBlocks.set i none }

theorem ne (h : Exchanges s t i m c j) (hs : s.Invariant) : m ≠ c := by
  rintro rfl
  have hm := (hs.slot_iff i m).1 h.was
  rw [h.at_file] at hm
  simp at hm

theorem evicts (h : Exchanges s t i m c j) (hs : s.Invariant) :
    Evicts (lifted s c j) (evicted s t i m c j) i m j where
  was := h.was
  blocks := by simp [evicted, lifted, Function.update_of_ne (h.ne hs)]
  slots := rfl
  grows := h.grows
  took := ⟨Nat.lt_of_lt_of_eq (hs.file c j h.at_file).1 h.bits.symm, h.took⟩
  used := by
    intro k hk
    have hset := XBitMap.bit_setbit_of_ne s.mBlockBitMap false (hs.file c j h.at_file).1 hk
    exact (h.used k hk).trans hset.symm
  more := Nat.le_of_eq h.bits.symm
  fresh := fun _ => XBitMap.bit_setbit_self _ _ (hs.file c j h.at_file).1
  low := hs.low j (hs.file c j h.at_file).2
  filed := h.filed
  files := h.files
  pages := h.pages
  notes := by
    have hblock : (lifted s c j).note m = s.note m := by
      simp [note, lifted, Function.update_of_ne (h.ne hs)]
    rw [hblock]
    exact h.notes

theorem puts (h : Exchanges s t i m c j) (hs : s.Invariant) :
    Puts (evicted s t i m c j) t i c ((s.blocks c).swappedIn i) where
  was := by
    have hlt := (List.getElem?_eq_some_iff.1 h.was).1
    simp [evicted, hlt]
  apart := by
    intro k hk
    rw [(h.evicts hs).place_ne (h.ne hs).symm, (lifts_file hs h.at_file).place_self] at hk
    simp at hk
  placed := RamBlock.place_swappedIn (RamBlock.place_eq_file.1 h.at_file).1
  addr := rfl
  blocks := by
    have hne := h.ne hs
    rw [h.blocks]
    funext q
    by_cases hq : q = c
    · rw [hq, Function.update_self, Function.update_self]
    · by_cases hqm : q = m <;> simp [evicted, lifted, hq, hqm, hne]
  slots := by simp [evicted, h.slots]
  grows := rfl
  bitmap := rfl
  files := fun _ => rfl
  pages := fun _ _ => rfl
  notes := rfl

theorem invariant (h : Exchanges s t i m c j) (hs : s.Invariant) : t.Invariant :=
  (h.puts hs).invariant ((h.evicts hs).invariant ((lifts_file hs h.at_file).invariant hs))

theorem content (h : Exchanges s t i m c j) (hs : s.Invariant) : t.content = s.content := by
  have hl := (lifts_file hs h.at_file).invariant hs
  have hc : s.content c = some (s.filePage j) := by simp [RamManager.content, h.at_file, pageAt]
  calc
    t.content = Function.update (evicted s t i m c j).content c (some (t.slotPage i)) :=
        (h.puts hs).content ((h.evicts hs).invariant hl)
    _ = Function.update (Function.update s.content c none) c (some (s.filePage j)) := by
        rw [(h.evicts hs).content hl, (lifts_file hs h.at_file).content, h.loaded]
    _ = s.content := by rw [Function.update_idem, ← hc, Function.update_eq_self]

end Exchanges

end RamManager

end Vin64.Vram
