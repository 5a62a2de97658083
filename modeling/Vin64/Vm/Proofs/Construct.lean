import Vin64.Vm.Construct
import Vin64.Vm.Proofs.Pages

/-!
# What the memory of a section held before

`RamFreeAddress` and `RamSwapIn` go by the flags of a block.  Those of a new section are whatever
was there: `destroy` frees the slot or the page of the page file that the leftovers name.
-/

namespace Vin64.Vm

open Vin64.Lib Vin64.Lib.Op Vin64.Utils Vin64.Vram Vin64.Vram.RamManager KoSection

variable {s t u m : RamManager} {e : Env} {i k q : Nat} {window : Fin 32 ↪ Nat}
  {b : Fin 32 → RamBlock} {g : Nat → RamBlock}

/-! ## Blocks that are written over -/

theorem overlay_window (j : Fin 32) : overlay window b g (window j) = b j := by
  have hfind : (List.finRange 32).find? (fun i => window i = window j) = some j := by
    cases hfind : (List.finRange 32).find? fun i => window i = window j with
    | none =>
        have hno := List.find?_eq_none.1 hfind j (List.mem_finRange j)
        simp at hno
    | some l =>
        have hsame : window l = window j := by simpa using List.find?_some hfind
        rw [window.injective hsame]
  unfold overlay
  rw [hfind]
  rfl

theorem overlay_other (hq : ∀ i, window i ≠ q) : overlay window b g q = g q := by
  have hfind : (List.finRange 32).find? (fun i => window i = q) = none := by
    rw [List.find?_eq_none]
    intro i _
    simpa using hq i
  unfold overlay
  rw [hfind]
  rfl

/-! ## What `destroy` leaves -/

/-- The entry of a slot that is to be cleared is in the table. -/
def FreesInRange (s : RamManager) (q : Nat) : Prop :=
  (s.blocks q).flags ≠ 0#32 → (s.blocks q).flags &&& BF_SWAPPED = 0#32 →
    (s.blocks q).addr / 4096 < s.mBlocks.length

/-- The state after `RamFreeAddress`, whatever the block holds. -/
def released (s : RamManager) (q : Nat) : RamManager :=
  if (s.blocks q).flags = 0#32 then s
  else if (s.blocks q).flags &&& BF_SWAPPED ≠ 0#32 then
    if s.mBlockBitMap.bits ≤ (s.blocks q).swapid then s
    else { s with
      mBlockBitMap := s.mBlockBitMap.setbit (s.blocks q).swapid false
      blocks := Function.update s.blocks q (s.blocks q).freed }
  else { s with
    invalidated := s.note q ++ s.invalidated
    mBlocks := s.mBlocks.set ((s.blocks q).addr / 4096) none
    blocks := Function.update s.blocks q (s.blocks q).freed }

theorem wp_ignore_free {Q : Unit → RamManager → Prop} {E : HRESULT → RamManager → Prop} :
    wp (ignore (ramFreeAddress q)) Q E s ↔ FreesInRange s q ∧ Q () (released s q) := by
  unfold FreesInRange released
  simp only [wp_ignore, ramFreeAddress, ramFreeBody, wp_bind, wp_blockAt, wp_ite, wp_pure]
  by_cases hzero : (s.blocks q).flags = 0#32
  · simp [hzero]
  · by_cases hswap : (s.blocks q).flags &&& BF_SWAPPED = 0#32
    · simp only [hzero, hswap, onBlockInvalid, wp_modify, wp_setSlot, wp_modifyBlock, if_false,
        not_true_eq_false, ne_eq, false_implies, true_implies, true_and, not_false_eq_true]
      rfl
    · by_cases hbits : s.mBlockBitMap.bits ≤ (s.blocks q).swapid
      · simp [hzero, hswap, hbits, pageFileMarkUsed, markSwapBlockUsed]
      · simp [hzero, hswap, hbits, Nat.not_le.1 hbits, pageFileMarkUsed, markSwapBlockUsed,
          RamBlock.freed]

@[simp] theorem length_released : (released s q).mBlocks.length = s.mBlocks.length := by
  unfold released
  split_ifs <;> simp

theorem blocks_released_ne {p : Nat} (hp : p ≠ q) : (released s q).blocks p = s.blocks p := by
  unfold released
  split_ifs <;> simp [hp]

theorem freesInRange_released {p : Nat} (hp : p ≠ q) :
    FreesInRange (released s q) p ↔ FreesInRange s p := by
  unfold FreesInRange
  rw [blocks_released_ne hp, length_released]

/-- The state after the blocks are freed, one after the other. -/
def releasedAll (window : Fin 32 ↪ Nat) (s : RamManager) (is : List (Fin 32)) : RamManager :=
  is.foldl (fun s i => released s (window i)) s

theorem wp_freeBlocks {P : RamManager → Prop} {x : KoSection} (is : List (Fin 32))
    (hnodup : is.Nodup) : wp (freeBlocks is) (fun _ z => P z.mgr) (fun _ _ => False) x ↔
      (∀ i ∈ is, FreesInRange x.mgr (x.blocks i)) ∧ P (releasedAll x.blocks x.mgr is) := by
  induction is generalizing x with
  | nil => simp [freeBlocks, releasedAll]
  | cons i is ih =>
      obtain ⟨hout, hnodup⟩ := List.nodup_cons.1 hnodup
      have hrest : (∀ j ∈ is, FreesInRange (released x.mgr (x.blocks i)) (x.blocks j)) ↔
          ∀ j ∈ is, FreesInRange x.mgr (x.blocks j) := by
        refine forall₂_congr fun j hj => freesInRange_released fun hsame => ?_
        rw [x.blocks.injective hsame] at hj
        exact hout hj
      have hfirst : wp (ignore (onSectionMgr (ramFreeAddress (x.blocks i))) >>= fun _ =>
          freeBlocks is) (fun _ z => P z.mgr) (fun _ _ => False) x ↔
          FreesInRange x.mgr (x.blocks i) ∧
            wp (freeBlocks is) (fun _ z => P z.mgr) (fun _ _ => False)
              (putMgr (released x.mgr (x.blocks i)) x) := by
        rw [wp_bind, wp_ignore, onSectionMgr, wp_zoom, ← wp_ignore (E := fun _ _ => False),
          wp_ignore_free]
      rw [freeBlocks, wp_bind, wp_get, hfirst, ih hnodup]
      show _ ∧ (∀ j ∈ is, FreesInRange (released x.mgr (x.blocks i)) (x.blocks j)) ∧ _ ↔ _
      rw [hrest, List.forall_mem_cons, and_assoc]
      rfl

/-- The block names this slot to be cleared. -/
def FreesSlot (b : RamBlock) (k : Nat) : Prop :=
  b.flags ≠ 0#32 ∧ b.flags &&& BF_SWAPPED = 0#32 ∧ b.addr / 4096 = k

/-- The block names this page of the page file to be freed. -/
def FreesFile (b : RamBlock) (j : Nat) : Prop :=
  b.flags ≠ 0#32 ∧ b.flags &&& BF_SWAPPED ≠ 0#32 ∧ b.swapid = j

/-- The entries that some blocks name are cleared, and no others. -/
structure Clears {ι α : Type} (names : ι → Nat → Prop) (bound : Nat) (x : α) (old : Nat → α)
    (is : List ι) (new : Nat → α) : Prop where
  cleared : ∀ i ∈ is, ∀ k < bound, names i k → new k = x
  left : ∀ k, (∀ i ∈ is, ¬ names i k) → new k = old k

section Clears

variable {ι α : Type} {names : ι → Nat → Prop} {bound : Nat} {x : α} {old mid new : Nat → α}
  {is : List ι}

theorem Clears.refl (hno : ∀ i ∈ is, ∀ k < bound, ¬ names i k) : Clears names bound x old is old :=
  ⟨fun i hi k hk h => absurd h (hno i hi k hk), fun _ _ => rfl⟩

theorem Clears.congr {names' : ι → Nat → Prop} (hnames : ∀ i ∈ is, names' i = names i)
    (h : Clears names bound x old is new) : Clears names' bound x old is new := by
  constructor
  · intro i hi k hk hik
    rw [hnames i hi] at hik
    exact h.cleared i hi k hk hik
  · intro k hno
    apply h.left k
    intro i hi
    rw [← hnames i hi]
    exact hno i hi

/-- An entry stays cleared when another block names it too. -/
theorem Clears.cons {i : ι} (h : Clears names bound x old [i] mid)
    (hrest : Clears names bound x mid is new) : Clears names bound x old (i :: is) new := by
  constructor
  · intro j hj k hk hjk
    by_cases hlater : ∃ l ∈ is, names l k
    · obtain ⟨l, hl, hlk⟩ := hlater
      exact hrest.cleared l hl k hk hlk
    · have hnone : ∀ l ∈ is, ¬ names l k := fun l hl hlk => hlater ⟨l, hl, hlk⟩
      rw [hrest.left k hnone]
      rcases List.mem_cons.1 hj with rfl | hj
      · exact h.cleared j (List.mem_singleton_self j) k hk hjk
      · exact absurd hjk (hnone j hj)
  · intro k hno
    rw [hrest.left k fun j hj => hno j (List.mem_cons_of_mem _ hj)]
    exact h.left k (by simpa using hno i List.mem_cons_self)

end Clears

/-- What freeing some blocks of a window does. -/
structure Swept (window : Fin 32 ↪ Nat) (s : RamManager) (is : List (Fin 32)) (t : RamManager) :
    Prop where
  others : ∀ q, (∀ i ∈ is, window i ≠ q) → t.blocks q = s.blocks q
  freed : ∀ i ∈ is, t.blocks (window i) = s.blocks (window i) ∨
    (t.blocks (window i)).flags = 0#32
  slots : Clears (fun i => FreesSlot (s.blocks (window i))) s.mBlocks.length (some none)
    (fun k => s.mBlocks[k]?) is (fun k => t.mBlocks[k]?)
  files : Clears (fun i => FreesFile (s.blocks (window i))) s.mBlockBitMap.bits false
    s.mBlockBitMap.bit is t.mBlockBitMap.bit
  length : t.mBlocks.length = s.mBlocks.length
  bits : t.mBlockBitMap.bits = s.mBlockBitMap.bits
  bytes : t.mRamData = s.mRamData ∧ t.storage = s.storage
  notes : ∃ new, t.invalidated = new ++ s.invalidated ∧ ∀ n ∈ new, ∃ i ∈ is,
    n.pb = window i ∧ FreesSlot (s.blocks (window i)) (n.block.addr / 4096)

/-- The block names nothing that could be freed. -/
theorem swept_refl {is : List (Fin 32)} (hslot : ∀ i ∈ is, ∀ k, ¬ FreesSlot (s.blocks (window i)) k)
    (hfile : ∀ i ∈ is, ∀ j < s.mBlockBitMap.bits, ¬ FreesFile (s.blocks (window i)) j) :
    Swept window s is s where
  others := fun _ _ => rfl
  freed := fun _ _ => .inl rfl
  slots := Clears.refl fun i hi k _ => hslot i hi k
  files := Clears.refl hfile
  length := rfl
  bits := rfl
  bytes := ⟨rfl, rfl⟩
  notes := ⟨[], rfl, by simp⟩

theorem swept_released (i : Fin 32) : Swept window s [i] (released s (window i)) := by
  have hothers : ∀ q, (∀ j ∈ [i], window j ≠ q) →
      (released s (window i)).blocks q = s.blocks q := by
    intro q hq
    exact blocks_released_ne (hq i (List.mem_singleton_self i)).symm
  by_cases hzero : (s.blocks (window i)).flags = 0#32
  · rw [show released s (window i) = s from if_pos hzero]
    apply swept_refl <;> simp [FreesSlot, FreesFile, hzero]
  by_cases hswap : (s.blocks (window i)).flags &&& BF_SWAPPED = 0#32
  · have hslot : ∀ k, FreesSlot (s.blocks (window i)) k ↔
        (s.blocks (window i)).addr / 4096 = k := by
      simp [FreesSlot, hzero, hswap]
    have hstate : released s (window i) = { s with
        invalidated := s.note (window i) ++ s.invalidated
        mBlocks := s.mBlocks.set ((s.blocks (window i)).addr / 4096) none
        blocks := Function.update s.blocks (window i) (s.blocks (window i)).freed } := by
      unfold released
      rw [if_neg hzero, if_neg (not_not.2 hswap)]
    refine ⟨hothers, ?_, ⟨?_, ?_⟩, ⟨?_, ?_⟩, ?_, ?_, ?_, ?_⟩ <;> rw [hstate]
    · simp [RamBlock.freed]
    · simp only [List.mem_singleton, forall_eq, hslot]
      intro k hk hfrees
      rw [hfrees]
      exact List.getElem?_set_self hk
    · simp only [List.mem_singleton, forall_eq, hslot]
      exact fun k hk => List.getElem?_set_ne hk
    · simp [FreesFile, hswap]
    · exact fun _ _ => rfl
    · simp
    · exact ⟨rfl, rfl⟩
    · refine ⟨_, rfl, fun n hn => ⟨i, List.mem_singleton_self i, ?_⟩⟩
      unfold note at hn
      obtain ⟨o, -, rfl⟩ := Option.map_eq_some_iff.1 (Option.mem_toList.1 hn)
      exact ⟨rfl, (hslot _).2 rfl⟩
  · by_cases hbits : s.mBlockBitMap.bits ≤ (s.blocks (window i)).swapid
    · have hsame : released s (window i) = s := by
        unfold released
        rw [if_neg hzero, if_pos hswap, if_pos hbits]
      rw [hsame]
      apply swept_refl
      · simp [FreesSlot, hswap]
      · simp only [List.mem_singleton, forall_eq]
        rintro j hj ⟨-, -, rfl⟩
        exact absurd hj (Nat.not_lt.2 hbits)
    · have hstate : released s (window i) = { s with
          mBlockBitMap := s.mBlockBitMap.setbit (s.blocks (window i)).swapid false
          blocks := Function.update s.blocks (window i) (s.blocks (window i)).freed } := by
        unfold released
        rw [if_neg hzero, if_pos hswap, if_neg hbits]
      have hfile : ∀ j, FreesFile (s.blocks (window i)) j ↔ (s.blocks (window i)).swapid = j := by
        simp [FreesFile, hzero, hswap]
      refine ⟨hothers, ?_, ⟨?_, ?_⟩, ⟨?_, ?_⟩, ?_, ?_, ?_, ?_⟩ <;> rw [hstate]
      · simp [RamBlock.freed]
      · simp [FreesSlot, hswap]
      · exact fun _ _ => rfl
      · simp only [List.mem_singleton, forall_eq, hfile]
        rintro j hj rfl
        exact XBitMap.bit_setbit_self _ _ hj
      · simp only [List.mem_singleton, forall_eq, hfile]
        exact fun j hj => XBitMap.bit_setbit_of_ne _ _ (Nat.not_le.1 hbits) (Ne.symm hj)
      · exact XBitMap.bits_setbit _ _ _
      · exact ⟨rfl, rfl⟩
      · exact ⟨[], rfl, by simp⟩

theorem Swept.cons {i : Fin 32} {is : List (Fin 32)} (hi : i ∉ is)
    (h : Swept window s [i] u) (hrest : Swept window u is t) : Swept window s (i :: is) t := by
  have hblock : ∀ j ∈ is, u.blocks (window j) = s.blocks (window j) := by
    intro j hj
    apply h.others
    intro l hl hsame
    obtain rfl := List.mem_singleton.1 hl
    rw [window.injective hsame] at hi
    exact hi hj
  constructor
  · intro q hq
    rw [hrest.others q fun j hj => hq j (List.mem_cons_of_mem _ hj)]
    apply h.others
    intro j hj
    obtain rfl := List.mem_singleton.1 hj
    exact hq j List.mem_cons_self
  · intro j hj
    rcases List.mem_cons.1 hj with rfl | hj
    · have hkept : t.blocks (window j) = u.blocks (window j) := by
        apply hrest.others
        intro l hl hsame
        rw [window.injective hsame] at hl
        exact hi hl
      rw [hkept]
      exact h.freed j (List.mem_singleton_self j)
    · rw [← hblock j hj]
      exact hrest.freed j hj
  · apply h.slots.cons
    rw [← h.length]
    exact hrest.slots.congr fun j hj => by rw [hblock j hj]
  · apply h.files.cons
    rw [← h.bits]
    exact hrest.files.congr fun j hj => by rw [hblock j hj]
  · rw [hrest.length, h.length]
  · rw [hrest.bits, h.bits]
  · rw [hrest.bytes.1, hrest.bytes.2]
    exact h.bytes
  · obtain ⟨new, hnew, hall⟩ := h.notes
    obtain ⟨new', hnew', hall'⟩ := hrest.notes
    refine ⟨new' ++ new, by rw [hnew', hnew, List.append_assoc], fun n hn => ?_⟩
    rcases List.mem_append.1 hn with hn | hn
    · obtain ⟨j, hj, hpb, hslot⟩ := hall' n hn
      rw [hblock j hj] at hslot
      exact ⟨j, List.mem_cons_of_mem _ hj, hpb, hslot⟩
    · obtain ⟨j, hj, hpb, hslot⟩ := hall n hn
      obtain rfl := List.mem_singleton.1 hj
      exact ⟨j, List.mem_cons_self, hpb, hslot⟩

theorem swept_releasedAll {is : List (Fin 32)} (hnodup : is.Nodup) :
    Swept window s is (releasedAll window s is) := by
  induction is generalizing s with
  | nil => exact swept_refl (by simp) (by simp)
  | cons i is ih =>
      obtain ⟨hout, hnodup⟩ := List.nodup_cons.1 hnodup
      exact (swept_released i).cons hout (ih hnodup)

theorem wp_destroy {P : RamManager → Prop} {x : KoSection} :
    wp KoSection.destroy (fun _ z => P z.mgr) (fun _ _ => False) x ↔
      (∀ i, FreesInRange x.mgr (x.blocks i)) ∧
        P (releasedAll x.blocks x.mgr (List.finRange 32)) := by
  simp only [KoSection.destroy, KoSection.close, wp_bind, wp_modify, wp_get, ne_eq,
    not_true_eq_false, if_false, wp_pure]
  rw [wp_freeBlocks (List.finRange 32) (List.nodup_finRange 32)]
  simp

/-! ## A new section -/

section New

variable {this : Nat} {left : Fin 32 → RamBlock}

theorem blocks_construct (i : Fin 32) : (construct m this window left).mgr.blocks (window i) =
    { left i with owner := some this } := overlay_window i

theorem place_construct (hq : ∀ i, window i ≠ q) :
    (construct m this window left).mgr.place q = m.place q :=
  RamManager.place_congr (overlay_other hq)

/-- A block in use lies outside of the memory of the section. -/
theorem other_of_place (hfree : ∀ i, ¬ m.Valid (window i)) (hq : m.place q ≠ none) :
    ∀ i, window i ≠ q := by
  rintro i rfl
  exact hfree i fun h => hq (RamBlock.place_eq_none.2 h)

/-- A slot that harmless leftovers name is free. -/
theorem Harmless.slot {b : RamBlock} (h : Harmless m b) (hk : FreesSlot b k) :
    m.mBlocks[k]? = some none := by
  obtain ⟨hflags, hres, rfl⟩ := hk
  have hfree := h.2 hflags
  rwa [if_neg (not_not.2 hres)] at hfree

/-- No block is at a page of the page file that harmless leftovers name. -/
theorem Harmless.file {b : RamBlock} (h : Harmless m b) {j : Nat} (hj : FreesFile b j) (q : Nat) :
    m.place q ≠ some (.file j) := by
  obtain ⟨hflags, hswap, rfl⟩ := hj
  have hfree := h.2 hflags
  rw [if_pos hswap] at hfree
  exact hfree q

/-- Freeing harmless leftovers leaves what other blocks have. -/
theorem spares_swept (hm : m.Invariant) (hleft : ∀ i, Harmless m (left i)) {is : List (Fin 32)}
    (h : Swept window (construct m this window left).mgr is t) (hall : ∀ i, i ∈ is) :
    SparesOthers window (construct m this window left).mgr t ∧
      SameOthers window (construct m this window left).mgr t := by
  have hnew : ∀ i, (construct m this window left).mgr.blocks (window i) =
      { left i with owner := some this } := blocks_construct
  have hold : ∀ q, (∀ i, window i ≠ q) →
      (construct m this window left).mgr.place q = m.place q := fun q => place_construct
  have hsame : ∀ q, (∀ i, window i ≠ q) →
      t.place q = (construct m this window left).mgr.place q := by
    intro q hq
    exact RamManager.place_congr (h.others q fun i _ => hq i)
  have hslot : ∀ i k, FreesSlot ((construct m this window left).mgr.blocks (window i)) k →
      m.mBlocks[k]? = some none := by
    intro i k hk
    rw [hnew i] at hk
    exact (hleft i).slot hk
  have hown : ∀ i, t.place (window i) = none := by
    intro i
    apply RamBlock.place_eq_none.2
    rcases h.freed i (hall i) with hkept | hzero
    · rw [hkept, hnew i]
      exact (hleft i).1
    · rw [hzero]
      exact BitVec.zero_and
  refine ⟨⟨?_, ?_, ?_, ?_⟩, ?_⟩
  · intro q hq k hk
    rw [hsame q hq, hold q hq] at hk
    have hentry := (hm.slot_iff k q).2 hk
    rw [h.slots.left k]
    · exact hentry
    · intro i _ hfrees
      rw [hslot i k hfrees] at hentry
      simp at hentry
  · intro q hq j hj
    rw [hsame q hq, hold q hq] at hj
    obtain ⟨hlt, hbit⟩ := hm.file q j hj
    have hmarked : t.mBlockBitMap.bit j = m.mBlockBitMap.bit j := by
      apply h.files.left
      intro i _ hfrees
      rw [hnew i] at hfrees
      exact (hleft i).file hfrees q hj
    have hbits : t.mBlockBitMap.bits = m.mBlockBitMap.bits := h.bits
    rw [XBitMap.testbit_eq, hmarked, hbits]
    simp [hlt, hbit]
  · intro q _ hplaced i
    rw [hown i]
    exact hplaced.symm
  · intro n hn q hq _ hslotq
    obtain ⟨new, hnotes, hnew'⟩ := h.notes
    rw [since_eq hnotes] at hn
    obtain ⟨i, -, -, hfrees⟩ := hnew' n hn
    rw [hold q hq] at hslotq
    have hentry := (hm.slot_iff _ q).2 hslotq
    rw [hslot i _ hfrees] at hentry
    simp at hentry
  · exact fun q hq => content_congr (hsame q hq) h.bytes.1 h.bytes.2

/-- Leftovers that are freed without harm name nothing that another block has. -/
theorem harmless_of_swept (hm : m.Invariant) (hfree : ∀ i, ¬ m.Valid (window i))
    {is : List (Fin 32)} (h : Swept window (construct m this window left).mgr is t) {i : Fin 32}
    (hi : i ∈ is) (hunused : (left i).flags &&& BF_VALID = 0#32)
    (hrange : FreesInRange (construct m this window left).mgr (window i))
    (hspares : SparesOthers window (construct m this window left).mgr t) : Harmless m (left i) := by
  have hnew : (construct m this window left).mgr.blocks (window i) =
      { left i with owner := some this } := blocks_construct i
  have hplace : ∀ q x, m.place q = some x → (∀ i, window i ≠ q) ∧ t.place q = some x := by
    intro q x hq
    have hother := other_of_place hfree (q := q) (by rw [hq]; simp)
    refine ⟨hother, ?_⟩
    rw [← hq, ← (place_construct hother : (construct m this window left).mgr.place q = m.place q)]
    exact RamManager.place_congr (h.others q fun i _ => hother i)
  refine ⟨hunused, fun hflags => ?_⟩
  by_cases hswap : (left i).flags &&& BF_SWAPPED = 0#32
  · rw [if_neg (not_not.2 hswap)]
    have hlt : (left i).addr / 4096 < m.mBlocks.length := by
      unfold FreesInRange at hrange
      rw [hnew] at hrange
      exact hrange hflags hswap
    obtain ⟨v, hv⟩ : ∃ v, m.mBlocks[(left i).addr / 4096]? = some v :=
      ⟨_, List.getElem?_eq_getElem hlt⟩
    cases v with
    | none => exact hv
    | some q =>
        obtain ⟨hother, hq⟩ := hplace q _ ((hm.slot_iff _ q).1 hv)
        have hkept := hspares.slot q hother _ hq
        rw [h.slots.cleared i hi _ hlt (by rw [hnew]; exact ⟨hflags, hswap, rfl⟩)] at hkept
        simp at hkept
  · rw [if_pos hswap]
    intro q hq
    obtain ⟨hother, ht⟩ := hplace q _ hq
    have hkept := hspares.file q hother _ ht
    rw [XBitMap.testbit_eq,
      h.files.cleared i hi _ (hm.file q _ hq).1 (by rw [hnew]; exact ⟨hflags, hswap, rfl⟩)] at hkept
    simp at hkept

end New

/-! ## What `get_block` leaves -/

/-- The states differ in the blocks of the window only. -/
structure Alike (window : Fin 32 ↪ Nat) (t t' : RamManager) : Prop where
  slots : t.mBlocks = t'.mBlocks
  ram : t.mRamData = t'.mRamData
  bitmap : t.mBlockBitMap = t'.mBlockBitMap
  storage : t.storage = t'.storage
  notes : t.invalidated = t'.invalidated
  others : ∀ q, (∀ i, window i ≠ q) → t.blocks q = t'.blocks q

namespace Alike

variable {t' : RamManager}

theorem place (h : Alike window t t') (hq : ∀ i, window i ≠ q) : t.place q = t'.place q :=
  RamManager.place_congr (h.others q hq)

theorem setPage (h : Alike window t t') (a : Nat) (p : Page) :
    Alike window (t.setPage (.ram a) p) (t'.setPage (.ram a) p) where
  slots := h.slots
  ram := congrArg (fun r => blit r a p) h.ram
  bitmap := h.bitmap
  storage := h.storage
  notes := h.notes
  others := h.others

/-- Other blocks keep what they have when the state is one of the manager but for the window. -/
theorem spares (h : Alike window t t') (ht' : t'.Invariant) (hm : m.Invariant)
    (hplace : ∀ q, (∀ i, window i ≠ q) → s.place q = m.place q)
    (hown : ∀ i, t.place (window i) = none ∨ t.place (window i) = t'.place (window i))
    {new : List Invalidated} (hnotes : t'.invalidated = new ++ s.invalidated)
    (hnew : ∀ n ∈ new, m.place n.pb = some (.slot (n.block.addr / 4096))) :
    SparesOthers window s t where
  slot := by
    intro q hq k hk
    rw [h.place hq] at hk
    rw [h.slots]
    exact (ht'.slot_iff k q).2 hk
  file := by
    intro q hq j hj
    rw [h.place hq] at hj
    obtain ⟨hlt, hbit⟩ := ht'.file q j hj
    rw [h.bitmap, XBitMap.testbit_eq]
    simp [hlt, hbit]
  apart := by
    intro q hq hplaced i hsame
    rcases hown i with hnone | hplaced'
    · rw [hnone] at hsame
      exact hplaced hsame.symm
    · rw [hplaced', h.place hq] at hsame
      rw [h.place hq] at hplaced
      cases hx : t'.place q with
      | none => exact hplaced hx
      | some x =>
          rw [hx] at hsame
          cases x with
          | slot k => exact hq i (ht'.slot_unique hsame hx)
          | file j => exact hq i (ht'.unshared _ _ j hsame hx)
  told := by
    intro n hn q hq hne hslot
    rw [since_eq (h.notes.trans hnotes)] at hn
    rw [hplace q hq] at hslot
    exact hne (hm.slot_unique hslot (hnew n hn))

theorem content (h : Alike window t t') (hq : ∀ i, window i ≠ q) : t.content q = t'.content q :=
  content_congr (h.place hq) h.ram h.storage

end Alike

/-- `t` is `t'` with the blocks of the window as in `B`. -/
structure Masks (window : Fin 32 ↪ Nat) (B : Nat → RamBlock) (t' t : RamManager) : Prop where
  same : t = { t' with blocks := t.blocks }
  others : ∀ q, (∀ i, window i ≠ q) → t.blocks q = t'.blocks q
  own : ∀ i, t.blocks (window i) = B (window i)

theorem Masks.alike {B : Nat → RamBlock} {t' : RamManager} (h : Masks window B t' t) :
    Alike window t t' := by
  refine ⟨?_, ?_, ?_, ?_, ?_, h.others⟩ <;> rw [h.same]

/-- Room is made without a look at the blocks of a window that is not in use. -/
theorem wp_makeRoom_masked {B : Nat → RamBlock} (hm : m.Invariant)
    (hB : ∀ q, (∀ i, window i ≠ q) → B q = m.blocks q) (hfree : ∀ i, ¬ m.Valid (window i))
    (hi : i < m.mBlocks.length) :
    wp (swapRamAndPageFile e i none)
      (fun _ t => ∃ t', MadeRoom m t' i ∧ Masks window B t' t)
      (fun _ t => ∃ t', Fails e.transfers m t' ∧ Masks window B t' t)
      { m with blocks := B } := by
  have hpre := fails_prealloc (e := e.transfers) hm
  rw [swap_none_eq]
  apply wp_swap_none (s := { m with blocks := B }) hi
  · exact fun hidle => ⟨m, .free hidle, rfl, hB, fun _ => rfl⟩
  · intro q hq _ hlt
    have hother := other_of_place hfree (q := q) (by rw [(hm.slot_iff i q).1 hq]; simp)
    refine ⟨m.vacated i q, .evict (evicts_stowed hm hq hlt fun _ => 0)
      (slotPage_stowed_self q fun _ => 0), ?_, ?_, ?_⟩
    · have hnote : RamManager.note { m with blocks := B } q = m.note q := by
        have hblock : RamManager.blocks { m with blocks := B } q = m.blocks q := hB q hother
        unfold note
        rw [hblock]
      unfold vacated stowed
      rw [show RamManager.note (RamManager.prealloc { m with blocks := B }) q =
        m.prealloc.note q from hnote]
      rfl
    · intro p hp
      show Function.update B q _ p = Function.update m.blocks q _ p
      by_cases hpq : p = q
      · rw [hpq, Function.update_self, Function.update_self]
        exact congrArg (fun b => RamBlock.swappedOut b _) (hB q hother)
      · rw [Function.update_of_ne hpq, Function.update_of_ne hpq]
        exact hB p hp
    · exact fun j => Function.update_of_ne (hother j) _ _
  · exact fun _ _ _ => ⟨m, .refl _ m, rfl, hB, fun _ => rfl⟩
  · exact fun _ => ⟨m.prealloc, hpre, rfl, hB, fun _ => rfl⟩
  · exact fun _ _ _ _ hstore => ⟨m.prealloc.stored e.transfers.store m.nextPF (.ram (i * 4096)),
      hpre.stored hstore, rfl, hB, fun _ => rfl⟩

theorem wp_findAddress {change : Nat → Bool} {Q : Nat → RamManager → Prop}
    {E : HRESULT → RamManager → Prop} (hok : ∀ k < s.mBlocks.length, Q k s) (hE : E .E_FAIL s) :
    wp (findFreeOrSwappableAddress change) Q E s := by
  unfold findFreeOrSwappableAddress
  rw [wp_bind, wp_get]
  cases hfind : findFreeOrSwappable s change with
  | none => exact hE
  | some k => exact hok k (find_chosen hfind).1

/-- A block of the window got a slot; otherwise the state is one of the manager. -/
structure Taken (window : Fin 32 ↪ Nat) (B : Nat → RamBlock) (m : RamManager) (j : Fin 32) (k : Nat)
    (t' t : RamManager) : Prop where
  room : ∃ u b, MadeRoom m u k ∧ Puts u t' k (window j) b
  alike : Alike window t t'
  block : t.place (window j) = some (.slot k) ∧ (t.blocks (window j)).addr = k * 4096
  rest : ∀ i, i ≠ j → t.blocks (window i) = B (window i)

/-- A block of the window gets the slot that is made free. -/
theorem taken_allocated {B : Nat → RamBlock} {v : RamManager} {j : Fin 32} (hm : m.Invariant)
    (hplace : m.place (window j) = none) (hroom : MadeRoom m u k) (hmask : Masks window B u v) :
    ∃ t', Taken window B m j k t' { v with
      blocks := Function.update v.blocks (window j) ((v.blocks (window j)).allocated k 0#32)
      mBlocks := v.mBlocks.set k (some (window j)) } := by
  have hnone := hroom.place_none hm hplace
  have hput := puts_allocated 0#32 hroom.slots.1 fun l hl => by
    rw [hnone] at hl
    simp at hl
  refine ⟨_, ⟨u, _, hroom, hput⟩, ?_, ?_, ?_⟩
  · refine ⟨?_, hmask.alike.ram, hmask.alike.bitmap, hmask.alike.storage, hmask.alike.notes, ?_⟩
    · exact congrArg (fun xs => xs.set k (some (window j))) hmask.alike.slots
    · intro q hq
      show Function.update v.blocks (window j) _ q = Function.update u.blocks (window j) _ q
      rw [Function.update_of_ne (hq j).symm, Function.update_of_ne (hq j).symm]
      exact hmask.others q hq
  · have hself := Function.update_self (window j) ((v.blocks (window j)).allocated k 0#32) v.blocks
    exact ⟨(congrArg RamBlock.place hself).trans RamBlock.place_allocated,
      congrArg RamBlock.addr hself⟩
  · intro i hi
    have hne : window i ≠ window j := fun h => hi (window.injective h)
    show Function.update v.blocks (window j) _ (window i) = _
    rw [Function.update_of_ne hne]
    exact hmask.own i

theorem wp_alloc_masked {B : Nat → RamBlock} (hm : m.Invariant)
    (hslots : m.mBlocks.length ≤ maxSlots) (hB : ∀ q, (∀ i, window i ≠ q) → B q = m.blocks q)
    (hfree : ∀ i, ¬ m.Valid (window i)) (j : Fin 32) :
    wp (ramAllocAddress e (window j) 0)
      (fun _ t => ∃ k t', Taken window B m j k t' t)
      (fun _ t => ∃ t', Fails e.transfers m t' ∧ Masks window B t' t)
      { m with blocks := B } := by
  have hplace : m.place (window j) = none := RamBlock.place_eq_none.2 (not_not.1 (hfree j))
  unfold ramAllocAddress
  rw [wp_bind]
  apply wp_findAddress
  · intro k hk
    rw [wp_bind]
    apply wp_mono (wp_makeRoom_masked hm hB hfree hk)
    · intro _ v hend
      obtain ⟨u, hroom, hmask⟩ := hend
      have hlen : k < v.mBlocks.length := by
        rw [hmask.alike.slots, hroom.slots.2, List.length_set]
        exact hk
      have hblock : (v.blocks (window j)).allocated k 0#32 = { v.blocks (window j) with
          addr := ramAddress k, flags := 0 &&& BF_LOCKED ||| BF_VALID, swapid := 0 } := by
        rw [ramAddress_of_lt (Nat.lt_of_lt_of_le hk hslots)]
        rfl
      have htaken := taken_allocated (j := j) hm hplace hroom hmask
      rw [hblock] at htaken
      simp only [wp_bind, wp_modifyBlock, wp_setSlot]
      exact ⟨hlen, k, htaken⟩
    · exact fun _ t ht => ht
  · exact ⟨m, .refl _ m, rfl, hB, fun _ => rfl⟩

/-- Only the block that was in the slot is reported. -/
theorem notes_of_madeRoom (hm : m.Invariant) (h : MadeRoom m u k) :
    ∃ new, u.invalidated = new ++ m.invalidated ∧
      ∀ n ∈ new, m.place n.pb = some (.slot (n.block.addr / 4096)) := by
  cases h with
  | free _ => exact ⟨[], rfl, by simp⟩
  | @evict _ _ p _ hev _ =>
      have hp := (hm.slot_iff k p).1 hev.was
      refine ⟨m.note p, hev.notes, fun n hn => ?_⟩
      unfold RamManager.note at hn
      obtain ⟨o, -, rfl⟩ := Option.map_eq_some_iff.1 (Option.mem_toList.1 hn)
      have haddr : (m.blocks p).addr / 4096 = k := by
        rw [(hm.addr_lt hp).2]
        exact Nat.mul_div_cancel k (by decide)
      show m.place p = some (.slot ((m.blocks p).addr / 4096))
      rw [haddr, hp]

/-- What a call on a window that is not in use may do to other blocks. -/
structure Unharmed (window : Fin 32 ↪ Nat) (e : Vram.Env) (s t : RamManager) : Prop where
  spares : SparesOthers window s t
  same : e.Clean → SameOthers window s t

section Calls

variable {B : Nat → RamBlock} {t' : RamManager} {j : Fin 32}

theorem place_masked (hunused : ∀ i, (B (window i)).flags &&& BF_VALID = 0#32)
    (hown : t.blocks (window j) = B (window j)) : t.place (window j) = none := by
  apply RamBlock.place_eq_none.2
  rw [hown]
  exact hunused j

theorem unharmed_of_fails {e : Vram.Env} (hm : m.Invariant)
    (hB : ∀ q, (∀ i, window i ≠ q) → B q = m.blocks q)
    (hunused : ∀ i, (B (window i)).flags &&& BF_VALID = 0#32) (hfails : Fails e m t')
    (h : Masks window B t' t) : Unharmed window e { m with blocks := B } t := by
  have hsame : Alike window { m with blocks := B } m := ⟨rfl, rfl, rfl, rfl, rfl, hB⟩
  constructor
  · have hnotes : t'.invalidated = [] ++ m.invalidated := hfails.notes
    apply h.alike.spares (hfails.invariant hm) hm (fun q hq => hsame.place hq) _ hnotes
    · simp
    · exact fun i => .inl (place_masked hunused (h.own i))
  · intro hclean q hq
    rw [h.alike.content hq, hfails.content hclean, hsame.content hq]

/-- The page of the block that got the slot can be written to. -/
theorem unharmed_of_taken {e : Vram.Env} (hm : m.Invariant)
    (hB : ∀ q, (∀ i, window i ≠ q) → B q = m.blocks q)
    (hunused : ∀ i, (B (window i)).flags &&& BF_VALID = 0#32) (h : Taken window B m j k t' t)
    (p : Page) : Unharmed window e { m with blocks := B } (t.setPage (.ram (k * 4096)) p) := by
  have hsame : Alike window { m with blocks := B } m := ⟨rfl, rfl, rfl, rfl, rfl, hB⟩
  obtain ⟨⟨u, b, hroom, hput⟩, halike, hblock, hrest⟩ := h
  have hu := hroom.invariant hm
  have ht' := hput.invariant hu
  obtain ⟨new, hnotes, hnew⟩ := notes_of_madeRoom hm hroom
  have halike' := halike.setPage (k * 4096) p
  constructor
  · apply halike'.spares (invariant_setPage ht' _ _) hm fun q hq => hsame.place hq
    · intro i
      by_cases hi : i = j
      · right
        rw [hi]
        exact hblock.1.trans hput.place_self.symm
      · left
        exact place_masked hunused (hrest i hi)
    · exact hput.notes.trans hnotes
    · exact hnew
  · intro _ q hq
    have hne : q ≠ window j := (hq j).symm
    rw [halike'.content hq, (rewrites_setPage ht' hput.place_self p).content,
      Function.update_of_ne hne, hput.content hu, Function.update_of_ne hne, hroom.content hm,
      hsame.content hq]

end Calls

/-- The first call of a new section takes a slot as any other client of the manager would. -/
theorem wp_getBlock_new (this : Nat) {left : Fin 32 → RamBlock} (hm : m.Invariant)
    (hslots : m.mBlocks.length ≤ maxSlots) (hfree : ∀ i, ¬ m.Valid (window i))
    (hunused : ∀ i, (left i).flags &&& BF_VALID = 0#32) (size : BitVec 64) (off : BitVec 64) :
    wp (getBlock e off)
      (fun _ z => Unharmed window e.transfers (construct m this window left).mgr z.mgr)
      (fun _ _ => False) ((construct m this window left).create size) := by
  let x := (construct m this window left).create size
  have hB : ∀ q, (∀ i, window i ≠ q) → x.mgr.blocks q = m.blocks q := fun q => overlay_other
  have hblocks : ∀ i, (x.mgr.blocks (window i)).flags &&& BF_VALID = 0#32 := by
    intro i
    rw [show x.mgr.blocks (window i) = { left i with owner := some this } from blocks_construct i]
    exact hunused i
  have hrefl : Unharmed window e.transfers x.mgr x.mgr :=
    unharmed_of_fails hm hB hblocks (Fails.refl e.transfers m) ⟨rfl, hB, fun _ => rfl⟩
  simp only [getBlock, wp_bind, wp_get, wp_ite, wp_pure]
  refine ⟨fun _ => hrefl, fun _ => ⟨fun _ => ?_, fun hvalid => absurd (hblocks _) hvalid⟩⟩
  simp only [onSectionMgr, wp_attempt, wp_zoom]
  apply wp_mono (wp_alloc_masked hm hslots hB hfree (blockIndex off))
  · intro _ t hend
    obtain ⟨k, t', htaken⟩ := hend
    obtain ⟨u, b, hroom, hput⟩ := htaken.room
    have hk : k < t.mBlocks.length := by
      rw [htaken.alike.slots, hput.slots, List.length_set]
      exact (List.getElem?_eq_some_iff.1 hput.was).1
    apply wp_mono (wp_loadBlock_at (x := x) hk htaken.block.2)
    · intro r z hz
      obtain ⟨-, -, -, hmgr⟩ := hz
      rw [hmgr]
      exact unharmed_of_taken hm hB hblocks htaken _
    · exact fun _ _ h => h
  · intro _ t hend
    obtain ⟨t', hfails, hmask⟩ := hend
    exact unharmed_of_fails hm hB hblocks hfails hmask

/-! ## Runs -/

variable {tgt : Target}

/-- A call of a client keeps the slot table, the blocks and the bitmap together. -/
theorem managerStep_invariant {call : Call × Env}
    (hs : s.Invariant ∧ s.mBlocks.length ≤ maxSlots) (hstep : managerStep tgt s call t) :
    t.Invariant ∧ t.mBlocks.length ≤ maxSlots := by
  obtain ⟨hinv, hslots⟩ := hs
  obtain ⟨hproper, reply, hexec⟩ := hstep
  have hmoved := wlp_any (wlp_exec_moved tgt hinv hslots hproper) hexec
  have hshift := hmoved.shifts hinv
  refine ⟨hshift.invariant, ?_⟩
  rw [hshift.length]
  exact hslots

section New

variable {left : Fin 32 → RamBlock}

theorem destroy_harmless_iff (this : Nat) (hm : m.Invariant) (hfree : ∀ i, ¬ m.Valid (window i))
    (hunused : ∀ i, (left i).flags &&& BF_VALID = 0#32) :
    wp KoSection.destroy
      (fun _ z => SparesOthers window (construct m this window left).mgr z.mgr ∧
        SameOthers window (construct m this window left).mgr z.mgr)
      (fun _ _ => False) (construct m this window left) ↔ ∀ i, Harmless m (left i) := by
  have hswept : Swept window (construct m this window left).mgr (List.finRange 32)
      (releasedAll window (construct m this window left).mgr (List.finRange 32)) :=
    swept_releasedAll (List.nodup_finRange 32)
  rw [wp_destroy (P := fun u => SparesOthers window (construct m this window left).mgr u ∧
    SameOthers window (construct m this window left).mgr u)]
  constructor
  · rintro ⟨hrange, hspares, -⟩ i
    exact harmless_of_swept hm hfree hswept (List.mem_finRange i) (hunused i) (hrange i) hspares
  · intro hleft
    refine ⟨fun i hflags hres => ?_, spares_swept hm hleft hswept List.mem_finRange⟩
    have hblock : (construct m this window left).mgr.blocks
        ((construct m this window left).blocks i) = { left i with owner := some this } :=
      blocks_construct i
    rw [hblock] at hflags hres ⊢
    have hslot := (hleft i).slot ⟨hflags, hres, rfl⟩
    exact (List.getElem?_eq_some_iff.1 hslot).1

theorem newLaw_iff {this : Nat} (hm : m.Invariant) (hslots : m.mBlocks.length ≤ maxSlots)
    (hfree : ∀ i, ¬ m.Valid (window i)) :
    (construct m this window left).NewLaw ↔ ∀ i, Harmless m (left i) := by
  have hvalid : ∀ i, ¬ (construct m this window left).mgr.Valid (window i) ↔
      (left i).flags &&& BF_VALID = 0#32 := by
    intro i
    unfold RamManager.Valid
    rw [blocks_construct, not_not]
  constructor
  · intro hlaw
    have hunused : ∀ i, (left i).flags &&& BF_VALID = 0#32 := fun i => (hvalid i).1 (hlaw.unused i)
    obtain ⟨z, hrun, hspares⟩ := hlaw.destroys
    apply (destroy_harmless_iff this hm hfree hunused).1
    rw [wp_of_ok hrun]
    exact hspares
  · intro hleft
    have hunused : ∀ i, (left i).flags &&& BF_VALID = 0#32 := fun i => (hleft i).1
    refine ⟨fun i => (hvalid i).2 (hunused i), ?_, fun size e off => ?_⟩
    · obtain ⟨_, z, hrun, hend⟩ := ok_of_wp ((destroy_harmless_iff this hm hfree hunused).2 hleft)
      exact ⟨z, hrun, hend⟩
    · have hwp := wp_getBlock_new (e := e) this hm hslots hfree hunused size off
      obtain ⟨r, z, hrun, hend⟩ := ok_of_wp hwp
      exact ⟨r, z, hrun, hend.spares, hend.same⟩

end New

/-- In every state of the manager, a new section leaves other blocks alone if and only if what its
memory held is harmless. -/
theorem run_newLaw_iff (tgt : Target) {s m : RamManager} {calls : List (Call × Env)}
    (hstart : s.Started) (hslots : s.mBlocks.length ≤ maxSlots)
    (hrun : Run (managerStep tgt) s calls m) :
    ∀ this window left, (∀ i, ¬ m.Valid (window i)) →
      ((construct m this window left).NewLaw ↔ ∀ i, Harmless m (left i)) := by
  have hm : m.Invariant ∧ m.mBlocks.length ≤ maxSlots := by
    apply hrun.invariant (P := fun u => u.Invariant ∧ u.mBlocks.length ≤ maxSlots)
      ⟨hstart.invariant, hslots⟩
    intro u call w hu hlast
    exact managerStep_invariant hu hlast
  intro this window left hfree
  exact newLaw_iff hm.1 hm.2 hfree

/-! ## A slot of another client -/

/-- Memory that was zeroed up to the addresses, which are those of the first slot. -/
def unflagged (_ : Fin 32) : RamBlock := ⟨0#32, 0, 0, some 40⟩

/-- The first block held a block of the first slot. -/
def staleBlock (i : Fin 32) : RamBlock := if i = 0 then ⟨BF_VALID, 0, 0, none⟩ else unflagged i

/-- The block 40 of another client takes the first slot. -/
theorem run_taken : ∃ m, Run (managerStep .x64) smallSection.mgr [(.alloc 40 0, lastSlot)] m ∧
    (∀ i, ¬ m.Valid (smallSection.blocks i)) ∧ m.place 40 = some (.slot 0) ∧
    (KoSection.destroy (construct m 7 smallSection.blocks staleBlock)).map
      (fun v => v.2.mgr.mBlocks[0]?) = some (some none) :=
  ⟨_, Run.nil.snoc ⟨by decide, _, rfl⟩, by decide +kernel, by decide +kernel, by decide +kernel⟩

theorem run_newLaw_iff_unflagged : ∃ m,
    Run (managerStep .x64) smallSection.mgr [(.alloc 40 0, lastSlot)] m ∧
      m.place 40 = some (.slot 0) ∧
      ((construct m 7 smallSection.blocks unflagged).NewLaw ↔ ∀ i, Harmless m (unflagged i)) ∧
      ∀ i, Harmless m (unflagged i) := by
  obtain ⟨m, hrun, hfree, hplace, -⟩ := run_taken
  have hleft : ∀ i, Harmless m (unflagged i) :=
    fun _ => ⟨BitVec.zero_and, fun hflags => absurd rfl hflags⟩
  exact ⟨m, hrun, hplace, run_newLaw_iff .x64 smallRun_started.mgr (by decide) hrun 7
    smallSection.blocks unflagged hfree, hleft⟩

/-- A section at the memory of an old block is VALID at once, and frees the slot of block 40. -/
theorem not_newLaw_stale : ∃ m,
    Run (managerStep .x64) smallSection.mgr [(.alloc 40 0, lastSlot)] m ∧
      (∀ i, ¬ m.Valid (smallSection.blocks i)) ∧ m.place 40 = some (.slot 0) ∧
      (construct m 7 smallSection.blocks staleBlock).mgr.Valid (smallSection.blocks 0) ∧
      (KoSection.destroy (construct m 7 smallSection.blocks staleBlock)).map
        (fun v => v.2.mgr.mBlocks[0]?) = some (some none) ∧
      ¬ (construct m 7 smallSection.blocks staleBlock).NewLaw := by
  obtain ⟨m, hrun, hfree, hplace, hcleared⟩ := run_taken
  have hvalid : (construct m 7 smallSection.blocks staleBlock).mgr.Valid
      (smallSection.blocks 0) := by
    unfold RamManager.Valid
    rw [blocks_construct]
    decide
  exact ⟨m, hrun, hfree, hplace, hvalid, hcleared, fun hlaw => hlaw.unused 0 hvalid⟩

end Vin64.Vm
