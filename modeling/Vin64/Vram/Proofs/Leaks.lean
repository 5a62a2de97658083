import Mathlib.Data.Set.Card
import Vin64.Vram.Proofs.Owners
import Vin64.Vram.Proofs.Partial

/-!
# Pages of the page file in use

A page of the page file is taken when a block is swapped out.  It is given back when the
block is freed, and passed on when the block changes places with another one.  A block that
comes to a free slot keeps it.
-/

namespace Vin64.Vram

open Vin64.Lib Vin64.Lib.Op Vin64.Utils RamManager

variable {s t u : RamManager} {e : Env} {c : Call}

namespace RamManager

/-- The pages of the page file that the bitmap marks. -/
def usedPages (s : RamManager) : Finset Nat :=
  (Finset.range s.mBlockBitMap.bits).filter fun j => s.mBlockBitMap.testbit j = true

def swappedBlocks (s : RamManager) : Set Nat := {pb | s.Valid pb ∧ s.IsSwapped pb}

/-- Every page that the bitmap marks is the page of a block. -/
def Tight (s : RamManager) : Prop :=
  ∀ j, s.mBlockBitMap.bit j = true → ∃ pb, s.place pb = some (.file j)

theorem mem_swappedBlocks {pb : Nat} :
    pb ∈ s.swappedBlocks ↔ s.place pb = some (.file (s.blocks pb).swapid) := by
  constructor
  · exact fun h => RamBlock.place_eq_file.2 ⟨h.1, h.2, rfl⟩
  · intro h
    obtain ⟨hv, hswap, -⟩ := RamBlock.place_eq_file.1 h
    exact ⟨hv, hswap⟩

theorem usedPages_eq_image (hs : s.Invariant) (ht : s.Tight) :
    (s.usedPages : Set Nat) = (fun pb => (s.blocks pb).swapid) '' s.swappedBlocks := by
  ext j
  simp only [usedPages, Finset.coe_filter, Finset.mem_range, Set.mem_ofPred_eq, Set.mem_image,
    mem_swappedBlocks, XBitMap.testbit_eq]
  constructor
  · intro ⟨_, hbit⟩
    have hbit' : s.mBlockBitMap.bit j = true := by simp_all
    obtain ⟨pb, hpb⟩ := ht j hbit'
    obtain ⟨-, -, hj⟩ := RamBlock.place_eq_file.1 hpb
    exact ⟨pb, by rwa [hj], hj⟩
  · rintro ⟨pb, hpb, rfl⟩
    obtain ⟨hlt, hbit⟩ := hs.file pb _ hpb
    simp [hlt, hbit]

/-- As many pages are marked as blocks are swapped out. -/
theorem card_usedPages (hs : s.Invariant) (ht : s.Tight) :
    s.usedPages.card = s.swappedBlocks.ncard := by
  have hinj : Set.InjOn (fun pb => (s.blocks pb).swapid) s.swappedBlocks := by
    intro pb hpb q hq heq
    have hplace := mem_swappedBlocks.1 hq
    rw [← show (s.blocks pb).swapid = (s.blocks q).swapid from heq] at hplace
    exact hs.unshared pb q _ (mem_swappedBlocks.1 hpb) hplace
  calc
    s.usedPages.card = (s.usedPages : Set Nat).ncard := (Set.ncard_coe_finset _).symm
    _ = ((fun pb => (s.blocks pb).swapid) '' s.swappedBlocks).ncard := by
        rw [usedPages_eq_image hs ht]
    _ = s.swappedBlocks.ncard := hinj.ncard_image

theorem Started.tight (h : s.Started) : s.Tight := by
  intro j hj
  rw [h.bits] at hj
  simp [XBitMap.bit, XBitMap.word, XBitMap.empty] at hj

end RamManager

/-! ## What a call makes of the marks -/

/-- The call brings no block from the page file to a free slot. -/
def Call.Releases (s : RamManager) (e : Env) : Call → Prop
  | .swapIn pb => s.IsSwapped pb → ∀ i, s.swapInSlot e pb = some i → s.mBlocks[i]? ≠ some none
  | .ensure pb => s.IsSwapped pb → ∀ i, s.findFreeOrSwappable e.rand = some i →
      s.mBlocks[i]? ≠ some none
  | .directAccess pb => s.IsSwapped pb → ∀ i, s.swapInSlot e pb = some i →
      s.mBlocks[i]? ≠ some none
  | _ => True

theorem RamManager.Evicts.tight {i m j : Nat} (h : Evicts s t i m j) (hs : s.Invariant)
    (ht : s.Tight) : t.Tight := by
  have hm := (hs.slot_iff i m).1 h.was
  intro k hk
  by_cases hkj : k = j
  · exact ⟨m, by rw [hkj]; exact h.place_self hs⟩
  · rw [h.used k hkj] at hk
    obtain ⟨pb, hpb⟩ := ht k hk
    have hne : pb ≠ m := by
      rintro rfl
      simp [hpb] at hm
    exact ⟨pb, by rw [h.place_ne hne, hpb]⟩

/-- A block that was not in the page file leaves the marks right. -/
theorem RamManager.Puts.tight {i c : Nat} {b : RamBlock} (h : Puts s t i c b)
    (hc : s.place c = none) (ht : s.Tight) : t.Tight := by
  intro k hk
  rw [h.bitmap] at hk
  obtain ⟨pb, hpb⟩ := ht k hk
  have hne : pb ≠ c := by
    rintro rfl
    simp [hpb] at hc
  exact ⟨pb, by rw [h.place_ne hne, hpb]⟩

theorem RamManager.Lifts.tight {c : Nat} {b : RamBlock} (h : Lifts s t c b) (ht : s.Tight) :
    t.Tight := by
  intro k hk
  obtain ⟨hbit, hfile⟩ := h.clears k hk
  obtain ⟨pb, hpb⟩ := ht k hbit
  have hne : pb ≠ c := by
    rintro rfl
    exact hfile hpb
  exact ⟨pb, by rw [h.place_ne hne, hpb]⟩

theorem RamManager.Exchanges.tight {i m c j : Nat} (h : Exchanges s t i m c j) (hs : s.Invariant)
    (ht : s.Tight) : t.Tight := by
  have hlift := lifts_file hs h.at_file
  have hev := (h.evicts hs).tight (hlift.invariant hs) (hlift.tight ht)
  have hgone : (Exchanges.evicted s t i m c j).place c = none := by
    rw [(h.evicts hs).place_ne (h.ne hs).symm, hlift.place_self]
  exact (h.puts hs).tight hgone hev

theorem Fetches.tight {i c : Nat} (h : Fetches s t i c) (hs : s.Invariant) (ht : s.Tight)
    (hbusy : s.mBlocks[i]? ≠ some none) : t.Tight := by
  cases h with
  | load _ hput _ => exact absurd hput.was hbusy
  | exchange hex => exact hex.tight hs ht

theorem tight_of_same (hbit : ∀ k, t.mBlockBitMap.bit k = s.mBlockBitMap.bit k)
    (hplace : t.place = s.place) (ht : s.Tight) : t.Tight := by
  intro k hk
  rw [hbit k] at hk
  rw [hplace]
  exact ht k hk

theorem MadeRoom.tight {i : Nat} (h : MadeRoom s u i) (hs : s.Invariant) (ht : s.Tight) :
    u.Tight := by
  cases h with
  | free _ => exact ht
  | evict hev _ => exact hev.tight hs ht

theorem Effect.tight {bytes : List UInt8} (h : Effect s e c bytes t) (hs : s.Invariant)
    (hproper : c.Proper s) (hrel : c.Releases s e) (ht : s.Tight) : t.Tight := by
  cases h with
  | @alloc pb i flags u _ _ hroom hput _ =>
      have hpb : s.place pb = none := RamBlock.place_eq_none.2 (not_not.1 hproper)
      exact hput.tight (hroom.place_none hs hpb) (hroom.tight hs ht)
  | free hlift _ => exact hlift.tight ht
  | swapOut hev => exact hev.tight hs ht
  | swapIn hslot hfetch => exact hfetch.tight hs ht (hrel hfetch.swapped _ hslot)
  | ensure hfind hfetch => exact hfetch.tight hs ht (hrel hfetch.swapped _ hfind)
  | accessFetched hslot hfetch => exact hfetch.tight hs ht (hrel hfetch.swapped _ hslot)
  | write _ hwrite => exact tight_of_same (fun _ => by rw [hwrite.bitmap]) hwrite.place ht
  | read _ _ hread => exact tight_of_same (fun _ => by rw [hread.bitmap]) hread.place ht
  | freeUnused _ => exact ht
  | alreadyOut _ => exact ht
  | resident _ => exact ht
  | access _ => exact ht

theorem step_tight {t : Target} {v : Event} (hs : s.Invariant) (hproper : v.call.Proper s)
    (hrel : v.call.Releases s v.env) (ht : s.Tight) (hstep : step t s v u) : u.Tight := by
  rcases step_cases hs hproper.inPage hproper.safe hstep with ⟨bytes, -, heffect⟩ | ⟨r, -, hfails⟩
  · exact heffect.tight hs hproper hrel ht
  · exact tight_of_same hfails.used hfails.place ht

/-! ## When the page file grows -/

/-- The bitmap keeps its size, or no bit of it was clear. -/
def GrewFull (s t : RamManager) : Prop :=
  t.mBlockBitMap.bits = s.mBlockBitMap.bits ∨ s.mBlockBitMap.find0 = none

theorem grewFull_prealloc : GrewFull s s.prealloc := by
  unfold GrewFull prealloc
  by_cases h : s.mBlockBitMap.find0 = none <;> simp [h]

theorem bits_marked (j : Nat) : (s.marked j).mBlockBitMap.bits = s.mBlockBitMap.bits := by
  unfold marked
  by_cases h : s.mBlockBitMap.bits ≤ j <;> simp [h]

theorem mBlockBitMap_setPage (b : Buffer) (p : Page) :
    (s.setPage b p).mBlockBitMap = s.mBlockBitMap := by
  cases b <;> rfl

theorem mBlockBitMap_stored (a : Access) (j : Nat) (b : Buffer) :
    (s.stored a j b).mBlockBitMap = s.mBlockBitMap := mBlockBitMap_setPage b _

theorem bits_stowed (i j m : Nat) (p : Page) :
    (s.stowed i j m p).mBlockBitMap.bits = s.mBlockBitMap.bits :=
  bits_marked (s := s.stored .ok j (.ram (i * 4096))) j

theorem GrewFull.of_bits (h : GrewFull s u) (hbits : t.mBlockBitMap.bits = u.mBlockBitMap.bits) :
    GrewFull s t := h.imp hbits.trans id

theorem GrewFull.refl (s : RamManager) : GrewFull s s := .inl rfl

theorem wlp_swap_grewFull {i : Nat} {inPF : Option Nat} :
    wlp (swapRamAndPageFile e i inPF) (fun _ t => GrewFull s t) (fun _ t => GrewFull s t) s := by
  have hrefl := GrewFull.refl s
  have hpre := grewFull_prealloc (s := s)
  cases inPF with
  | none =>
      apply wlp_swap_none
      · exact fun _ => hrefl
      · exact fun m _ _ => hpre.of_bits (bits_stowed (s := s.prealloc) i s.nextPF m fun _ => 0)
      · exact fun _ _ _ => hrefl
      · exact fun _ => hpre
      · exact fun _ _ _ _ _ => hpre
  | some c =>
      apply wlp_swap_some
      · exact fun _ => hrefl
      · exact fun m _ _ => hrefl.of_bits
          (bits_stowed (s := s.setPage .temp (s.incoming c)) i (s.blocks c).swapid m (s.incoming c))
      · exact fun _ _ _ => hrefl
      · exact fun _ _ _ _ => hrefl
      · exact fun _ _ _ _ _ b _ => hrefl.of_bits (congrArg _ (mBlockBitMap_setPage b _))
      · exact fun _ _ _ => hrefl
      · exact fun _ _ _ _ _ _ _ => hrefl

theorem wlp_swapIn_grewFull {pb : Nat} :
    wlp (ramSwapIn e pb) (fun _ t => GrewFull s t) (fun _ t => GrewFull s t) s := by
  simp only [ramSwapIn, wlp_bind, wlp_blockAt, wlp_ite, wlp_fail, wlp_pure, wlp_find]
  refine ⟨fun _ => GrewFull.refl s, fun _ => ⟨fun _ => wlp_swap_grewFull, fun _ => ?_⟩⟩
  exact ⟨fun _ _ => wlp_swap_grewFull, fun _ => GrewFull.refl s⟩

theorem wlp_store_grewFull {a : Access} {j : Nat} {b : Buffer} (h : GrewFull s u) :
    wlp (storeToStorage a j b) (fun _ t => GrewFull s t) (fun _ t => GrewFull s t) u := by
  apply wlp_storeToStorage
  · exact fun _ _ => h.of_bits (congrArg _ (mBlockBitMap_stored .ok j b))
  · exact fun _ => h
  · exact fun _ _ => h.of_bits (congrArg _ (mBlockBitMap_stored a j b))

theorem wlp_access_grewFull {pb : Nat} {o : Option Buffer} :
    wlp (ramDirectAccess e pb o) (fun _ t => GrewFull s t) (fun _ t => GrewFull s t) s := by
  have hrefl := GrewFull.refl s
  simp only [ramDirectAccess, wlp_bind, wlp_blockAt, wlp_ite, wlp_fail, wlp_pure]
  refine ⟨fun _ => hrefl, fun _ => ⟨fun _ => ?_, fun _ => hrefl⟩⟩
  cases o with
  | some b =>
      rw [wlp_bind]
      apply wlp_loadFromStorage
      · exact fun _ _ => hrefl.of_bits (congrArg _ (mBlockBitMap_setPage b _))
      · exact fun _ => hrefl
      · exact fun _ _ => hrefl.of_bits (congrArg _ (mBlockBitMap_setPage b _))
  | none =>
      rw [wlp_bind]
      apply wlp_mono wlp_swapIn_grewFull
      · intro _ t ht
        simpa using ht
      · exact fun _ _ h => h

/-- No call makes the page file grow while a page of it is free. -/
theorem wlp_exec_grewFull (t : Target) :
    wlp (exec t e c) (fun _ t => GrewFull s t) (fun _ t => GrewFull s t) s := by
  have hrefl := GrewFull.refl s
  cases c with
  | alloc pb flags =>
      simp only [exec, ramAllocAddress, wlp_bind, wlp_find]
      refine ⟨fun i _ => ?_, fun _ => hrefl⟩
      apply wlp_mono wlp_swap_grewFull
      · intro _ u hu
        simp only [wlp_modifyBlock, wlp_setSlot, wlp_pure]
        exact fun _ => hu
      · exact fun _ _ h => h
  | free pb =>
      simp only [exec, ramFreeAddress, pageFileMarkUsed, markSwapBlockUsed, wlp_bind, wlp_blockAt,
        wlp_ite, wlp_pure, wlp_get, wlp_fail, wlp_modify, wlp_modifyBlock, wlp_onBlockInvalid,
        wlp_setSlot]
      exact ⟨fun _ => hrefl, fun _ => ⟨fun _ => ⟨fun _ => hrefl, fun _ => hrefl⟩,
        fun _ _ => hrefl⟩⟩
  | swapOut pb bForce =>
      have hpre := grewFull_prealloc (s := s)
      simp only [exec, ramSwapOut, wlp_bind, wlp_blockAt, wlp_ite, wlp_pure, wlp_fail,
        wlp_pageFilePreAlloc]
      refine ⟨fun _ => hrefl, fun _ => ⟨fun _ => hrefl, fun _ => ?_⟩⟩
      apply wlp_mono (wlp_store_grewFull hpre)
      · intro _ u hu
        simp only [wlp_mark, wlp_onBlockInvalid, wlp_modifyBlock, wlp_setSlot]
        exact fun _ => hu.of_bits (bits_marked _)
      · exact fun _ _ h => h
  | swapIn pb =>
      simp only [exec, wlp_bind, wlp_pure]
      exact wlp_swapIn_grewFull
  | ensure pb =>
      simp only [exec, ensureRamBlock, wlp_bind, wlp_blockAt, wlp_ite, wlp_fail, wlp_pure, wlp_find]
      refine ⟨fun _ => hrefl, fun _ => ⟨fun _ => hrefl, fun _ => ?_⟩⟩
      exact ⟨fun _ _ => wlp_swap_grewFull, fun _ => hrefl⟩
  | directAccess pb =>
      simp only [exec, wlp_bind, wlp_pure]
      exact wlp_access_grewFull
  | directWrite pb off p cb =>
      simp only [exec, ramDirectWrite, copyInto, wlp_bind, wlp_ite, wlp_fail, wlp_pure]
      refine ⟨fun _ => hrefl, fun _ => ?_⟩
      apply wlp_mono wlp_access_grewFull
      · intro b u hu
        simp only [wlp_readPage, wlp_writePage, wlp_fault, wlp_blockAt, implies_true,
          and_true]
        intro _ _ _
        have hset : ∀ q, GrewFull s (u.setPage b q) := fun q =>
          hu.of_bits (congrArg _ (mBlockBitMap_setPage b q))
        exact ⟨fun _ => hset _, fun _ => wlp_store_grewFull (hset _)⟩
      · exact fun _ _ h => h
  | directRead pb off cb =>
      simp only [exec, ramDirectRead, copyFrom, wlp_bind, wlp_ite, wlp_fail]
      refine ⟨fun _ => hrefl, fun _ => ?_⟩
      apply wlp_mono wlp_access_grewFull
      · intro b u hu
        rw [wlp_readPage]
        intro _
        by_cases h : off + cb ≤ 4096
        · simpa [h] using hu
        · simp [h]
      · exact fun _ _ h => h

/-- When the page file grows, all of it is in use. -/
theorem full_of_grown {t : Target} {v : Event} (hs : s.Invariant) (ht : s.Tight)
    (hstep : step t s v u) (hgrown : s.mBlockBitMap.bits < u.mBlockBitMap.bits) :
    s.swappedBlocks.ncard = s.mBlockBitMap.bits := by
  have hwlp := wlp_exec_grewFull (s := s) (e := v.env) (c := v.call) t
  have hfull : GrewFull s u := wlp_any hwlp hstep
  have hnone : s.mBlockBitMap.find0 = none :=
    hfull.resolve_left fun hsame => by omega
  have hall := s.mBlockBitMap.find0_lowest
  rw [hnone] at hall
  have hused : s.usedPages = Finset.range s.mBlockBitMap.bits := by
    apply Finset.filter_true_of_mem
    intro j hj
    have hlt := Finset.mem_range.1 hj
    rw [XBitMap.testbit_eq, hall j hlt]
    simp [hlt]
  rw [← card_usedPages hs ht, hused, Finset.card_range]

/-! ## Runs that leak nothing -/

/-- The call is proper and brings no block from the page file to a free slot. -/
def Saving (s : RamManager) (v : Event) : Prop := v.call.Proper s ∧ v.call.Releases s v.env

/-- In every run in which no block comes from the page file to a free slot, the marked pages
are as many as the blocks that are swapped out, and the page file grows only when all of its
pages are in use. -/
theorem run_noLeak (t : Target) {es : List Event} (hstart : s.Started)
    (hrun : Run (When Saving (step t)) s es u) :
    u.usedPages.card = u.swappedBlocks.ncard ∧
      ∀ v u', step t u v u' → u.mBlockBitMap.bits < u'.mBlockBitMap.bits →
        u.swappedBlocks.ncard = u.mBlockBitMap.bits := by
  have hinv : u.Invariant ∧ u.Tight := by
    apply hrun.invariant (P := fun u => u.Invariant ∧ u.Tight) ⟨hstart.invariant, hstart.tight⟩
    intro s v u ⟨hs, ht⟩ ⟨⟨hproper, hrel⟩, hstep⟩
    exact ⟨step_invariant hs hproper.inPage hproper.safe hstep,
      step_tight hs hproper hrel ht hstep⟩
  exact ⟨card_usedPages hinv.1 hinv.2, fun v u' => full_of_grown hinv.1 hinv.2⟩

/-- Block 0 comes back to the slot of block 1, which goes to the page file. -/
theorem run_noLeak_oneSlot : ∃ u, Run (When Saving (step .x64)) oneSlot
    [⟨.swapIn 0, quiet, .ok []⟩, ⟨.alloc 1 0#32, quiet, .ok []⟩, ⟨.alloc 0 0#32, quiet, .ok []⟩] u ∧
      u.usedPages.card = u.swappedBlocks.ncard := by
  have hrun : ∃ u, Run (When Saving (step .x64)) oneSlot
      [⟨.swapIn 0, quiet, .ok []⟩, ⟨.alloc 1 0#32, quiet, .ok []⟩,
        ⟨.alloc 0 0#32, quiet, .ok []⟩] u := by
    refine ⟨_, .snoc (.snoc (.snoc .nil ⟨⟨by decide, trivial⟩, rfl⟩) ⟨⟨by decide, trivial⟩, rfl⟩)
      ⟨⟨by decide, ?_⟩, rfl⟩⟩
    intro _ i hi hidle
    cases i with
    | zero => exact absurd hidle (by decide)
    | succ i =>
        have hlt : i + 1 < 1 := (List.getElem?_eq_some_iff.1 hidle).1
        omega
  obtain ⟨u, hu⟩ := hrun
  exact ⟨u, hu, (run_noLeak .x64 oneSlot_started hu).1⟩

/-! ## A run that leaks -/

theorem Fetches.placed {i c q : Nat} (h : Fetches s t i c) (hs : s.Invariant)
    (hq : t.place q ≠ none) : s.place q ≠ none := by
  cases h with
  | load hc hput _ =>
      by_cases hqc : q = c
      · simp [hqc, hc]
      · rwa [hput.place_ne hqc] at hq
  | @exchange m _ j hex =>
      have hlift := lifts_file hs hex.at_file
      by_cases hqc : q = c
      · simp [hqc, hex.at_file]
      · by_cases hqm : q = m
        · simp [hqm, (hs.slot_iff i m).1 hex.was]
        · rwa [(hex.puts hs).place_ne hqc, (hex.evicts hs).place_ne hqm, hlift.place_ne hqc] at hq

/-- Only an allocation gives a block a page. -/
theorem Effect.placed {bytes : List UInt8} {q : Nat} (h : Effect s e c bytes t) (hs : s.Invariant)
    (hq : t.place q ≠ none) : s.place q ≠ none ∨ ∃ flags, c = .alloc q flags := by
  have hevict : ∀ {u : RamManager} {i m j : Nat}, Evicts s u i m j → u.place q ≠ none →
      s.place q ≠ none := by
    intro u i m j hev hq
    by_cases hqm : q = m
    · simp [hqm, (hs.slot_iff i m).1 hev.was]
    · rwa [hev.place_ne hqm] at hq
  cases h with
  | @alloc pb i flags u _ _ hroom hput _ =>
      by_cases hqpb : q = pb
      · exact .inr ⟨flags, by rw [hqpb]⟩
      · rw [hput.place_ne hqpb] at hq
        cases hroom with
        | free _ => exact .inl hq
        | evict hev _ => exact .inl (hevict hev hq)
  | free hlift _ =>
      rw [hlift.place_ne (hlift.ne_of_place hq)] at hq
      exact .inl hq
  | swapOut hev => exact .inl (hevict hev hq)
  | swapIn _ hfetch => exact .inl (hfetch.placed hs hq)
  | ensure _ hfetch => exact .inl (hfetch.placed hs hq)
  | accessFetched _ hfetch => exact .inl (hfetch.placed hs hq)
  | write _ hwrite => exact .inl (by rwa [hwrite.place] at hq)
  | read _ _ hread => exact .inl (by rwa [hread.place] at hq)
  | freeUnused _ => exact .inl hq
  | alreadyOut _ => exact .inl hq
  | resident _ => exact .inl hq
  | access _ => exact .inl hq

/-- A block with a page was allocated in the run. -/
theorem run_placed {t : Target} {es : List Event} {q : Nat} (hstart : s.Started)
    (hrun : Run (When (fun s v => v.call.Proper s) (step t)) s es u) (hq : u.place q ≠ none) :
    ∃ v ∈ es, ∃ flags, v.call = .alloc q flags := by
  have hboth : u.Invariant ∧ (u.place q ≠ none → ∃ v ∈ es, ∃ flags, v.call = .alloc q flags) := by
    clear hq
    induction hrun with
    | nil =>
        refine ⟨hstart.invariant, fun hq => absurd (RamBlock.place_eq_none.2 ?_) hq⟩
        rw [hstart.unused q]
        exact BitVec.zero_and
    | @snoc es v w u _ hlast ih =>
        obtain ⟨hw, ih⟩ := ih
        obtain ⟨hproper, hstep⟩ := hlast
        refine ⟨step_invariant hw hproper.inPage hproper.safe hstep, fun hq => ?_⟩
        have hback : w.place q ≠ none ∨ ∃ flags, v.call = .alloc q flags := by
          rcases step_cases hw hproper.inPage hproper.safe hstep with
            ⟨bytes, -, heffect⟩ | ⟨r, -, hfails⟩
          · exact heffect.placed hw hq
          · rw [hfails.place] at hq
            exact .inl hq
        rcases hback with hback | hback
        · obtain ⟨v', hv', hcall⟩ := ih hback
          exact ⟨v', List.mem_cons_of_mem _ hv', hcall⟩
        · exact ⟨v, List.mem_cons_self, hback⟩
  exact hboth.2 hq

/-- Block 0 is swapped out and comes back to its slot, which is free. -/
def leakingSwapIn : List Event :=
  [⟨.swapIn 0, quiet, .ok []⟩, ⟨.swapOut 0 false, quiet, .ok []⟩, ⟨.alloc 0 0#32, quiet, .ok []⟩]

/-- No block is swapped out, and a page of the page file is marked. -/
theorem swapIn_leaks : ∃ u,
    Run (When (fun s v => v.env.Clean ∧ v.call.Proper s) (step .x64)) oneSlot leakingSwapIn u ∧
      u.usedPages.card = 1 ∧ u.swappedBlocks.ncard = 0 := by
  have hrun : ∃ u,
      Run (When (fun s v => v.env.Clean ∧ v.call.Proper s) (step .x64)) oneSlot leakingSwapIn u ∧
      Run (When (fun s v => v.call.Proper s) (step .x64)) oneSlot leakingSwapIn u ∧
      u.usedPages.card = 1 ∧ ¬ u.IsSwapped 0 :=
    ⟨_, .snoc (.snoc (.snoc .nil ⟨by decide, rfl⟩) ⟨by decide, rfl⟩) ⟨by decide, rfl⟩,
      .snoc (.snoc (.snoc .nil ⟨by decide, rfl⟩) ⟨by decide, rfl⟩) ⟨by decide, rfl⟩,
      by decide, by decide⟩
  obtain ⟨u, hclean, hproper, hused, hres⟩ := hrun
  have hempty : u.swappedBlocks = ∅ := by
    ext q
    simp only [Set.mem_empty_iff_false, iff_false]
    intro hq
    have hplace : u.place q ≠ none := by simp [mem_swappedBlocks.1 hq]
    obtain ⟨v, hv, flags, hcall⟩ := run_placed oneSlot_started hproper hplace
    have hq0 : q = 0 := by
      simp only [leakingSwapIn, List.mem_cons, List.not_mem_nil, or_false] at hv
      rcases hv with rfl | rfl | rfl <;> simp at hcall
      exact hcall.1.symm
    rw [hq0] at hq
    exact hres hq.2
  exact ⟨u, hclean, hused, by rw [hempty, Set.ncard_empty]⟩

end Vin64.Vram
