import Vin64.Vram.Proofs.FileSection
import Vin64.Vram.Proofs.Locks
import Vin64.Vram.Proofs.Search

/-!
# When a section returns a block

`getRamBlock` empties a block of the window that is in use before it fills it anew.  The manager
frees a block in any case, but it brings one in only from the page file: to `RamSwapIn` a block
that is in its slot is an error.
-/

namespace Vin64.Vram

open Vin64.Lib Vin64.Lib.Op Vin64.Utils RamManager

variable {φ : Type} {s t u : RamManager} {e e' : Env} {pb i : Nat}

/-! ## A slot for a block -/

namespace RamManager

/-- Some slot is free or holds an unlocked block. -/
def HasSlot (s : RamManager) : Prop := ∃ i, s.FreeSlot i ∨ s.UnlockedSlot i

theorem find_of_lucky {rand : Nat → Nat} (hslot : s.HasSlot) (h : s.Lucky rand) :
    ∃ i, s.findFreeOrSwappable rand = some i ∧ (s.FreeSlot i ∨ s.UnlockedSlot i) := by
  have hfinds := (findsSlot_iff s rand).2 h
  obtain ⟨i, hi⟩ := Option.isSome_iff_exists.1 (hfinds.found.2 hslot)
  exact ⟨i, hi, (hfinds.chosen i hi).imp_right And.right⟩

theorem find_of_unlucky {rand : Nat → Nat} (h : ¬ s.Lucky rand) :
    s.findFreeOrSwappable rand = none := by
  obtain ⟨hbusy, hrest⟩ := Classical.not_imp.1 h
  obtain ⟨-, hnone⟩ := Classical.not_imp.1 hrest
  rcases @find_busy s rand hbusy with ⟨hfind, -⟩ | ⟨i, -, hi, hl⟩
  · exact hfind
  · exact absurd ⟨i, hi, hl⟩ hnone

theorem lucky_of_free {rand : Nat → Nat} (h : s.FreeSlot i) : s.Lucky rand :=
  fun hbusy => absurd h (hbusy i)

end RamManager

/-- Only the block in a locked slot cannot be moved. -/
theorem not_locked_of_slot {m : Nat} (hslot : s.FreeSlot i ∨ s.UnlockedSlot i)
    (hm : s.mBlocks[i]? = some (some m)) : ¬ s.lockedSlot (some m) := by
  rcases hslot with hfree | ⟨q, hq, hun⟩
  · rw [hfree] at hm
    simp at hm
  · obtain rfl : q = m := by simpa [hq] using hm
    simpa [lockedSlot] using hun

/-- A seek reaches the next page of the page file, in case a block has to go there. -/
theorem alloc_succeeds_iff {flags : BitVec 32} (he : e.Clean) (hnext : s.nextPF < 2 ^ 51)
    (hslot : s.HasSlot) : Succeeds (ramAllocAddress e pb flags) s ↔ s.Lucky e.rand := by
  constructor
  · rintro ⟨a, u, hrun⟩
    by_contra hunlucky
    have hwp : wp (ramAllocAddress e pb flags) (fun _ _ => False) (fun _ _ => True) s := by
      unfold ramAllocAddress
      rw [wp_bind]
      apply wp_find
      · intro j _ hfind
        rw [find_of_unlucky hunlucky] at hfind
        simp at hfind
      · exact fun _ => trivial
    exact wp_ok hwp hrun
  · intro hlucky
    obtain ⟨k, hk, hslot⟩ := find_of_lucky hslot hlucky
    have hwp : wp (ramAllocAddress e pb flags) (fun _ _ => True) (fun _ _ => False) s := by
      unfold ramAllocAddress
      rw [wp_bind]
      apply wp_find
      · intro j hj hfind
        obtain rfl : k = j := Option.some.inj (hk.symm.trans hfind)
        rw [wp_bind]
        apply wp_swap_none hj
        · intro _
          simp only [wp_bind, wp_modifyBlock, wp_setSlot]
          exact ⟨hj, trivial⟩
        · intro m _ _ _
          simp only [wp_bind, wp_modifyBlock, wp_setSlot]
          exact ⟨by simpa [vacated] using hj, trivial⟩
        · exact fun m hm hlock => not_locked_of_slot hslot hm hlock
        · intro hseeks
          rw [he.2] at hseeks
          exact hseeks (seeks_ok hnext)
        · exact fun _ _ _ _ hstore => hstore he.2
      · intro hnone
        rw [hk] at hnone
        simp at hnone
    exact succeeds_of_wp hwp

/-- An unlocked block in the page file comes in when the search finds a slot for it. -/
theorem swapIn_succeeds_iff (hs : s.Invariant) (he : e.Clean) (hswap : s.IsSwapped pb)
    (hun : (s.blocks pb).flags &&& BF_LOCKED = 0#32) (hslot : s.HasSlot) :
    Succeeds (ramSwapIn e pb) s ↔ s.Lucky e.rand := by
  have hfile := place_of_swapped hs hswap
  constructor
  · rintro ⟨a, u, hrun⟩
    by_contra hunlucky
    have hwp : wp (ramSwapIn e pb) (fun _ _ => False) (fun _ _ => True) s := by
      apply wp_ramSwapIn hs
      · intro u i hi _
        unfold swapInSlot at hi
        rw [if_neg (not_not.2 hun), find_of_unlucky hunlucky] at hi
        simp at hi
      · exact fun _ _ => trivial
    exact wp_ok hwp hrun
  · intro hlucky
    obtain ⟨k, hk, hslot⟩ := find_of_lucky hslot hlucky
    have hlow := hs.low _ (hs.file pb _ hfile).2
    have hseeks : ∀ a, a = Access.ok → seeks a (uOffset (s.blocks pb).swapid) = true := by
      rintro a rfl
      exact seeks_ok hlow
    have hmc : s.mBlocks[k]? ≠ some (some pb) := by
      intro h
      rw [(hs.slot_iff k pb).1 h] at hfile
      simp at hfile
    have hwp : wp (ramSwapIn e pb) (fun _ _ => True) (fun _ _ => False) s := by
      unfold ramSwapIn
      rw [wp_bind, wp_blockAt, wp_ite]
      refine ⟨fun hno => hswap hno, fun _ => ?_⟩
      simp only [wp_ite, wp_bind, wp_pure]
      refine ⟨fun hlock => absurd hun hlock, fun _ => ?_⟩
      apply wp_find
      · intro j hj hfind
        obtain rfl : k = j := Option.some.inj (hk.symm.trans hfind)
        apply wp_swap_some hj hmc
        · exact fun _ _ => trivial
        · exact fun _ _ _ _ _ => trivial
        · exact fun m hm hlock => not_locked_of_slot hslot hm hlock
        · exact fun hno => hno (hseeks _ he.1)
        · exact fun hload => absurd he.1 hload
        · exact fun hno => hno (hseeks _ he.2)
        · exact fun _ _ _ _ _ hstore => hstore he.2
      · intro hnone
        rw [hk] at hnone
        simp at hnone
    exact succeeds_of_wp hwp

/-! ## The window -/

namespace RamManager

/-- The blocks of a window are not locked. -/
structure Carries (wnd : Fin 64 ↪ Nat) (s : RamManager) : Prop where
  invariant : s.Invariant
  unlocked : ∀ i, (s.blocks (wnd i)).flags &&& BF_LOCKED = 0#32

variable {wnd : Fin 64 ↪ Nat}

theorem Carries.of_blocks (h : Carries wnd s) (ht : t.Invariant) (hb : t.blocks = s.blocks) :
    Carries wnd t := by
  refine ⟨ht, fun i => ?_⟩
  rw [hb]
  exact h.unlocked i

/-- A block that is moved or freed does not become locked. -/
theorem unlocked_of_update {q m : Nat} {b : RamBlock}
    (hq : (s.blocks q).flags &&& BF_LOCKED = 0#32)
    (hb : (s.blocks m).flags &&& BF_LOCKED = 0#32 → b.flags &&& BF_LOCKED = 0#32)
    (hblocks : t.blocks = Function.update s.blocks m b) :
    (t.blocks q).flags &&& BF_LOCKED = 0#32 := by
  rw [hblocks]
  by_cases hqm : q = m
  · subst hqm
    rw [Function.update_self]
    exact hb hq
  · rw [Function.update_of_ne hqm]
    exact hq

theorem Evicts.unlocked {m j q : Nat} (h : Evicts s t i m j)
    (hq : (s.blocks q).flags &&& BF_LOCKED = 0#32) : (t.blocks q).flags &&& BF_LOCKED = 0#32 :=
  unlocked_of_update hq RamBlock.locked_swappedOut.2 h.blocks

end RamManager

theorem MadeRoom.unlocked {q : Nat} (h : MadeRoom s u i)
    (hq : (s.blocks q).flags &&& BF_LOCKED = 0#32) : (u.blocks q).flags &&& BF_LOCKED = 0#32 := by
  cases h with
  | free _ => exact hq
  | evict hev _ => exact hev.unlocked hq

theorem Fetches.unlocked {c q : Nat} (h : Fetches s t i c)
    (hq : (s.blocks q).flags &&& BF_LOCKED = 0#32) : (t.blocks q).flags &&& BF_LOCKED = 0#32 := by
  rcases h.block q with ⟨-, hb⟩ | ⟨-, j, hb⟩ | hb
  · rw [hb]
    exact RamBlock.locked_swappedIn.2 hq
  · rw [hb]
    exact RamBlock.locked_swappedOut.2 hq
  · rw [hb]
    exact hq

/-- Only an allocation locks a block. -/
theorem Effect.unlocked {c : Call} {bytes : List UInt8} {q : Nat} (h : Effect s e c bytes t)
    (hq : (s.blocks q).flags &&& BF_LOCKED = 0#32)
    (hc : ∀ flags, c = .alloc q flags → flags &&& BF_LOCKED = 0#32) :
    (t.blocks q).flags &&& BF_LOCKED = 0#32 := by
  cases h with
  | @alloc pb i flags u _ _ hroom hput _ =>
      by_cases hqpb : q = pb
      · subst hqpb
        rw [hput.blocks, Function.update_self]
        exact RamBlock.locked_allocated.2 (hc flags rfl)
      · rw [hput.blocks, Function.update_of_ne hqpb]
        exact hroom.unlocked hq
  | free hlift _ => exact unlocked_of_update hq (fun _ => BitVec.zero_and) hlift.blocks
  | swapOut hev => exact hev.unlocked hq
  | swapIn _ hfetch => exact hfetch.unlocked hq
  | ensure _ hfetch => exact hfetch.unlocked hq
  | accessFetched _ hfetch => exact hfetch.unlocked hq
  | write _ hwrite => rwa [hwrite.blocks]
  | read _ _ hread => rwa [hread.blocks]
  | freeUnused _ => exact hq
  | alreadyOut _ => exact hq
  | resident _ => exact hq
  | access _ => exact hq

theorem Effect.carries {wnd : Fin 64 ↪ Nat} {c : Call} {bytes : List UInt8}
    (h : Effect s e c bytes t) (hs : Carries wnd s)
    (hc : ∀ i flags, c = .alloc (wnd i) flags → flags &&& BF_LOCKED = 0#32) : Carries wnd t :=
  ⟨h.invariant hs.invariant, fun i => h.unlocked (hs.unlocked i) (hc i)⟩

theorem RamManager.Lifts.carries {wnd : Fin 64 ↪ Nat} (h : Lifts s t pb (s.blocks pb).freed)
    (hs : Carries wnd s) : Carries wnd t :=
  ⟨h.invariant hs.invariant, fun i =>
    unlocked_of_update (hs.unlocked i) (fun _ => BitVec.zero_and) h.blocks⟩

theorem Fetches.carries {wnd : Fin 64 ↪ Nat} {c : Nat} (h : Fetches s t i c)
    (hs : Carries wnd s) : Carries wnd t :=
  ⟨h.invariant hs.invariant, fun i => h.unlocked (hs.unlocked i)⟩

/-- The slot that a block had is free when the block was freed. -/
theorem RamManager.Lifts.free_slot {k : Nat} {b : RamBlock} (h : Lifts s t pb b) (hs : s.Invariant)
    (hplace : s.place pb = some (.slot k)) : t.FreeSlot k := by
  unfold FreeSlot
  rw [h.of_slot k hplace]
  exact List.getElem?_set_self (hs.addr_lt hplace).1

/-- The slots are as before when a block of the page file is freed, and its page is free. -/
theorem RamManager.Lifts.of_file {c j : Nat} {b : RamBlock} (h : Lifts s t c b) (hs : s.Invariant)
    (hc : s.place c = some (.file j)) :
    (∀ k, t.FreeSlot k ↔ s.FreeSlot k) ∧ (∀ k, t.UnlockedSlot k ↔ s.UnlockedSlot k) ∧
      t.nextPF < 2 ^ 51 := by
  have hslots := h.of_rest fun i hi => by simp [hc] at hi
  refine ⟨fun k => ?_, fun k => ?_, ?_⟩
  · unfold FreeSlot
    rw [hslots]
  · unfold UnlockedSlot
    rw [hslots, h.blocks]
    refine exists_congr fun q => and_congr_right fun hq => ?_
    have hqc : q ≠ c := by
      rintro rfl
      rw [(hs.slot_iff k q).1 hq] at hc
      simp at hc
    rw [Function.update_of_ne hqc]
  · have hlow := hs.low j (hs.file c j hc).2
    apply Nat.lt_of_le_of_lt _ hlow
    apply Nat.le_of_not_lt
    intro hlt
    exact (h.clears j (nextPF_lowest.2 j hlt)).2 hc

/-! ## The steps of `getRamBlock` -/

/-- The calls that read a page succeed, one after the other. -/
def KboFileIO.Reads (F : KboFileIO φ) (offset : BitVec 64) (f : φ) : Prop :=
  (F.seek offset f).1 = true ∧ ∀ p, (F.read p (F.seek offset f).2).1.1 = true

/-- So do those that write a page and read one. -/
structure KboFileIO.Serves (F : KboFileIO φ) (offset : BitVec 64) (f : φ) : Prop where
  seeks : (F.seek offset f).1 = true
  writes : ∀ p, (F.write p (F.seek offset f).2).1 = true
  reads : F.Reads offset f
  readsBack : ∀ p, F.Reads offset (F.write p (F.seek offset f).2).2

variable {F : KboFileIO φ} {y z : KmoSection φ} {off : BitVec 64} {idx : Fin 64}

/-- How a block of the window is emptied. -/
inductive Recycled (F : KboFileIO φ) (e : Env) (y : KmoSection φ) (pb : Nat) (off : BitVec 64) :
    Bool → KmoSection φ → Prop
  | denied : y.acc &&& SECTION_MAP_WRITE ≠ 0#32 → y.type ≠ SEC_FILE → Recycled F e y pb off false y
  | notIn {m : RamManager} : y.acc &&& SECTION_MAP_WRITE ≠ 0#32 →
      ¬ Succeeds (ramSwapIn e pb) y.mgr → Fails e y.mgr m →
      Recycled F e y pb off false { y with mgr := m }
  | notWritten {m : RamManager} {f : φ} {k : Nat} : ¬ F.Serves off y.file → Fetches y.mgr m k pb →
      Recycled F e y pb off false { y with mgr := m, file := f }
  | written {m u : RamManager} {k : Nat} {p : Page} : y.acc &&& SECTION_MAP_WRITE ≠ 0#32 →
      y.type = SEC_FILE → Succeeds (ramSwapIn e pb) y.mgr → Fetches y.mgr u k pb →
      Lifts u m pb (u.blocks pb).freed → Recycled F e y pb off true
        { y with mgr := m, file := (F.write p (F.seek off y.file).2).2 }
  | freed {m : RamManager} : y.acc &&& SECTION_MAP_WRITE = 0#32 →
      Lifts y.mgr m pb (y.mgr.blocks pb).freed → Recycled F e y pb off true { y with mgr := m }

/-- A block with a page is freed. -/
theorem wp_free_placed {Q : Unit → RamManager → Prop} {E : HRESULT → RamManager → Prop}
    (hs : s.Invariant) (hplace : s.place pb ≠ none)
    (h : ∀ t, Lifts s t pb (s.blocks pb).freed → Q () t) : wp (ramFreeAddress pb) Q E s := by
  apply wp_ramFreeAddress (e := quiet) hs
  intro t ht
  cases ht with
  | freeUnused hnone => exact absurd hnone hplace
  | free hlift _ => exact h t hlift

theorem wp_recycled (hs : y.mgr.Invariant) (hplace : y.mgr.place pb ≠ none) :
    wp (recycle F e pb off) (Recycled F e y pb off) (fun _ _ => False) y := by
  have hswap : wp (ramSwapIn e pb)
      (fun _ u => (∃ k, Fetches y.mgr u k pb) ∧ Succeeds (ramSwapIn e pb) y.mgr)
      (fun _ u => Fails e y.mgr u ∧ ¬ Succeeds (ramSwapIn e pb) y.mgr) y.mgr :=
    wp_succeeds (wp_ramSwapIn hs (fun _ k _ hu => ⟨k, hu⟩) fun _ hu => hu)
  simp only [recycle, wp_bind, wp_get, wp_ite, wp_succeeded, wp_pure]
  constructor
  · intro hacc
    constructor
    · intro htype
      apply wp_mono hswap
      · intro _ u hend
        obtain ⟨⟨k, hfetch⟩, hsucceeds⟩ := hend
        have hu := hfetch.invariant hs
        have huplace := hfetch.place_self hs
        refine ⟨fun h => absurd trivial h, fun _ => ?_⟩
        rw [wp_onFile]
        constructor
        · intro hseek
          exact .notWritten (fun hserves => hseek hserves.seeks) hfetch
        · intro _
          apply wp_writeBuffer hu huplace
          constructor
          · intro hwrite
            exact .notWritten (fun hserves => hwrite (hserves.writes _)) hfetch
          · intro _
            apply wp_free_placed hu (by simp [huplace])
            exact fun t hlift => .written hacc htype hsucceeds hfetch hlift
      · intro _ u hend
        obtain ⟨hfails, hno⟩ := hend
        exact ⟨fun _ => .notIn hacc hno hfails, fun h => absurd (by simp) h⟩
    · exact fun htype => .denied hacc htype
  · intro hacc
    apply wp_free_placed hs hplace
    exact fun t hlift => .freed (not_not.1 hacc) hlift

/-- How a block of the window that has no page is filled. -/
inductive Loaded (F : KboFileIO φ) (e : Env) (y : KmoSection φ) (idx : Fin 64) (off : BitVec 64) :
    Option (Fin 64) → RamManager → φ → Prop
  | notAllocated {m : RamManager} : ¬ Succeeds (ramAllocAddress e (y.wnd idx) 0) y.mgr →
      Fails e y.mgr m → Loaded F e y idx off none m y.file
  | notRead {m : RamManager} {f : φ} : ¬ F.Reads off y.file → Carries y.wnd m →
      Loaded F e y idx off none m f
  | loaded {m : RamManager} {f : φ} : Succeeds (ramAllocAddress e (y.wnd idx) 0) y.mgr →
      Carries y.wnd m → m.Resident (y.wnd idx) → Loaded F e y idx off (some idx) m f

theorem wp_loaded (hs : Carries y.wnd y.mgr) (hplace : y.mgr.place (y.wnd idx) = none) :
    wp (fill F e idx off) (fun r z => ∃ m f, Loaded F e y idx off r m f ∧
      z = { y with mgr := m, file := f, offset := Function.update y.offset idx off })
      (fun _ _ => False) y := by
  have hvalid : ¬ y.mgr.Valid (y.wnd idx) := fun h => h (RamBlock.place_eq_none.1 hplace)
  have halloc : wp (ramAllocAddress e (y.wnd idx) 0)
      (fun _ u => Effect y.mgr e (.alloc (y.wnd idx) 0) [] u ∧
        Succeeds (ramAllocAddress e (y.wnd idx) 0) y.mgr)
      (fun _ u => Fails e y.mgr u ∧ ¬ Succeeds (ramAllocAddress e (y.wnd idx) 0) y.mgr) y.mgr :=
    wp_succeeds (wp_ramAllocAddress hs.invariant (fun h => absurd h hvalid) (fun _ hu => hu)
      fun _ hu => hu)
  simp only [fill, wp_bind, wp_modify, wp_get, wp_succeeded]
  apply wp_mono halloc
  · intro _ m hend
    obtain ⟨heffect, hsucceeds⟩ := hend
    have hm : Carries y.wnd m := by
      apply heffect.carries hs
      intro i flags hcall
      obtain ⟨-, rfl⟩ := Call.alloc.inj hcall
      exact BitVec.zero_and
    obtain ⟨k, hk⟩ : ∃ k, m.place (y.wnd idx) = some (.slot k) := by
      cases heffect with
      | alloc _ _ hput _ => exact ⟨_, hput.place_self⟩
    have hfree : ∀ u : RamManager, u.place (y.wnd idx) ≠ none → Carries y.wnd u →
        ∀ f, ¬ F.Reads off y.file → wp (ramFreeAddress (y.wnd idx))
          (fun _ v => ∃ m' f', Loaded F e y idx off none m' f' ∧
            ({ y with mgr := v, file := f, offset := Function.update y.offset idx off } :
              KmoSection φ) =
              { y with mgr := m', file := f', offset := Function.update y.offset idx off })
          (fun _ _ => False) u := by
      intro u hplaced hu f hreads
      apply wp_free_placed hu.invariant hplaced
      intro v hlift
      exact ⟨v, f, .notRead hreads (hlift.carries hu), rfl⟩
    have hplaced : m.place (y.wnd idx) ≠ none := by simp [hk]
    simp only [not_true_eq_false, if_false, wp_bind, wp_onFile, wp_ite, wp_ignore, wp_onVram,
      wp_pure]
    constructor
    · intro hseek
      apply wp_mono (hfree m hplaced hm _ fun hreads => hseek hreads.1)
      · exact fun _ _ h => h
      · exact fun _ _ h => h.elim
    · intro _
      apply wp_readBuffer hm.invariant hk
      have hwrite := rewrites_setPage hm.invariant hk
        (F.read (m.slotPage k) (F.seek off y.file).2).1.2
      have hread := hm.of_blocks (hwrite.invariant hm.invariant) hwrite.blocks
      constructor
      · intro hfail
        apply wp_mono (hfree _ (by rwa [hwrite.place]) hread _ fun hreads => hfail (hreads.2 _))
        · exact fun _ _ h => h
        · exact fun _ _ h => h.elim
      · intro _
        refine ⟨_, _, .loaded hsucceeds hread ?_, rfl⟩
        apply resident_of_slot (i := k)
        rw [hwrite.place, hk]
  · intro v m hend
    obtain ⟨hfails, hno⟩ := hend
    simp only [Bool.false_eq_true, not_false_eq_true, if_true, wp_pure]
    exact ⟨m, y.file, .notAllocated hno hfails, rfl⟩

/-! ## When a block is returned -/

/-- The accesses to the file and to the page file succeed, which has pages within reach of a seek,
and some slot is free or holds an unlocked block. -/
structure KmoSection.Ready (F : KboFileIO φ) (e e' : Env) (offset : BitVec 64)
    (s : KmoSection φ) : Prop where
  file : F.Serves offset s.file
  swap : e.Clean
  alloc : e'.Clean
  reach : s.mgr.nextPF < 2 ^ 51
  slot : s.mgr.HasSlot

/-- `getRamBlock` returns a block, which is in a slot. -/
def KmoSection.Answers (F : KboFileIO φ) (e e' : Env) (offset : BitVec 64)
    (s : KmoSection φ) : Prop :=
  ∃ i z, getRamBlock F e e' offset s = some (.ok (some i), z) ∧ z.mgr.Resident (z.wnd i)

/-- A writable section needs a file for a block in use, which is swapped out, and luck to bring it
in.  A block that leaves no slot behind needs luck for the new one. -/
structure KmoSection.Answerable (e e' : Env) (offset : BitVec 64) (s : KmoSection φ) : Prop where
  writable : s.mgr.Valid (s.wnd (windowIndex offset)) → s.acc &&& SECTION_MAP_WRITE ≠ 0#32 →
    s.type = SEC_FILE ∧ s.mgr.IsSwapped (s.wnd (windowIndex offset)) ∧ s.mgr.Lucky e.rand
  slotless : (s.mgr.Valid (s.wnd (windowIndex offset)) → s.acc &&& SECTION_MAP_WRITE = 0#32 ∧
    s.mgr.IsSwapped (s.wnd (windowIndex offset))) → s.mgr.Lucky e'.rand

/-- What a call of `getRamBlock` leaves. -/
structure Replied (F : KboFileIO φ) (e e' : Env) (off : BitVec 64) (y : KmoSection φ)
    (r : Option (Fin 64)) (z : KmoSection φ) : Prop where
  wnd : z.wnd = y.wnd
  carries : Carries y.wnd z.mgr
  answered : y.Ready F e e' off → ((∃ i, r = some i ∧ z.mgr.Resident (z.wnd i)) ∧
    y.Answerable e e' off) ∨ (r = none ∧ ¬ y.Answerable e e' off)

/-- A block that has no page is filled exactly when it gets a slot. -/
theorem Loaded.replied {m : RamManager} {f : φ} {r : Option (Fin 64)} {P : Prop}
    (h : Loaded F e y idx off r m f) (hreads : F.Reads off y.file)
    (hP : Succeeds (ramAllocAddress e (y.wnd idx) 0) y.mgr ↔ P) :
    ((∃ i, r = some i ∧ m.Resident (y.wnd i)) ∧ P) ∨ (r = none ∧ ¬ P) := by
  cases h with
  | notAllocated hno _ => exact .inr ⟨rfl, fun hp => hno (hP.2 hp)⟩
  | notRead hno _ => exact absurd hreads hno
  | loaded hsucceeds _ hres => exact .inl ⟨⟨idx, rfl, hres⟩, hP.1 hsucceeds⟩

theorem Loaded.carries {m : RamManager} {f : φ} {r : Option (Fin 64)}
    (h : Loaded F e y idx off r m f) (hs : Carries y.wnd y.mgr) : Carries y.wnd m := by
  cases h with
  | notAllocated _ hfails => exact hs.of_blocks (hfails.invariant hs.invariant) hfails.blocks
  | notRead _ hm => exact hm
  | loaded _ hm _ => exact hm

/-- A block that was emptied is filled exactly when the section is answerable. -/
theorem Recycled.replied (h : Recycled F e y (y.wnd (windowIndex off)) off true z)
    (hs : Carries y.wnd y.mgr) (hvalid : y.mgr.Valid (y.wnd (windowIndex off)))
    (hready : y.Ready F e e' off) : F.Reads off z.file ∧
      (Succeeds (ramAllocAddress e' (z.wnd (windowIndex off)) 0) z.mgr ↔
        y.Answerable e e' off) := by
  cases h with
  | written hacc htype hsucceeds hfetch hlift =>
      refine ⟨hready.file.readsBack _, ?_⟩
      have hfree := hlift.free_slot (hfetch.invariant hs.invariant) (hfetch.place_self hs.invariant)
      have hswap := hfetch.swapped
      have hlucky := (swapIn_succeeds_iff hs.invariant hready.swap hswap (hs.unlocked _)
        hready.slot).1 hsucceeds
      constructor
      · exact fun _ => ⟨fun _ _ => ⟨htype, hswap, hlucky⟩, fun h => absurd (h hvalid).1 hacc⟩
      · exact fun _ => alloc_succeeds_of_free hfree 0
  | @freed m hacc hlift =>
      refine ⟨hready.file.reads, ?_⟩
      have hans : y.Answerable e e' off ↔
          (y.mgr.IsSwapped (y.wnd (windowIndex off)) → y.mgr.Lucky e'.rand) := by
        constructor
        · exact fun h hswap => h.slotless fun _ => ⟨hacc, hswap⟩
        · exact fun h => ⟨fun _ hno => absurd hacc hno, fun hboth => h (hboth hvalid).2⟩
      by_cases hswap : y.mgr.IsSwapped (y.wnd (windowIndex off))
      · obtain ⟨hfree, hun, hreach⟩ :=
          hlift.of_file hs.invariant (place_of_swapped hs.invariant hswap)
        have hlucky : m.Lucky e'.rand ↔ y.mgr.Lucky e'.rand := by
          unfold Lucky
          simp only [hfree, hun]
        have hslot : m.HasSlot := by
          obtain ⟨k, hk⟩ := hready.slot
          exact ⟨k, hk.imp (hfree k).2 (hun k).2⟩
        rw [alloc_succeeds_iff hready.alloc hreach hslot, hlucky, hans]
        exact ⟨fun h _ => h, fun h => h hswap⟩
      · have hplace := place_of_resident hs.invariant (flags_ne_of_valid hvalid) (not_not.1 hswap)
        rw [hans]
        exact ⟨fun _ h => absurd h hswap, fun _ =>
          alloc_succeeds_of_free (hlift.free_slot hs.invariant hplace) 0⟩

theorem Recycled.replied_none (h : Recycled F e y (y.wnd (windowIndex off)) off false z)
    (hs : Carries y.wnd y.mgr) (hvalid : y.mgr.Valid (y.wnd (windowIndex off))) :
    Replied F e e' off y none z := by
  cases h with
  | denied hacc htype =>
      refine ⟨rfl, hs, fun _ => .inr ⟨rfl, fun hans => ?_⟩⟩
      exact htype (hans.writable hvalid hacc).1
  | notIn hacc hno hfails =>
      refine ⟨rfl, hs.of_blocks (hfails.invariant hs.invariant) hfails.blocks, fun hready =>
        .inr ⟨rfl, fun hans => ?_⟩⟩
      obtain ⟨-, hswap, hlucky⟩ := hans.writable hvalid hacc
      exact hno ((swapIn_succeeds_iff hs.invariant hready.swap hswap (hs.unlocked _)
        hready.slot).2 hlucky)
  | notWritten hno hfetch =>
      exact ⟨rfl, hfetch.carries hs, fun hready => absurd hready.file hno⟩

theorem Recycled.window {r : Bool} (h : Recycled F e y pb off r z) (hs : Carries y.wnd y.mgr) :
    z.wnd = y.wnd ∧ Carries z.wnd z.mgr ∧ (r = true → z.mgr.place pb = none) := by
  cases h with
  | denied _ _ => exact ⟨rfl, hs, by simp⟩
  | notIn _ _ hfails =>
      exact ⟨rfl, hs.of_blocks (hfails.invariant hs.invariant) hfails.blocks, by simp⟩
  | notWritten _ hfetch => exact ⟨rfl, hfetch.carries hs, by simp⟩
  | written _ _ _ hfetch hlift =>
      exact ⟨rfl, hlift.carries (hfetch.carries hs), fun _ => hlift.place_self⟩
  | freed _ hlift => exact ⟨rfl, hlift.carries hs, fun _ => hlift.place_self⟩

theorem wp_replied (F : KboFileIO φ) (e e' : Env) (hs : Carries y.wnd y.mgr) (hoff : off < y.size) :
    wp (getRamBlock F e e' off) (Replied F e e' off y) (fun _ _ => False) y := by
  simp only [getRamBlock, wp_bind, wp_get, wp_ite, wp_pure]
  refine ⟨fun hbig => absurd hbig (BitVec.not_le.2 hoff), fun _ => ⟨fun hvalid => ?_,
    fun hunused => ?_⟩⟩
  · have hplace : y.mgr.place (y.wnd (windowIndex off)) ≠ none :=
      fun h => hvalid (RamBlock.place_eq_none.1 h)
    apply wp_mono (wp_recycled hs.invariant hplace)
    · intro r z hz
      cases r with
      | false => exact ⟨fun _ => hz.replied_none hs hvalid, fun h => absurd (by simp) h⟩
      | true =>
          refine ⟨fun h => absurd rfl h, fun _ => ?_⟩
          obtain ⟨hwnd, hz', hempty⟩ := hz.window hs
          apply wp_mono (wp_loaded hz' (by rw [hwnd]; exact hempty rfl))
          · intro r w hend
            obtain ⟨m, f, hloaded, rfl⟩ := hend
            refine ⟨hwnd, ?_, fun hready => ?_⟩
            · rw [← hwnd]
              exact hloaded.carries hz'
            · obtain ⟨hreads, hiff⟩ := hz.replied hs hvalid hready
              exact hloaded.replied hreads hiff
          · exact fun _ _ h => h
    · exact fun _ _ h => h
  · have hplace := RamBlock.place_eq_none.2 (not_not.1 hunused)
    apply wp_mono (wp_loaded hs hplace)
    · intro r z hend
      obtain ⟨m, f, hloaded, rfl⟩ := hend
      refine ⟨rfl, hloaded.carries hs, fun hready => ?_⟩
      apply hloaded.replied hready.file.reads
      rw [alloc_succeeds_iff hready.alloc hready.reach hready.slot]
      constructor
      · exact fun hlucky => ⟨fun hvalid => absurd hvalid hunused, fun _ => hlucky⟩
      · exact fun hans => hans.slotless fun hvalid => absurd hvalid hunused
    · exact fun _ _ h => h

theorem answers_iff (hs : Carries y.wnd y.mgr) (hoff : off < y.size) (hready : y.Ready F e e' off) :
    y.Answers F e e' off ↔ y.Answerable e e' off := by
  obtain ⟨r, z, hrun, hreplied⟩ := ok_of_wp (wp_replied F e e' hs hoff)
  have hanswered := hreplied.answered hready
  constructor
  · rintro ⟨i, w, hcall, -⟩
    obtain ⟨hr, -⟩ := outcome_unique hrun hcall
    obtain rfl := Except.ok.inj hr
    rcases hanswered with ⟨-, hans⟩ | ⟨hnone, -⟩
    · exact hans
    · simp at hnone
  · intro hans
    rcases hanswered with ⟨⟨i, rfl, hres⟩, -⟩ | ⟨-, hno⟩
    · exact ⟨i, z, hrun, hres⟩
    · exact absurd hans hno

/-! ## Runs -/

variable {X Y : FileRun φ} {call : FileCall} {target : Target}

theorem step_carries (hX : Carries X.sec.wnd X.sec.mgr) (hmeant : call.Meant X.sec)
    (hstep : X.step target F call = some Y) : Carries Y.sec.wnd Y.sec.mgr := by
  cases call with
  | getRamBlock off e e' =>
      obtain ⟨⟨reply, z⟩, hrun, hY⟩ := Option.bind_eq_some_iff.1 hstep
      obtain rfl := Option.some.inj hY
      by_cases hoff : off < X.sec.size
      · have hwp := wp_replied F e e' hX hoff
        cases reply with
        | error v => exact (wp_error hwp hrun).elim
        | ok r =>
            have hreplied := wp_ok hwp hrun
            show Carries z.wnd z.mgr
            rw [hreplied.wnd]
            exact hreplied.carries
      · obtain ⟨-, rfl⟩ := outcome_unique (getRamBlock_beyond hoff) hrun
        exact hX
  | modify i p =>
      obtain ⟨k, hplace, rfl⟩ := step_modify hX.invariant hstep
      have hwrite := rewrites_setPage hX.invariant hplace p
      exact hX.of_blocks (hwrite.invariant hX.invariant) hwrite.blocks
  | other c e =>
      obtain ⟨hproper, hforeign⟩ := hmeant
      obtain ⟨⟨reply, z⟩, hrun, hY⟩ := Option.bind_eq_some_iff.1 hstep
      obtain rfl := Option.some.inj hY
      have hwp : wp (onVram (exec target e c))
          (fun _ z => ∃ m, z = { X.sec with mgr := m } ∧ Carries X.sec.wnd m)
          (fun _ z => ∃ m, z = { X.sec with mgr := m } ∧ Carries X.sec.wnd m) X.sec := by
        rw [wp_onVram]
        apply wp_mono (wp_exec target c hX.invariant hproper.inPage hproper.safe)
        · intro bs m hm
          exact ⟨m, rfl, hm.carries hX fun i flags hcall => absurd hcall (hforeign i flags)⟩
        · intro _ m hend
          obtain ⟨hfails, -⟩ := hend
          exact ⟨m, rfl, hX.of_blocks (hfails.invariant hX.invariant) hfails.blocks⟩
      obtain ⟨m, rfl, hm⟩ := wlp_any (wlp_of_wp hwp) hrun
      exact hm

/-- In every state of a run `getRamBlock` returns a block in a slot if and only if the block of
the window can be emptied, and the search for a slot is lucky where none is left behind. -/
theorem run_answers_iff (t : Target) {F : KboFileIO φ} {x y : FileRun φ} {calls : List FileCall}
    (hstart : x.sec.mgr.Started)
    (hrun : Run (When (fun x => FileCall.Meant x.sec) fun x c y => x.step t F c = some y) x calls y) :
    ∀ e e' offset, offset < y.sec.size → y.sec.Ready F e e' offset →
      (y.sec.Answers F e e' offset ↔ y.sec.Answerable e e' offset) := by
  have hy : Carries y.sec.wnd y.sec.mgr := by
    apply hrun.invariant (P := fun y => Carries y.sec.wnd y.sec.mgr)
    · refine ⟨hstart.invariant, fun i => ?_⟩
      rw [hstart.unused]
      exact BitVec.zero_and
    · intro u call w hu hlast
      exact step_carries hu hlast.1 hlast.2
  intro e e' offset hoff hready
  exact answers_iff hy hoff hready

theorem memFile_serves (offset : BitVec 64) (f : (Nat → UInt8) × Nat) :
    memFile.Serves offset f :=
  ⟨rfl, fun _ => rfl, ⟨rfl, fun _ => rfl⟩, fun _ => ⟨rfl, fun _ => rfl⟩⟩

/-- The page of a block that is swapped out is replaced by another one. -/
theorem run_answers_iff_swapped : ∃ y,
    Run (When (fun x => FileCall.Meant x.sec)
      fun x c y => x.step .x64 memFile c = some y) oneSlotFile firstPageChanged y ∧
      (y.sec.Answers memFile quiet quiet 0x40000 ↔ y.sec.Answerable quiet quiet 0x40000) ∧
      y.sec.Answerable quiet quiet 0x40000 := by
  have hrun : ∃ y, Run (When (fun x => FileCall.Meant x.sec)
      fun x c y => x.step .x64 memFile c = some y) oneSlotFile firstPageChanged y ∧
      0x40000 < y.sec.size ∧ y.sec.mgr.nextPF < 2 ^ 51 ∧ y.sec.mgr.FreeSlot 0 ∧
      y.sec.type = SEC_FILE ∧ y.sec.mgr.Valid (y.sec.wnd (windowIndex 0x40000)) ∧
      y.sec.mgr.IsSwapped (y.sec.wnd (windowIndex 0x40000)) := by
    exact ⟨_, ((Run.nil.snoc ⟨trivial, rfl⟩).snoc ⟨trivial, rfl⟩).snoc
      ⟨⟨by decide, by simp⟩, rfl⟩, by decide, by decide, by unfold FreeSlot; rfl, rfl, by decide,
      by decide⟩
  obtain ⟨y, hrun, hsize, hreach, hfree, htype, hvalid, hswap⟩ := hrun
  have hready : y.sec.Ready memFile quiet quiet 0x40000 :=
    ⟨memFile_serves _ _, by decide, by decide, hreach, 0, .inl hfree⟩
  have hlucky : y.sec.mgr.Lucky quiet.rand := lucky_of_free hfree
  exact ⟨y, hrun, run_answers_iff .x64 oneSlotFile_started.mgr hrun quiet quiet 0x40000 hsize hready,
    fun _ _ => ⟨htype, hswap, hlucky⟩, fun _ => hlucky⟩

/-- The page in the block is asked for again. -/
theorem not_answers_resident : ∃ y,
    Run (When (fun x => FileCall.Meant x.sec)
      fun x c y => x.step .x64 memFile c = some y) oneSlotFile [.getRamBlock 0 quiet quiet] y ∧
      0 < y.sec.size ∧ y.sec.Ready memFile quiet quiet 0 ∧
      ¬ y.sec.Answers memFile quiet quiet 0 := by
  have hrun : ∃ y z, Run (When (fun x => FileCall.Meant x.sec)
      fun x c y => x.step .x64 memFile c = some y) oneSlotFile [.getRamBlock 0 quiet quiet] y ∧
      0 < y.sec.size ∧ y.sec.mgr.nextPF < 2 ^ 51 ∧ y.sec.mgr.UnlockedSlot 0 ∧
      getRamBlock memFile quiet quiet 0 y.sec = some (.ok none, z) := by
    exact ⟨_, _, Run.nil.snoc ⟨trivial, rfl⟩, by decide, by decide, ⟨_, rfl, by decide⟩, rfl⟩
  obtain ⟨y, z, hrun, hsize, hreach, hun, hcall⟩ := hrun
  refine ⟨y, hrun, hsize, ⟨memFile_serves _ _, by decide, by decide, hreach, 0, .inr hun⟩, ?_⟩
  rintro ⟨i, w, hanswer, -⟩
  obtain ⟨hr, -⟩ := outcome_unique hcall hanswer
  simp at hr

end Vin64.Vram
