import Vin64.Vram.FileSection
import Vin64.Vram.Proofs.Fresh
import Vin64.Vram.Proofs.Owners
import Vin64.Vram.Proofs.Partial

/-!
# A window and the file behind it

`getRamBlock` writes the page of a block back at the offset of the page that is to come, not at
its own.  The window is a cache of the file only as long as a block is recycled for the page it
holds.
-/

namespace Vin64.Vram

open Vin64.Lib Vin64.Lib.Op Vin64.Utils RamManager

variable {φ : Type} {s t u : RamManager} {e e' : Env} {pb i : Nat}

/-! ## The calls of the manager -/

theorem exists_first_free (h : s.mBlocks[i]? = some none) :
    ∃ k : Nat, s.mBlocks[k]? = some none ∧ ∀ l < k, s.mBlocks[l]? ≠ some none := by
  have hex : ∃ k : Nat, s.mBlocks[k]? = some none := ⟨i, h⟩
  exact ⟨Nat.find hex, Nat.find_spec hex, fun l hl => Nat.find_min hex hl⟩

/-- Nothing has to be stored for a slot that is free. -/
theorem wp_swap_free {Q : Unit → RamManager → Prop} {E : HRESULT → RamManager → Prop}
    (hfree : s.mBlocks[i]? = some none) (h : Q () s) : wp (swapRamAndPageFile e i none) Q E s := by
  unfold swapRamAndPageFile
  rw [wp_bind, wp_slotAt hfree]
  simpa using h

/-- An allocation succeeds when there is a free slot. -/
theorem alloc_succeeds_of_free (hfree : s.mBlocks[i]? = some none) (flags : BitVec 32) :
    Succeeds (ramAllocAddress e pb flags) s := by
  obtain ⟨k, hk, hfirst⟩ := exists_first_free hfree
  have hlt := (List.getElem?_eq_some_iff.1 hk).1
  have hfind := find_free e.rand hk hfirst
  have hwp : wp (ramAllocAddress e pb flags) (fun _ _ => True) (fun _ _ => False) s := by
    unfold ramAllocAddress
    rw [wp_bind]
    apply wp_find
    · intro j hj hchosen
      obtain rfl : k = j := Option.some.inj (hfind.symm.trans hchosen)
      rw [wp_bind]
      apply wp_swap_free hk
      simp only [wp_bind, wp_modifyBlock, wp_setSlot]
      exact ⟨hlt, trivial⟩
    · intro hnone
      rw [hfind] at hnone
      simp at hnone
  exact succeeds_of_wp hwp

/-- A block in a slot has a buffer. -/
theorem wp_buffer {Q : Option Buffer → RamManager → Prop} {E : HRESULT → RamManager → Prop}
    (hs : s.Invariant) (hplace : s.place pb = some (.slot i)) (h : Q (some (.ram (i * 4096))) s) :
    wp (buffer pb) Q E s := by
  obtain ⟨hvalid, hres, -⟩ := RamBlock.place_eq_slot.1 hplace
  have haddr := (hs.addr_lt hplace).2
  simp only [buffer, wp_bind, wp_blockAt, wp_ite, wp_pure, getRamBuffer, haddr]
  exact ⟨fun h0 => absurd h0 hvalid, fun _ => ⟨fun hswap => absurd hres hswap, fun _ => h⟩⟩

/-! ## The steps of `getRamBlock` -/

variable {F : KboFileIO φ} {bytes : φ → Nat → UInt8} {pos : φ → Nat} {y z : KmoSection φ}
  {off : BitVec 64} {idx : Fin 64} {m : RamManager} {f : φ}

@[simp] theorem wp_onVram {α : Type} {x : Ram α} {Q : α → KmoSection φ → Prop}
    {E : HRESULT → KmoSection φ → Prop} : wp (onVram x) Q E y ↔
      wp x (fun a m => Q a { y with mgr := m }) (fun e m => E e { y with mgr := m }) y.mgr := by
  unfold onVram
  exact wp_zoom x

@[simp] theorem wp_onFile {α : Type} {x : φ → α × φ} {Q : α → KmoSection φ → Prop}
    {E : HRESULT → KmoSection φ → Prop} :
    wp (onFile x) Q E y ↔ Q (x y.file).1 { y with file := (x y.file).2 } := by
  simp [onFile]

@[simp] theorem wp_succeeded {x : Ram Unit} {Q : Bool → KmoSection φ → Prop}
    {E : HRESULT → KmoSection φ → Prop} : wp (succeeded x) Q E y ↔
      wp x (fun _ m => Q true { y with mgr := m }) (fun _ m => Q false { y with mgr := m }) y.mgr := by
  simp only [succeeded, wp_bind, wp_attempt, wp_onVram, wp_pure]

/-- The page in the block's slot is written to the file. -/
theorem wp_writeBuffer {Q : Bool → KmoSection φ → Prop} {E : HRESULT → KmoSection φ → Prop}
    (hs : y.mgr.Invariant) (hplace : y.mgr.place pb = some (.slot i))
    (h : Q (F.write (y.mgr.slotPage i) y.file).1
      { y with file := (F.write (y.mgr.slotPage i) y.file).2 }) :
    wp (writeBuffer F pb) Q E y := by
  unfold writeBuffer
  rw [wp_bind, wp_onVram]
  apply wp_buffer hs hplace
  simp only [wp_bind, wp_onVram, wp_readPage, wp_onFile]
  exact ⟨holds_slot (hs.addr_lt hplace).1, h⟩

/-- The page that is read from the file comes to the block's slot. -/
theorem wp_readBuffer {Q : Bool → KmoSection φ → Prop} {E : HRESULT → KmoSection φ → Prop}
    (hs : y.mgr.Invariant) (hplace : y.mgr.place pb = some (.slot i))
    (h : Q (F.read (y.mgr.slotPage i) y.file).1.1
      { y with
        mgr := y.mgr.setPage (.ram (i * 4096)) (F.read (y.mgr.slotPage i) y.file).1.2
        file := (F.read (y.mgr.slotPage i) y.file).2 }) :
    wp (readBuffer F pb) Q E y := by
  have hholds := holds_slot (hs.addr_lt hplace).1
  unfold readBuffer
  rw [wp_bind, wp_onVram]
  apply wp_buffer hs hplace
  simp only [wp_bind, wp_onVram, wp_readPage, wp_writePage, wp_onFile, wp_pure]
  exact ⟨hholds, hholds, h⟩

/-- The block has a slot, with the page of the file. -/
structure Filled (bytes : φ → Nat → UInt8) (y : KmoSection φ) (idx : Fin 64) (off : BitVec 64)
    (m : RamManager) (f : φ) : Prop where
  invariant : m.Invariant
  resident : m.Resident (y.wnd idx)
  content : m.content =
    Function.update y.mgr.content (y.wnd idx) (some (window (bytes y.file) 4096 off.toNat))
  file : bytes f = bytes y.file

theorem wp_fill (hF : F.Works bytes pos y.size) (hs : y.mgr.Invariant) (he : e.Clean)
    (hoff : off < y.size) (hplace : y.mgr.place (y.wnd idx) = none) :
    wp (fill F e idx off)
      (fun r z => (∃ m f, r = some idx ∧ Filled bytes y idx off m f ∧
          z = { y with mgr := m, file := f, offset := Function.update y.offset idx off }) ∨
        (∃ m, r = none ∧ ¬ Succeeds (ramAllocAddress e (y.wnd idx) 0) y.mgr ∧ m.Invariant ∧
          m.content = y.mgr.content ∧
          z = { y with mgr := m, offset := Function.update y.offset idx off }))
      (fun _ _ => False) y := by
  have hvalid : ¬ y.mgr.Valid (y.wnd idx) := fun h => h (RamBlock.place_eq_none.1 hplace)
  have halloc : wp (ramAllocAddress e (y.wnd idx) 0)
      (fun _ u => Effect y.mgr e (.alloc (y.wnd idx) 0) [] u) (fun _ u => Fails e y.mgr u) y.mgr :=
    wp_ramAllocAddress hs (fun h => absurd h hvalid) (fun _ hu => hu) fun _ hu => hu
  simp only [fill, wp_bind, wp_modify, wp_get, wp_succeeded]
  apply wp_mono (wp_not_succeeds halloc)
  · intro _ m hm
    cases hm with
    | @alloc _ i _ u _ _ hroom hput _ =>
        have hu := hroom.invariant hs
        have hm := hput.invariant hu
        have hmplace := hput.place_self
        obtain ⟨hok, hbytes, hpos⟩ := hF.seek off hoff y.file
        simp only [not_true_eq_false, if_false, wp_bind, wp_onFile, hok]
        apply wp_readBuffer hm hmplace
        obtain ⟨hread, hkept⟩ := hF.read (m.slotPage i) (F.seek off y.file).2
        rw [hbytes, hpos] at hread
        simp only [hread, not_true_eq_false, if_false, wp_pure]
        have hwrite := rewrites_setPage hm hmplace (window (bytes y.file) 4096 off.toNat)
        refine .inl ⟨_, _, trivial, ⟨hwrite.invariant hm, ?_, ?_, by rw [hkept, hbytes]⟩, rfl⟩
        · apply resident_of_slot (i := i)
          rw [hwrite.place, hmplace]
        · rw [hwrite.content, hput.content hu, hroom.content hs, Function.update_idem]
  · intro v m hend
    obtain ⟨hfails, hno⟩ := hend
    simp only [Bool.false_eq_true, not_false_eq_true, if_true, wp_pure]
    exact .inr ⟨m, trivial, hno, hfails.invariant hs, hfails.content he, rfl⟩

/-- The block was written to the file and freed. -/
structure Emptied (bytes : φ → Nat → UInt8) (y : KmoSection φ) (pb : Nat) (p : Page)
    (off : BitVec 64) (m : RamManager) (f : φ) : Prop where
  invariant : m.Invariant
  place : m.place pb = none
  room : ∃ k : Nat, m.mBlocks[k]? = some none
  content : m.content = Function.update y.mgr.content pb none
  file : bytes f = blit (bytes y.file) off.toNat p

/-- A block that is swapped out is written at the new offset. -/
theorem wp_recycle {p : Page} (hF : F.Works bytes pos y.size) (hs : y.mgr.Invariant) (he : e.Clean)
    (hacc : y.acc &&& SECTION_MAP_WRITE ≠ 0#32) (htype : y.type = SEC_FILE) (hoff : off < y.size)
    (hp : y.mgr.content pb = some p) :
    wp (recycle F e pb off)
      (fun r z => (∃ m f, r = true ∧ Emptied bytes y pb p off m f ∧
          z = { y with mgr := m, file := f }) ∨
        (∃ m, r = false ∧ ¬ Succeeds (ramSwapIn e pb) y.mgr ∧ m.Invariant ∧
          m.content = y.mgr.content ∧ z = { y with mgr := m }))
      (fun _ _ => False) y := by
  have hswap : wp (ramSwapIn e pb) (fun _ u => ∃ i, Fetches y.mgr u i pb)
      (fun _ u => Fails e y.mgr u) y.mgr :=
    wp_ramSwapIn hs (fun _ i _ hu => ⟨i, hu⟩) fun _ hu => hu
  simp only [recycle, wp_bind, wp_get, wp_ite, wp_succeeded]
  refine ⟨fun _ => ⟨fun _ => ?_, fun hne => absurd htype hne⟩, fun hno => absurd hacc hno⟩
  apply wp_mono (wp_not_succeeds hswap)
  · intro _ m hend
    obtain ⟨i, hfetch⟩ := hend
    have hm := hfetch.invariant hs
    have hplace := hfetch.place_self hs
    have hpage : m.slotPage i = p := by
      apply Option.some.inj
      rw [← content_slot hplace, hfetch.content hs, hp]
    obtain ⟨hok, hbytes, hpos⟩ := hF.seek off hoff y.file
    refine ⟨fun h => absurd trivial h, fun _ => ?_⟩
    rw [wp_onFile]
    refine ⟨fun h => absurd hok h, fun _ => ?_⟩
    apply wp_writeBuffer hm hplace
    obtain ⟨hwrite, hfile⟩ := hF.write (m.slotPage i) (F.seek off y.file).2
    refine ⟨fun h => absurd hwrite h, fun _ => ?_⟩
    apply wp_ramFreeAddress (e := quiet) hm
    intro u hu
    cases hu with
    | freeUnused hnone =>
        rw [hplace] at hnone
        simp at hnone
    | free hlift _ =>
        refine .inl ⟨u, _, trivial, ⟨hlift.invariant hm, hlift.place_self, ⟨i, ?_⟩, ?_, ?_⟩, rfl⟩
        · rw [hlift.of_slot i hplace]
          exact List.getElem?_set_self (hm.addr_lt hplace).1
        · rw [hlift.content, hfetch.content hs]
        · rw [hfile, hbytes, hpos, hpage]
  · intro v m hend
    obtain ⟨hfails, hno⟩ := hend
    refine ⟨fun _ => ?_, fun h => absurd (by simp) h⟩
    exact .inr ⟨m, rfl, hno, hfails.invariant hs, hfails.content he, rfl⟩

/-- `RamSwapIn` fails on a block that is in its slot. -/
theorem wp_recycle_resident (hacc : y.acc &&& SECTION_MAP_WRITE ≠ 0#32) (htype : y.type = SEC_FILE)
    (hres : y.mgr.Resident pb) :
    wp (recycle F e pb off) (fun r z => r = false ∧ z = y) (fun _ _ => False) y := by
  have hin : (y.mgr.blocks pb).flags &&& BF_SWAPPED = 0#32 := not_not.1 hres.2
  simp only [recycle, ramSwapIn, wp_bind, wp_get, wp_ite, wp_succeeded, wp_blockAt, wp_fail]
  refine ⟨fun _ => ⟨fun _ => ⟨fun _ => ?_, fun hswap => absurd hin hswap⟩, fun hne =>
    absurd htype hne⟩, fun hno => absurd hacc hno⟩
  simp

/-- What `getRamBlock` leaves of a writable file section. -/
inductive Outcome (bytes : φ → Nat → UInt8) (y : KmoSection φ) (off : BitVec 64) (e e' : Env) :
    Option (Fin 64) → KmoSection φ → Prop
  | resident : y.mgr.Resident (y.wnd (windowIndex off)) → Outcome bytes y off e e' none y
  | notIn {m : RamManager} : y.mgr.IsSwapped (y.wnd (windowIndex off)) →
      ¬ Succeeds (ramSwapIn e (y.wnd (windowIndex off))) y.mgr → m.Invariant →
      m.content = y.mgr.content → Outcome bytes y off e e' none { y with mgr := m }
  | notAllocated {m : RamManager} : ¬ y.mgr.Valid (y.wnd (windowIndex off)) →
      ¬ Succeeds (ramAllocAddress e' (y.wnd (windowIndex off)) 0) y.mgr → m.Invariant →
      m.content = y.mgr.content → Outcome bytes y off e e' none
        { y with mgr := m, offset := Function.update y.offset (windowIndex off) off }
  | filled {m : RamManager} {f : φ} : ¬ y.mgr.Valid (y.wnd (windowIndex off)) →
      Filled bytes y (windowIndex off) off m f → Outcome bytes y off e e' (some (windowIndex off))
        { y with mgr := m, file := f, offset := Function.update y.offset (windowIndex off) off }
  | recycled {m : RamManager} {f : φ} {p : Page} : y.mgr.IsSwapped (y.wnd (windowIndex off)) →
      y.mgr.content (y.wnd (windowIndex off)) = some p → m.Invariant →
      m.Resident (y.wnd (windowIndex off)) → m.content = y.mgr.content →
      bytes f = blit (bytes y.file) off.toNat p → Outcome bytes y off e e' (some (windowIndex off))
        { y with mgr := m, file := f, offset := Function.update y.offset (windowIndex off) off }

theorem wp_getRamBlock (hF : F.Works bytes pos y.size) (hs : y.mgr.Invariant) (he : e.Clean)
    (he' : e'.Clean) (hacc : y.acc &&& SECTION_MAP_WRITE ≠ 0#32) (htype : y.type = SEC_FILE)
    (hoff : off < y.size) :
    wp (getRamBlock F e e' off) (Outcome bytes y off e e') (fun _ _ => False) y := by
  simp only [getRamBlock, wp_bind, wp_get, wp_ite, wp_pure]
  refine ⟨fun hbig => absurd hbig (BitVec.not_le.2 hoff), fun _ => ⟨fun hvalid => ?_,
    fun hunused => ?_⟩⟩
  · by_cases hswap : y.mgr.IsSwapped (y.wnd (windowIndex off))
    · obtain ⟨p, hp⟩ := content_of_valid hvalid
      apply wp_mono (wp_recycle hF hs he hacc htype hoff hp)
      · intro r z hz
        rcases hz with ⟨m, f, rfl, hempty, rfl⟩ | ⟨m, rfl, hno, hm, hcontent, rfl⟩
        · refine ⟨fun h => absurd rfl h, fun _ => ?_⟩
          apply wp_mono (wp_fill (y := { y with mgr := m, file := f }) hF hempty.invariant he' hoff
            hempty.place)
          · intro r z hz
            rcases hz with ⟨m', f', rfl, hfill, rfl⟩ | ⟨m', -, hno, -⟩
            · apply Outcome.recycled hswap hp hfill.invariant hfill.resident
              · rw [hfill.content, hempty.content, Function.update_idem, hempty.file,
                  window_blit_self, ← hp, Function.update_eq_self]
              · exact hfill.file.trans hempty.file
            · obtain ⟨k, hk⟩ := hempty.room
              exact absurd (alloc_succeeds_of_free hk 0) hno
          · exact fun _ _ h => h
        · exact ⟨fun _ => .notIn hswap hno hm hcontent, fun h => absurd (by simp) h⟩
      · exact fun _ _ h => h
    · apply wp_mono (wp_recycle_resident hacc htype ⟨hvalid, hswap⟩)
      · intro r z hend
        obtain ⟨hr, hz⟩ := hend
        rw [hr, hz]
        exact ⟨fun _ => .resident ⟨hvalid, hswap⟩, fun h => absurd (by simp) h⟩
      · exact fun _ _ h => h
  · have hplace := RamBlock.place_eq_none.2 (not_not.1 hunused)
    apply wp_mono (wp_fill hF hs he' hoff hplace)
    · intro r z hz
      rcases hz with ⟨m, f, rfl, hfill, rfl⟩ | ⟨m, rfl, hno, hm, hcontent, rfl⟩
      · exact .filled hunused hfill
      · exact .notAllocated hunused hno hm hcontent
    · exact fun _ _ h => h

/-- Beyond the size there is no block. -/
theorem getRamBlock_beyond (hoff : ¬ off < y.size) :
    getRamBlock F e e' off y = some (.ok none, y) := by
  have hge : off ≥ y.size := BitVec.not_lt.1 hoff
  unfold getRamBlock
  rw [bind_ok (show (get : Op (KmoSection φ) HRESULT _) y = _ from rfl), if_pos hge]
  rfl

/-! ## The pages of the section -/

theorem valid_iff_content {q : Nat} : s.Valid q ↔ s.content q ≠ none := by
  constructor
  · intro h
    obtain ⟨p, hp⟩ := content_of_valid h
    rw [hp]
    simp
  · intro h hunused
    apply h
    have hplace : s.place q = none := RamBlock.place_eq_none.2 hunused
    unfold content
    rw [hplace]
    rfl

/-- The window of a page is left by a write to another page. -/
theorem window_blit_page {a b : BitVec 64} (g : Nat → UInt8) (p : Page) (ha : a.toNat % 4096 = 0)
    (hb : b.toNat % 4096 = 0) (h : b ≠ a) :
    window (blit g a.toNat p) 4096 b.toNat = window g 4096 b.toNat := by
  have hne : b.toNat ≠ a.toNat := fun heq => h (BitVec.eq_of_toNat_eq heq)
  apply window_blit_of_disjoint
  omega

variable {X Y : FileRun φ} {r : Option (Fin 64)} {a b : BitVec 64} {p : Page}

/-- A block holds the page of its offset, and the file holds the pages that no block holds. -/
structure FileRun.Coherent (bytes : φ → Nat → UInt8) (X : FileRun φ) : Prop where
  mgr : X.sec.mgr.Invariant
  writable : X.sec.acc &&& SECTION_MAP_WRITE ≠ 0#32
  isFile : X.sec.type = SEC_FILE
  keyed : ∀ i, X.sec.mgr.Valid (X.sec.wnd i) →
    windowIndex (X.sec.offset i) = i ∧ (X.sec.offset i).toNat % 4096 = 0
  cached : ∀ i, X.sec.mgr.Valid (X.sec.wnd i) →
    X.sec.mgr.content (X.sec.wnd i) = some (X.page (X.sec.offset i))
  rest : ∀ a, a.toNat % 4096 = 0 → X.sec.held a ≠ some a →
    X.page a = window (bytes X.sec.file) 4096 a.toNat

theorem held_eq_some : y.held off = some a ↔
    y.mgr.Valid (y.wnd (windowIndex off)) ∧ y.offset (windowIndex off) = a := by
  unfold KmoSection.held
  by_cases h : y.mgr.Valid (y.wnd (windowIndex off)) <;> simp [h]

theorem held_eq_none : y.held off = none ↔ ¬ y.mgr.Valid (y.wnd (windowIndex off)) := by
  unfold KmoSection.held
  by_cases h : y.mgr.Valid (y.wnd (windowIndex off)) <;> simp [h]

namespace FileRun.Coherent

/-- Only the RAM manager did something, and it left the pages of the window. -/
theorem of_content (hX : X.Coherent bytes) (hm : m.Invariant)
    (h : ∀ i, m.content (X.sec.wnd i) = X.sec.mgr.content (X.sec.wnd i)) :
    FileRun.Coherent bytes { X with sec := { X.sec with mgr := m } } := by
  have hvalid : ∀ i, m.Valid (X.sec.wnd i) ↔ X.sec.mgr.Valid (X.sec.wnd i) := by
    intro i
    rw [valid_iff_content, valid_iff_content, h]
  refine ⟨hm, hX.writable, hX.isFile, fun i hi => hX.keyed i ((hvalid i).1 hi), ?_, ?_⟩
  · intro i hi
    show m.content (X.sec.wnd i) = _
    rw [h]
    exact hX.cached i ((hvalid i).1 hi)
  · intro a ha hout
    apply hX.rest a ha
    intro hheld
    apply hout
    rw [held_eq_some] at hheld ⊢
    exact ⟨(hvalid _).2 hheld.1, hheld.2⟩

/-- The block of an offset gets the page of this offset. -/
theorem serve (hX : X.Coherent bytes) (hoff : off.toNat % 4096 = 0) (hm : m.Invariant)
    (hcontent : m.content = Function.update X.sec.mgr.content (X.sec.wnd (windowIndex off))
      (some (X.page off)))
    (hfile : ∀ b : BitVec 64, b.toNat % 4096 = 0 → b ≠ off →
      window (bytes f) 4096 b.toNat = window (bytes X.sec.file) 4096 b.toNat)
    (hleft : ∀ a, X.sec.held off = some a → a ≠ off →
      X.page a = window (bytes X.sec.file) 4096 a.toNat) :
    FileRun.Coherent bytes { X with
      sec := { X.sec with
        mgr := m
        file := f
        offset := Function.update X.sec.offset (windowIndex off) off } } := by
  have hself : m.content (X.sec.wnd (windowIndex off)) = some (X.page off) := by
    rw [hcontent, Function.update_self]
  have hother : ∀ i, i ≠ windowIndex off →
      m.content (X.sec.wnd i) = X.sec.mgr.content (X.sec.wnd i) := by
    intro i hi
    rw [hcontent, Function.update_of_ne]
    exact fun hsame => hi (X.sec.wnd.injective hsame)
  have hvalid : ∀ i, i ≠ windowIndex off →
      (m.Valid (X.sec.wnd i) ↔ X.sec.mgr.Valid (X.sec.wnd i)) := by
    intro i hi
    rw [valid_iff_content, valid_iff_content, hother i hi]
  refine ⟨hm, hX.writable, hX.isFile, ?_, ?_, ?_⟩
  · intro i hi
    show windowIndex (Function.update X.sec.offset (windowIndex off) off i) = i ∧
      (Function.update X.sec.offset (windowIndex off) off i).toNat % 4096 = 0
    by_cases hidx : i = windowIndex off
    · rw [hidx, Function.update_self]
      exact ⟨rfl, hoff⟩
    · rw [Function.update_of_ne hidx]
      exact hX.keyed i ((hvalid i hidx).1 hi)
  · intro i hi
    show m.content (X.sec.wnd i) =
      some (X.page (Function.update X.sec.offset (windowIndex off) off i))
    by_cases hidx : i = windowIndex off
    · rw [hidx, Function.update_self, hself]
    · rw [Function.update_of_ne hidx, hother i hidx]
      exact hX.cached i ((hvalid i hidx).1 hi)
  · intro b hb hout
    have hvself : m.Valid (X.sec.wnd (windowIndex off)) := by
      rw [valid_iff_content, hself]
      simp
    have hne : b ≠ off := by
      rintro rfl
      apply hout
      rw [held_eq_some]
      exact ⟨hvself, Function.update_self _ _ _⟩
    rw [show bytes ({ X.sec with
      mgr := m
      file := f
      offset := Function.update X.sec.offset (windowIndex off) off } : KmoSection φ).file = bytes f
      from rfl, hfile b hb hne]
    by_cases hheld : X.sec.held b = some b
    · by_cases hidx : windowIndex b = windowIndex off
      · apply hleft b
        · rw [held_eq_some] at hheld ⊢
          rwa [hidx] at hheld
        · exact hne
      · exfalso
        apply hout
        rw [held_eq_some] at hheld ⊢
        refine ⟨(hvalid _ hidx).2 hheld.1, ?_⟩
        show Function.update X.sec.offset (windowIndex off) off (windowIndex b) = b
        rw [Function.update_of_ne hidx, hheld.2]
    · exact hX.rest b hb hheld

end FileRun.Coherent

/-! ## Steps -/

/-- What a recycled block held. -/
theorem FileRun.Coherent.recycled_page (hX : X.Coherent bytes)
    (hp : X.sec.mgr.content (X.sec.wnd (windowIndex off)) = some p) :
    ∃ a, X.sec.held off = some a ∧ p = X.page a := by
  have hvalid : X.sec.mgr.Valid (X.sec.wnd (windowIndex off)) := by
    rw [valid_iff_content, hp]
    simp
  refine ⟨_, held_eq_some.2 ⟨hvalid, rfl⟩, ?_⟩
  rw [hX.cached _ hvalid] at hp
  exact (Option.some.inj hp).symm

/-- The page at an offset that the block for it does not hold is in the file. -/
theorem FileRun.Coherent.page_of_file (hX : X.Coherent bytes) (hoff : off.toNat % 4096 = 0)
    (hheld : X.sec.held off = some a) (hne : a ≠ off) :
    X.page off = window (bytes X.sec.file) 4096 off.toNat := by
  apply hX.rest off hoff
  rw [hheld]
  exact fun h => hne (Option.some.inj h)

/-- The page that a recycled block held is the one asked for, and is written back where it came
from, if and only if its offset is asked for, or it is in the file at both offsets. -/
theorem FileRun.Coherent.recycled_iff (hX : X.Coherent bytes) (hoff : off.toNat % 4096 = 0)
    (ha : X.sec.held off = some a) :
    (X.page a = X.page off ∧ blit (bytes X.sec.file) off.toNat (X.page a) =
        blit (bytes X.sec.file) a.toNat (X.page a)) ↔
      (a = off ∨ window (bytes X.sec.file) 4096 a.toNat = X.page a ∧
        window (bytes X.sec.file) 4096 off.toNat = X.page a) := by
  have haligned : a.toNat % 4096 = 0 := by
    obtain ⟨hvalid, rfl⟩ := held_eq_some.1 ha
    exact (hX.keyed _ hvalid).2
  by_cases hne : a = off
  · subst hne
    exact iff_of_true ⟨rfl, rfl⟩ (.inl rfl)
  · rw [hX.page_of_file hoff ha hne]
    constructor
    · intro ⟨hshows, hwritten⟩
      refine .inr ⟨?_, hshows.symm⟩
      calc window (bytes X.sec.file) 4096 a.toNat
        _ = window (blit (bytes X.sec.file) off.toNat (X.page a)) 4096 a.toNat :=
          (window_blit_page (bytes X.sec.file) (X.page a) hoff haligned hne).symm
        _ = window (blit (bytes X.sec.file) a.toNat (X.page a)) 4096 a.toNat := by rw [hwritten]
        _ = X.page a := window_blit_self _ _ _
    · intro hrecyclable
      obtain ⟨hfirst, hsecond⟩ := hrecyclable.resolve_left hne
      refine ⟨hsecond.symm, ?_⟩
      calc blit (bytes X.sec.file) off.toNat (X.page a)
        _ = bytes X.sec.file := by rw [← hsecond, blit_window]
        _ = blit (bytes X.sec.file) a.toNat (X.page a) := by rw [← hfirst, blit_window]

/-- A call that recycles no block for the page of another one, unless both are the same. -/
theorem FileRun.Coherent.after (hX : X.Coherent bytes) (hoff : off.toNat % 4096 = 0)
    (hrecyclable : X.Recyclable bytes off) (h : Outcome bytes X.sec off e e' r z) :
    FileRun.Coherent bytes { X with sec := z } := by
  cases h with
  | resident _ => exact hX
  | notIn _ _ hm hcontent => exact hX.of_content hm fun i => by rw [hcontent]
  | @notAllocated m hunused _ hm hcontent =>
      have hsame := hX.of_content hm fun i => by rw [hcontent]
      have hgone : ¬ m.Valid (X.sec.wnd (windowIndex off)) := by
        rwa [valid_iff_content, hcontent, ← valid_iff_content]
      have hidx : ∀ i, m.Valid (X.sec.wnd i) → i ≠ windowIndex off := by
        rintro i hi rfl
        exact hgone hi
      refine ⟨hm, hX.writable, hX.isFile, ?_, ?_, ?_⟩
      · intro i hi
        show windowIndex (Function.update X.sec.offset (windowIndex off) off i) = i ∧
          (Function.update X.sec.offset (windowIndex off) off i).toNat % 4096 = 0
        rw [Function.update_of_ne (hidx i hi)]
        exact hsame.keyed i hi
      · intro i hi
        show m.content (X.sec.wnd i) =
          some (X.page (Function.update X.sec.offset (windowIndex off) off i))
        rw [Function.update_of_ne (hidx i hi)]
        exact hsame.cached i hi
      · intro b hb hout
        apply hsame.rest b hb
        intro hheld
        apply hout
        rw [held_eq_some] at hheld ⊢
        refine ⟨hheld.1, ?_⟩
        show Function.update X.sec.offset (windowIndex off) off (windowIndex b) = b
        rw [Function.update_of_ne (hidx _ hheld.1)]
        exact hheld.2
  | @filled m f hunused hfill =>
      have hnone := held_eq_none.2 hunused
      apply hX.serve hoff hfill.invariant
      · rw [hfill.content, hX.rest off hoff (by rw [hnone]; simp)]
      · intro b _ _
        rw [hfill.file]
      · intro a ha
        rw [hnone] at ha
        simp at ha
  | @recycled m f p hswap hp hm _ hcontent hfile =>
      obtain ⟨a, ha, rfl⟩ := hX.recycled_page hp
      have hheld := (hrecyclable a ha).2
      obtain ⟨hpage, -⟩ := (hX.recycled_iff hoff ha).2 hheld
      apply hX.serve hoff hm
      · rw [hcontent, ← hpage, ← hp, Function.update_eq_self]
      · intro b hb hne
        rw [hfile]
        exact window_blit_page _ _ hoff hb hne
      · intro b hb hne
        obtain rfl : a = b := Option.some.inj (ha.symm.trans hb)
        exact (hheld.resolve_left hne).1.symm

/-- With the manager's calls succeeding, `getRamBlock` does what it is to do exactly when it
recycles no other page. -/
theorem caches_iff (hX : X.Coherent bytes) (hoff : off.toNat % 4096 = 0)
    (hserved : X.Served off e e') (h : Outcome bytes X.sec off e e' r z) :
    X.Caches bytes off r z ↔ X.Recyclable bytes off := by
  cases h with
  | resident hres =>
      constructor
      · intro hcaches
        have hanswers := hcaches.answers
        simp at hanswers
      · intro hrecyclable
        exact absurd (hrecyclable _ (held_eq_some.2 ⟨hres.1, rfl⟩)).1 hres.2
  | notIn hswap hno _ _ => exact absurd (hserved.swapsIn hswap) hno
  | notAllocated hunused hno _ _ => exact absurd (hserved.allocates (held_eq_none.2 hunused)) hno
  | filled hunused hfill =>
      have hnone := held_eq_none.2 hunused
      constructor
      · intro _ a ha
        rw [hnone] at ha
        simp at ha
      · intro _
        refine ⟨rfl, hfill.resident, ?_, ?_⟩
        · show RamManager.content _ _ = _
          rw [hfill.content, Function.update_self, hX.rest off hoff (by rw [hnone]; simp)]
        · unfold FileRun.flushed
          rw [hnone]
          exact hfill.file
  | @recycled m f p hswap hp hm hres hcontent hfile =>
      obtain ⟨a, ha, rfl⟩ := hX.recycled_page hp
      have hflushed : X.flushed bytes off = blit (bytes X.sec.file) a.toNat (X.page a) := by
        unfold FileRun.flushed
        rw [ha]
        rfl
      constructor
      · intro hcaches b hb
        obtain rfl : a = b := Option.some.inj (ha.symm.trans hb)
        have hshows := hcaches.shows
        change m.content _ = _ at hshows
        rw [hcontent, hp] at hshows
        have hwritten := hcaches.file
        change bytes f = _ at hwritten
        rw [hfile, hflushed] at hwritten
        exact ⟨hswap, (hX.recycled_iff hoff ha).1 ⟨Option.some.inj hshows, hwritten⟩⟩
      · intro hrecyclable
        obtain ⟨hpage, hwritten⟩ := (hX.recycled_iff hoff ha).2 (hrecyclable a ha).2
        refine ⟨rfl, hres, ?_, ?_⟩
        · show m.content _ = _
          rw [hcontent, hp, hpage]
        · show bytes f = _
          rw [hfile, hflushed, hwritten]

/-- A call leaves the pages of the blocks that it is not about, and a swap-out leaves all. -/
theorem Store.Step.other {σ σ' : Store} {c : Call} {bs : List UInt8} {q : Nat}
    (h : Store.Step σ c bs σ') (hq : q ≠ blockOf c ∨ ∃ pb bForce, c = .swapOut pb bForce) :
    σ' q = σ q := by
  cases h with
  | alloc _ _ _ => exact Function.update_of_ne (hq.resolve_right (by simp)) _ _
  | free _ => exact Function.update_of_ne (hq.resolve_right (by simp)) _ _
  | directWrite _ _ _ _ _ _ => exact Function.update_of_ne (hq.resolve_right (by simp)) _ _
  | _ => rfl

theorem wlp_modifyBuffer (hs : s.Invariant) (p : Page) :
    wlp (modifyBuffer pb p)
      (fun _ u => ∃ k, s.place pb = some (.slot k) ∧ u = s.setPage (.ram (k * 4096)) p)
      (fun _ _ => False) s := by
  simp only [modifyBuffer, buffer, wlp_bind, wlp_blockAt, wlp_ite, wlp_pure, wlp_fault,
    wlp_writePage]
  refine ⟨fun _ => trivial, fun hvalid => ⟨fun _ => trivial, fun hres _ => ?_⟩⟩
  have hplace := RamBlock.place_eq_slot.2 ⟨hvalid, not_not.1 hres, rfl⟩
  refine ⟨_, hplace, ?_⟩
  rw [← (hs.addr_lt hplace).2]
  rfl

theorem step_modify {i : Fin 64} {t : Target} (hs : X.sec.mgr.Invariant)
    (hstep : X.step t F (.modify i p) = some Y) :
    ∃ k, X.sec.mgr.place (X.sec.wnd i) = some (.slot k) ∧
      Y = ⟨{ X.sec with mgr := X.sec.mgr.setPage (.ram (k * 4096)) p },
        Function.update X.page (X.sec.offset i) p⟩ := by
  obtain ⟨⟨reply, z⟩, hrun, hY⟩ := Option.bind_eq_some_iff.1 hstep
  obtain rfl := Option.some.inj hY
  have hwlp : wlp (onVram (modifyBuffer (X.sec.wnd i) p))
      (fun _ z => ∃ k, X.sec.mgr.place (X.sec.wnd i) = some (.slot k) ∧
        z = { X.sec with mgr := X.sec.mgr.setPage (.ram (k * 4096)) p })
      (fun _ z => ∃ k, X.sec.mgr.place (X.sec.wnd i) = some (.slot k) ∧
        z = { X.sec with mgr := X.sec.mgr.setPage (.ram (k * 4096)) p }) X.sec := by
    simp only [onVram, wlp_zoom]
    apply wlp_mono (wlp_modifyBuffer hs p)
    · intro _ u hend
      obtain ⟨k, hk, hu⟩ := hend
      exact ⟨k, hk, by rw [hu]⟩
    · exact fun _ _ h => h.elim
  obtain ⟨k, hplace, rfl⟩ := wlp_any hwlp hrun
  exact ⟨k, hplace, rfl⟩

theorem modify_coherent {i : Fin 64} {t : Target} (hX : X.Coherent bytes)
    (hstep : X.step t F (.modify i p) = some Y) : Y.Coherent bytes ∧ Y.sec.size = X.sec.size := by
  obtain ⟨k, hplace, rfl⟩ := step_modify hX.mgr hstep
  have hwrite := rewrites_setPage hX.mgr hplace p
  have hvi : X.sec.mgr.Valid (X.sec.wnd i) := (RamBlock.place_eq_slot.1 hplace).1
  refine ⟨⟨hwrite.invariant hX.mgr, hX.writable, hX.isFile, hX.keyed, ?_, ?_⟩, rfl⟩
  · intro j hj
    show RamManager.content _ (X.sec.wnd j) =
      some (Function.update X.page (X.sec.offset i) p (X.sec.offset j))
    rw [hwrite.content]
    by_cases hij : j = i
    · rw [hij, Function.update_self, Function.update_self]
    · have hwnd : X.sec.wnd j ≠ X.sec.wnd i := fun h => hij (X.sec.wnd.injective h)
      have hoff : X.sec.offset j ≠ X.sec.offset i := by
        intro hsame
        apply hij
        rw [← (hX.keyed j hj).1, hsame, (hX.keyed i hvi).1]
      rw [Function.update_of_ne hwnd, Function.update_of_ne hoff]
      exact hX.cached j hj
  · intro b hb hout
    have hne : b ≠ X.sec.offset i := by
      rintro rfl
      apply hout
      apply held_eq_some.2
      rw [(hX.keyed i hvi).1]
      exact ⟨hvi, rfl⟩
    show Function.update X.page (X.sec.offset i) p b = _
    rw [Function.update_of_ne hne]
    exact hX.rest b hb hout

theorem other_coherent {c : Call} {t : Target} (hX : X.Coherent bytes)
    (hfair : (FileCall.other c e).Fair X.sec) (hstep : X.step t F (.other c e) = some Y) :
    Y.Coherent bytes ∧ Y.sec.size = X.sec.size := by
  obtain ⟨hproper, hclean, hforeign⟩ := hfair
  obtain ⟨⟨reply, z⟩, hrun, hY⟩ := Option.bind_eq_some_iff.1 hstep
  obtain rfl := Option.some.inj hY
  have hkept : ∀ i, X.sec.wnd i ≠ blockOf c ∨ ∃ pb bForce, c = .swapOut pb bForce := by
    intro i
    exact hforeign.imp_left fun h => (h i).symm
  have hwp : wp (onVram (exec t e c))
      (fun _ z => ∃ m, z = { X.sec with mgr := m } ∧ m.Invariant ∧
        ∀ i, m.content (X.sec.wnd i) = X.sec.mgr.content (X.sec.wnd i))
      (fun _ z => ∃ m, z = { X.sec with mgr := m } ∧ m.Invariant ∧
        ∀ i, m.content (X.sec.wnd i) = X.sec.mgr.content (X.sec.wnd i)) X.sec := by
    rw [wp_onVram]
    apply wp_mono (wp_exec t c hX.mgr hproper.inPage hproper.safe)
    · intro bs m hm
      exact ⟨m, rfl, hm.invariant hX.mgr, fun i => (hm.refines hX.mgr).other (hkept i)⟩
    · intro _ m hend
      obtain ⟨hfails, _⟩ := hend
      exact ⟨m, rfl, hfails.invariant hX.mgr, fun i => by rw [hfails.content hclean]⟩
  obtain ⟨m, rfl, hm, hcontent⟩ := wlp_any (wlp_of_wp hwp) hrun
  exact ⟨hX.of_content hm hcontent, rfl⟩

theorem FileRun.Started.coherent {x : FileRun φ} (h : x.Started bytes) : x.Coherent bytes where
  mgr := h.mgr.invariant
  writable := h.writable
  isFile := h.isFile
  keyed := fun _ hi => absurd (h.mgr.unused _) (flags_ne_of_valid hi)
  cached := fun _ hi => absurd (h.mgr.unused _) (flags_ne_of_valid hi)
  rest := fun a _ _ => h.page a

theorem step_coherent {call : FileCall} {t : Target} (hF : F.Works bytes pos X.sec.size)
    (hX : X.Coherent bytes) (hrecycles : X.Recycles bytes call) (hstep : X.Step t F call Y) :
    Y.Coherent bytes ∧ Y.sec.size = X.sec.size := by
  obtain ⟨hfair, hstep⟩ := hstep
  cases call with
  | getRamBlock off e e' =>
      obtain ⟨haligned, he, he'⟩ := hfair
      obtain ⟨⟨reply, z⟩, hrun, hY⟩ := Option.bind_eq_some_iff.1 hstep
      obtain rfl := Option.some.inj hY
      by_cases hoff : off < X.sec.size
      · have hwp := wp_getRamBlock hF hX.mgr he he' hX.writable hX.isFile hoff
        cases reply with
        | error v => exact (wp_error hwp hrun).elim
        | ok r =>
            have hout := wp_ok hwp hrun
            refine ⟨hX.after haligned (hrecycles hoff) hout, ?_⟩
            cases hout <;> rfl
      · obtain ⟨-, rfl⟩ := outcome_unique (getRamBlock_beyond hoff) hrun
        exact ⟨hX, rfl⟩
  | modify i p => exact modify_coherent hX hstep
  | other c e => exact other_coherent hX hfair hstep

/-- In every run in which no block is recycled for another page, `getRamBlock` writes a page
back and returns that of its offset; and a call for which the manager has a slot does so if and
only if it recycles no other page. -/
theorem run_caches_iff (t : Target) {x y : FileRun φ} {calls : List FileCall}
    (hF : F.Works bytes pos x.sec.size) (hstart : x.Started bytes)
    (hrun : Run (When (FileRun.Recycles bytes) (FileRun.Step t F)) x calls y) :
    ∀ off e e' r z, off.toNat % 4096 = 0 → off < y.sec.size → e.Clean → e'.Clean →
      y.Served off e e' → getRamBlock F e e' off y.sec = some (.ok r, z) →
        (y.Caches bytes off r z ↔ y.Recyclable bytes off) := by
  have hy : y.Coherent bytes ∧ y.sec.size = x.sec.size := by
    apply hrun.invariant (P := fun y => y.Coherent bytes ∧ y.sec.size = x.sec.size)
      ⟨hstart.coherent, rfl⟩
    intro u call w hinv hlast
    obtain ⟨hu, hsize⟩ := hinv
    obtain ⟨hrecycles, hstep⟩ := hlast
    obtain ⟨hw, hsame⟩ := step_coherent (by rwa [hsize]) hu hrecycles hstep
    exact ⟨hw, hsame.trans hsize⟩
  intro off e e' r z haligned hoff he he' hserved hcall
  have hwp := wp_getRamBlock (by rwa [hy.2]) hy.1.mgr he he' hy.1.writable hy.1.isFile hoff
  exact caches_iff hy.1 haligned hserved (wp_ok hwp hcall)

/-! ## Two small runs -/

/-- A file in memory -/
def memFile : KboFileIO ((Nat → UInt8) × Nat) where
  seek := fun offset f => (true, f.1, offset.toNat)
  write := fun p f => (true, blit f.1 f.2 p, f.2 + 4096)
  read := fun _ f => ((true, window f.1 4096 f.2), f.1, f.2 + 4096)

theorem memFile_works (size : BitVec 64) : memFile.Works Prod.fst Prod.snd size :=
  ⟨fun _ _ _ => ⟨rfl, rfl, rfl⟩, fun _ _ => ⟨rfl, rfl⟩, fun _ _ => ⟨rfl, rfl⟩⟩

/-- A section of an empty file whose blocks have one slot. -/
def oneSlotFile : FileRun ((Nat → UInt8) × Nat) where
  sec :=
    { mgr := oneSlot
      file := (fun _ => 0, 0)
      wnd := ⟨fun i => i, fun _ _ h => Fin.ext h⟩
      offset := fun _ => 0
      size := 0x100000
      acc := SECTION_MAP_WRITE
      type := SEC_FILE }
  page := fun _ _ => 0

theorem oneSlotFile_started : oneSlotFile.Started Prod.fst :=
  ⟨oneSlot_started, by decide, rfl, fun _ => rfl⟩

/-- The first page is loaded and changed, and its block is swapped out. -/
def firstPageChanged : List FileCall :=
  [.other (.swapOut 0 false) quiet, .modify 0 fun _ => 7, .getRamBlock 0 quiet quiet]

/-- The block is recycled for the page it holds, which is written back. -/
theorem run_caches_iff_oneSlot : ∃ y r z,
    Run (When (FileRun.Recycles Prod.fst) (FileRun.Step .x64 memFile)) oneSlotFile
      firstPageChanged y ∧
      getRamBlock memFile quiet quiet 0 y.sec = some (.ok r, z) ∧
      (y.Caches Prod.fst 0 r z ↔ y.Recyclable Prod.fst 0) ∧ z.file.1 5 = 7 := by
  have hrun : ∃ y r z, Run (When (FileRun.Recycles Prod.fst) (FileRun.Step .x64 memFile)) oneSlotFile
      firstPageChanged y ∧ getRamBlock memFile quiet quiet 0 y.sec = some (.ok r, z) ∧
      y.sec.size = 0x100000 ∧ y.Served 0 quiet quiet ∧ z.file.1 5 = 7 := by
    have hclean : quiet.Clean := by decide
    exact ⟨_, _, _, ((Run.nil.snoc ⟨fun _ _ ha => absurd (held_eq_some.1 ha).1 (by decide),
      ⟨rfl, hclean, hclean⟩, rfl⟩).snoc ⟨trivial, trivial, rfl⟩).snoc
      ⟨trivial, ⟨by decide, hclean, .inr ⟨_, _, rfl⟩⟩, rfl⟩, rfl, rfl,
      ⟨fun hnone => absurd hnone (by decide), fun _ => ⟨_, _, rfl⟩⟩, by decide +kernel⟩
  obtain ⟨y, r, z, hrun, hcall, hsize, hserved, hbyte⟩ := hrun
  have hiff := run_caches_iff .x64 (memFile_works _) oneSlotFile_started hrun 0 quiet quiet r z rfl
    (by rw [hsize]; decide) (by decide) (by decide) hserved hcall
  exact ⟨y, r, z, hrun, hcall, hiff, hbyte⟩

/-- The block is recycled for the page at `0x40000`.  The changed page is written there and not
at 0. -/
theorem page_written_elsewhere : ∃ y r z,
    Run (FileRun.Step .x64 memFile) oneSlotFile firstPageChanged y ∧
      y.Served 0x40000 quiet quiet ∧
      getRamBlock memFile quiet quiet 0x40000 y.sec = some (.ok r, z) ∧
      z.file.1 0 = 0 ∧ z.file.1 0x40000 = 7 ∧ ¬ y.Caches Prod.fst 0x40000 r z := by
  have hrun : ∃ y r z, Run (FileRun.Step .x64 memFile) oneSlotFile firstPageChanged y ∧
      y.Served 0x40000 quiet quiet ∧
      getRamBlock memFile quiet quiet 0x40000 y.sec = some (.ok r, z) ∧
      z.file.1 0 = 0 ∧ z.file.1 0x40000 = 7 ∧ y.flushed Prod.fst 0x40000 0 = 7 := by
    have hclean : quiet.Clean := by decide
    exact ⟨_, _, _, ((Run.nil.snoc ⟨⟨rfl, hclean, hclean⟩, rfl⟩).snoc ⟨trivial, rfl⟩).snoc
      ⟨⟨by decide, hclean, .inr ⟨_, _, rfl⟩⟩, rfl⟩,
      ⟨fun hnone => absurd hnone (by decide), fun _ => ⟨_, _, rfl⟩⟩, rfl,
      by decide +kernel, by decide +kernel, by decide +kernel⟩
  obtain ⟨y, r, z, hrun, hserved, hcall, hfirst, hsecond, hflushed⟩ := hrun
  refine ⟨y, r, z, hrun, hserved, hcall, hfirst, hsecond, ?_⟩
  intro hcaches
  have hbyte := congrFun hcaches.file 0
  rw [hfirst, hflushed] at hbyte
  exact absurd hbyte (by decide)

end Vin64.Vram
