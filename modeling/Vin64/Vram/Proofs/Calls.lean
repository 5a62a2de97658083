import Vin64.Vram.Proofs.Moves

/-!
# What each call does

A call keeps the invariant, whatever happens to the page file, and takes the pages of the
blocks to what `Store.Step` says.
-/

namespace Vin64.Vram

open Vin64.Lib Vin64.Lib.Op Vin64.Utils

variable {s t : RamManager} {e : Env}

/-! ## Offsets and pages -/

theorem uOffset_of_lt {j : Nat} (h : j < 2 ^ 51) : uOffset j = j * 4096 := by
  unfold uOffset VM_PAGE_SIZE
  exact Nat.mod_eq_of_lt (by omega)

theorem seeks_ok {j : Nat} (h : j < 2 ^ 51) : seeks .ok (uOffset j) = true := by
  rw [uOffset_of_lt h]
  exact decide_eq_true ⟨by simp, by omega⟩

theorem lt_of_uOffset_lt {j : Nat} (hj : j ≤ 2 ^ 51) (h : uOffset j < 2 ^ 63) : j < 2 ^ 51 := by
  rcases Nat.lt_or_eq_of_le hj with hlt | heq
  · exact hlt
  · rw [heq] at h
    exact absurd h (by decide)

namespace RamManager

theorem slotPage_setPage_self (p : Page) (i : Nat) : (s.setPage (.ram (i * 4096)) p).slotPage i = p :=
  window_blit_self _ _ _

theorem slotPage_setPage_ne (p : Page) {i k : Nat} (h : k ≠ i) :
    (s.setPage (.ram (i * 4096)) p).slotPage k = s.slotPage k :=
  window_blit_of_ne _ _ h

theorem slotPage_stored_ne (a : Access) {i k : Nat} (j : Nat) (h : k ≠ i) :
    (s.stored a j (.ram (i * 4096))).slotPage k = s.slotPage k :=
  window_blit_of_ne _ _ h

theorem filePage_stored_self (b : Buffer) (j : Nat) : (s.stored .ok j b).filePage j = s.page b := by
  have hall : splice (moved .ok) (codeBlockPage (s.page b)) (window s.storage 4096 (uOffset j)) =
      codeBlockPage (s.page b) := splice_of_le _ _ (Nat.le_refl _)
  unfold filePage stored
  rw [hall]
  simp

theorem filePage_stored_ne {a : Access} (b : Buffer) {j k : Nat} (hj : j < 2 ^ 51) (hk : k < 2 ^ 51)
    (h : k ≠ j) : (s.stored a j b).filePage k = s.filePage k := by
  unfold filePage stored
  rw [uOffset_of_lt hj, uOffset_of_lt hk]
  simp [window_blit_of_ne, h]

/-! ## Taking a page of the page file -/

theorem nextPF_lowest : (s.nextPF < s.mBlockBitMap.bits → s.mBlockBitMap.bit s.nextPF = false) ∧
    ∀ k < s.nextPF, s.mBlockBitMap.bit k = true := by
  have h := s.mBlockBitMap.find0_lowest
  unfold nextPF
  cases hf : s.mBlockBitMap.find0 with
  | some i =>
      rw [hf] at h
      exact ⟨fun _ => h.2.1, h.2.2⟩
  | none =>
      rw [hf] at h
      exact ⟨fun hlt => absurd hlt (Nat.lt_irrefl _), h⟩

theorem nextPF_le (hs : s.Invariant) : s.nextPF ≤ 2 ^ 51 := by
  apply Nat.le_of_not_lt
  intro hlt
  exact absurd (hs.low _ (nextPF_lowest.2 _ hlt)) (Nat.lt_irrefl _)

theorem bits_prealloc (hs : s.Invariant) : s.mBlockBitMap.bits ≤ s.prealloc.mBlockBitMap.bits ∧
    s.nextPF < s.prealloc.mBlockBitMap.bits := by
  have h := s.mBlockBitMap.find0_lowest
  have hgrow := hs.grows
  unfold nextPF prealloc
  cases hf : s.mBlockBitMap.find0 with
  | some i =>
      rw [hf] at h
      exact ⟨Nat.le_refl _, h.1⟩
  | none => exact ⟨Nat.le_add_right _ _, Nat.lt_add_of_pos_right hgrow⟩

theorem bit_prealloc (k : Nat) : s.prealloc.mBlockBitMap.bit k = s.mBlockBitMap.bit k := by
  unfold prealloc
  by_cases hf : s.mBlockBitMap.find0 = none
  · simp only [hf, if_true]
    exact XBitMap.bit_resize_of_le _ (Nat.le_add_right _ _) k
  · simp only [hf, if_false]

theorem mBlockBitMap_marked {j : Nat} (h : j < s.mBlockBitMap.bits) :
    (s.marked j).mBlockBitMap = s.mBlockBitMap.setbit j true := by
  simp [marked, Nat.not_le.2 h]

/-- The invariant is about the blocks, the slots and which pages of the file are used. -/
theorem Invariant.of_blocks (hs : s.Invariant) (hblocks : t.blocks = s.blocks)
    (hslots : t.mBlocks = s.mBlocks) (hgrows : t.mGrowCount = s.mGrowCount)
    (hbits : s.mBlockBitMap.bits ≤ t.mBlockBitMap.bits)
    (hused : ∀ k, t.mBlockBitMap.bit k = s.mBlockBitMap.bit k) : t.Invariant where
  slot_iff := by
    rw [hslots, place_of_blocks hblocks]
    exact hs.slot_iff
  file := by
    intro pb j hp
    rw [place_of_blocks hblocks] at hp
    rw [hused j]
    obtain ⟨hlt, hbit⟩ := hs.file pb j hp
    exact ⟨Nat.lt_of_lt_of_le hlt hbits, hbit⟩
  unshared := by
    rw [place_of_blocks hblocks]
    exact hs.unshared
  home := by
    rw [place_of_blocks hblocks, hslots, hblocks]
    exact hs.home
  flags := by
    rw [place_of_blocks hblocks, hblocks]
    exact hs.flags
  grows := by
    rw [hgrows]
    exact hs.grows
  low := by
    intro j hj
    rw [hused j] at hj
    exact hs.low j hj

/-! ## Calls that fail -/

/-- What a call that fails may change: pages only if the page file fails. -/
structure Fails (e : Env) (s t : RamManager) : Prop where
  blocks : t.blocks = s.blocks
  slots : t.mBlocks = s.mBlocks
  grows : t.mGrowCount = s.mGrowCount
  bits : s.mBlockBitMap.bits ≤ t.mBlockBitMap.bits
  used : ∀ k, t.mBlockBitMap.bit k = s.mBlockBitMap.bit k
  notes : t.invalidated = s.invalidated
  data : e.Clean → t.mRamData = s.mRamData ∧ t.storage = s.storage

theorem Fails.refl (e : Env) (s : RamManager) : Fails e s s :=
  ⟨rfl, rfl, rfl, Nat.le_refl _, fun _ => rfl, rfl, fun _ => ⟨rfl, rfl⟩⟩

theorem fails_prealloc (hs : s.Invariant) : Fails e s s.prealloc :=
  ⟨rfl, rfl, rfl, (bits_prealloc hs).1, bit_prealloc, rfl, fun _ => ⟨rfl, rfl⟩⟩

namespace Fails

theorem place (h : Fails e s t) : t.place = s.place := place_of_blocks h.blocks

theorem invariant (h : Fails e s t) (hs : s.Invariant) : t.Invariant :=
  hs.of_blocks h.blocks h.slots h.grows h.bits h.used

theorem content (h : Fails e s t) (he : e.Clean) : t.content = s.content := by
  obtain ⟨hram, hfile⟩ := h.data he
  funext q
  exact content_congr (congrFun h.place q) hram hfile

end Fails

end RamManager

open RamManager

/-! ## The exchange of pages -/

section Swap

variable {i j m c : Nat}

theorem not_clean_of_store (h : e.store ≠ .ok) : ¬ e.Clean := fun he => h he.2

theorem not_clean_of_load (h : e.load ≠ .ok) : ¬ e.Clean := fun he => h he.1

/-- A store that comes to nothing leaves the blocks, the slots and the bitmap. -/
theorem RamManager.Fails.stored {b : Buffer} (h : Fails e s t) (he : e.store ≠ .ok) :
    Fails e s (t.stored e.store j b) := by
  cases b <;>
    exact ⟨h.blocks, h.slots, h.grows, h.bits, h.used, h.notes,
      fun hc => absurd hc (not_clean_of_store he)⟩

theorem RamManager.Fails.loaded {b : Buffer} {p : Page} (h : Fails e s t) (he : e.load ≠ .ok) :
    Fails e s (t.setPage b p) := by
  cases b <;>
    exact ⟨h.blocks, h.slots, h.grows, h.bits, h.used, h.notes,
      fun hc => absurd hc (not_clean_of_load he)⟩

theorem RamManager.Fails.setTemp {p : Page} (h : Fails e s t) : Fails e s (t.setPage .temp p) :=
  ⟨h.blocks, h.slots, h.grows, h.bits, h.used, h.notes, h.data⟩

/-- The bitmap, the page file and the slots after the page of slot `i` is stored. -/
theorem mBlockBitMap_stowed (m : Nat) (p : Page) (h : j < s.mBlockBitMap.bits) :
    (s.stowed i j m p).mBlockBitMap = s.mBlockBitMap.setbit j true :=
  mBlockBitMap_marked (s := s.stored .ok j (.ram (i * 4096))) h

theorem filePage_stowed_self (m : Nat) (p : Page) : (s.stowed i j m p).filePage j = s.slotPage i :=
  filePage_stored_self (.ram (i * 4096)) j

theorem filePage_stowed_ne (m : Nat) (p : Page) {k : Nat} (hj : j < 2 ^ 51) (hk : k < 2 ^ 51)
    (h : k ≠ j) : (s.stowed i j m p).filePage k = s.filePage k :=
  filePage_stored_ne (.ram (i * 4096)) hj hk h

theorem slotPage_stowed_self (m : Nat) (p : Page) : (s.stowed i j m p).slotPage i = p :=
  slotPage_setPage_self (s := (s.stored .ok j (.ram (i * 4096))).marked j) p i

theorem slotPage_stowed_ne (m : Nat) (p : Page) {k : Nat} (h : k ≠ i) :
    (s.stowed i j m p).slotPage k = s.slotPage k :=
  (slotPage_setPage_ne (s := (s.stored .ok j (.ram (i * 4096))).marked j) p h).trans
    (slotPage_stored_ne .ok j h)

theorem evicts_stowed (hs : s.Invariant) (hm : s.mBlocks[i]? = some (some m))
    (hlt : uOffset s.nextPF < 2 ^ 63) (p : Page) :
    Evicts s { s.prealloc.stowed i s.nextPF m p with mBlocks := s.mBlocks.set i none } i m
      s.nextPF := by
  have hlow := lt_of_uOffset_lt (nextPF_le hs) hlt
  obtain ⟨hbits, hnext⟩ := bits_prealloc hs
  have hmap := mBlockBitMap_stowed (i := i) m p hnext
  exact
    { was := hm
      blocks := rfl
      slots := rfl
      grows := rfl
      took := by
        simp only [hmap]
        exact ⟨hnext, XBitMap.bit_setbit_self _ _ hnext⟩
      used := by
        intro k hk
        simp only [hmap]
        rw [XBitMap.bit_setbit_of_ne _ _ hnext hk, bit_prealloc]
      more := by
        simp only [hmap]
        exact hbits
      fresh := nextPF_lowest.1
      low := hlow
      filed := filePage_stowed_self m p
      files := fun k hk hne => filePage_stowed_ne m p hlow hk hne
      pages := fun k hk => slotPage_stowed_ne m p hk
      notes := rfl }

/-- A block comes from the page file to a free slot. -/
theorem puts_loadedIn (hv : s.mBlocks[i]? = some none) (hc : s.place c = some (.file j)) :
    Puts s (s.loadedIn i c) i c ((s.blocks c).swappedIn i) where
  was := hv
  apart := by
    intro k hk
    rw [hc] at hk
    simp at hk
  placed := RamBlock.place_swappedIn (RamBlock.place_eq_file.1 hc).1
  addr := rfl
  blocks := rfl
  slots := rfl
  grows := rfl
  bitmap := rfl
  files := fun _ => rfl
  pages := fun _ hk => slotPage_setPage_ne _ hk
  notes := rfl

theorem exchanges_exchanged (hs : s.Invariant) (hm : s.mBlocks[i]? = some (some m))
    (hc : s.place c = some (.file j)) : Exchanges s (s.exchanged i m c) i m c j := by
  have hj : (s.blocks c).swapid = j := (RamBlock.place_eq_file.1 hc).2.2
  subst hj
  obtain ⟨hlt, hbit⟩ := hs.file c _ hc
  have hlow := hs.low _ hbit
  have hmap : (s.exchanged i m c).mBlockBitMap = s.mBlockBitMap.setbit (s.blocks c).swapid true :=
    mBlockBitMap_stowed (s := s.setPage .temp (s.filePage (s.blocks c).swapid)) m
      (s.filePage (s.blocks c).swapid) hlt
  exact
    { was := hm
      at_file := hc
      blocks := rfl
      slots := rfl
      grows := rfl
      bits := by
        rw [hmap]
        rfl
      took := by
        rw [hmap]
        exact XBitMap.bit_setbit_self _ _ hlt
      used := by
        intro k hk
        rw [hmap]
        exact XBitMap.bit_setbit_of_ne _ _ hlt hk
      loaded := slotPage_stowed_self m (s.filePage (s.blocks c).swapid)
      filed := filePage_stowed_self m (s.filePage (s.blocks c).swapid)
      files := fun k hk hne => filePage_stowed_ne m (s.filePage (s.blocks c).swapid) hlow hk hne
      pages := fun k hk => slotPage_stowed_ne m (s.filePage (s.blocks c).swapid) hk
      notes := rfl }

end Swap

/-! ## What a call makes of a state -/

/-- Slot `i` is free, or it becomes so. -/
inductive MadeRoom (s : RamManager) : RamManager → Nat → Prop
  | free {i : Nat} (h : s.mBlocks[i]? = some none) : MadeRoom s s i
  | evict {u : RamManager} {i m j : Nat} (h : Evicts s u i m j)
      (hpage : u.slotPage i = fun _ => 0) : MadeRoom s u i

/-- Block `c` comes from the page file to slot `i`. -/
inductive Fetches (s : RamManager) : RamManager → Nat → Nat → Prop
  | load {t : RamManager} {i c j : Nat} (hc : s.place c = some (.file j))
      (h : Puts s t i c ((s.blocks c).swappedIn i)) (hpage : t.slotPage i = s.filePage j) :
      Fetches s t i c
  | exchange {t : RamManager} {i m c j : Nat} (h : Exchanges s t i m c j) : Fetches s t i c

/-- The page of block `pb` becomes `q`. -/
structure Rewrites (s t : RamManager) (pb : Nat) (q : Page) : Prop where
  blocks : t.blocks = s.blocks
  slots : t.mBlocks = s.mBlocks
  grows : t.mGrowCount = s.mGrowCount
  bitmap : t.mBlockBitMap = s.mBlockBitMap
  notes : t.invalidated = s.invalidated
  content : t.content = Function.update s.content pb (some q)

/-- The slot a swap-in of block `c` takes. -/
def RamManager.swapInSlot (s : RamManager) (e : Env) (c : Nat) : Option Nat :=
  if (s.blocks c).flags &&& BF_LOCKED ≠ 0#32 then some ((s.blocks c).addr / 4096)
  else s.findFreeOrSwappable e.rand

/-- What a successful call does, in every case. -/
inductive Effect (s : RamManager) (e : Env) : Call → List UInt8 → RamManager → Prop
  | alloc {pb i : Nat} {flags : BitVec 32} {u t : RamManager}
      (hfind : s.findFreeOrSwappable e.rand = some i) (hroom : MadeRoom s u i)
      (hput : Puts u t i pb ((u.blocks pb).allocated i flags))
      (hpage : t.slotPage i = u.slotPage i) : Effect s e (.alloc pb flags) [] t
  | freeUnused {pb : Nat} (h : s.place pb = none) : Effect s e (.free pb) [] s
  | free {pb : Nat} {t : RamManager} (h : Lifts s t pb (s.blocks pb).freed)
      (hplace : s.place pb ≠ none) : Effect s e (.free pb) [] t
  | alreadyOut {pb j : Nat} {bForce : Bool} (h : s.place pb = some (.file j)) :
      Effect s e (.swapOut pb bForce) [] s
  | swapOut {pb i j : Nat} {bForce : Bool} {t : RamManager} (h : Evicts s t i pb j) :
      Effect s e (.swapOut pb bForce) [] t
  | swapIn {pb i : Nat} {t : RamManager} (hslot : s.swapInSlot e pb = some i)
      (h : Fetches s t i pb) : Effect s e (.swapIn pb) [] t
  | resident {pb i : Nat} (h : s.place pb = some (.slot i)) : Effect s e (.ensure pb) [] s
  | ensure {pb i : Nat} {t : RamManager} (hfind : s.findFreeOrSwappable e.rand = some i)
      (h : Fetches s t i pb) : Effect s e (.ensure pb) [] t
  | access {pb i : Nat} (h : s.place pb = some (.slot i)) : Effect s e (.directAccess pb) [] s
  | accessFetched {pb i : Nat} {t : RamManager} (hslot : s.swapInSlot e pb = some i)
      (h : Fetches s t i pb) : Effect s e (.directAccess pb) [] t
  | write {pb off cb : Nat} {p : Nat → UInt8} {q : Page} {t : RamManager}
      (hq : s.content pb = some q) (h : Rewrites s t pb (overwrite q off p cb)) :
      Effect s e (.directWrite pb off p cb) [] t
  | read {pb off cb : Nat} {q : Page} {bytes : List UInt8} {t : RamManager}
      (hq : s.content pb = some q) (hbytes : IsSlice q off cb bytes) (h : Rewrites s t pb q) :
      Effect s e (.directRead pb off cb) bytes t

section Calls

variable {pb : Nat} {Q : Unit → RamManager → Prop} {E : HRESULT → RamManager → Prop}

theorem wp_makeRoom {i : Nat} (hs : s.Invariant) (hi : i < s.mBlocks.length)
    (hok : ∀ u, MadeRoom s u i → Q () u) (hE : ∀ t, Fails e s t → E .E_FAIL t) :
    wp (swapRamAndPageFile e i none) Q E s := by
  have hpre := fails_prealloc (e := e) hs
  apply wp_swap_none hi
  · exact fun hfree => hok s (.free hfree)
  · intro m hm _ hlt
    exact hok _ (.evict (evicts_stowed hs hm hlt fun _ => 0) (slotPage_stowed_self m fun _ => 0))
  · exact fun _ _ _ => hE s (Fails.refl e s)
  · exact fun _ => hE _ hpre
  · exact fun _ _ _ _ he => hE _ (hpre.stored he)

theorem wp_fetch {i c j : Nat} (hs : s.Invariant) (hi : i < s.mBlocks.length)
    (hc : s.place c = some (.file j)) (hok : ∀ t, Fetches s t i c → Q () t)
    (hE : ∀ t, Fails e s t → E .E_FAIL t) : wp (swapRamAndPageFile e i (some c)) Q E s := by
  have hrefl := Fails.refl e s
  have hmc : s.mBlocks[i]? ≠ some (some c) := by
    intro h
    rw [(hs.slot_iff i c).1 h] at hc
    simp at hc
  apply wp_swap_some hi hmc
  · intro hfree _
    have hj : (s.blocks c).swapid = j := (RamBlock.place_eq_file.1 hc).2.2
    have hpage := slotPage_setPage_self (s := s) (s.filePage j) i
    rw [← hj] at hpage hc
    exact hok _ (.load hc (puts_loadedIn hfree hc) hpage)
  · exact fun m hm _ _ _ => hok _ (.exchange (exchanges_exchanged hs hm hc))
  · exact fun _ _ _ => hE s hrefl
  · exact fun _ => hE s hrefl
  · exact fun he _ _ => hE _ (hrefl.loaded he)
  · exact fun _ => hE _ hrefl.setTemp
  · exact fun _ _ _ _ _ he => hE _ (hrefl.setTemp.stored he)

/-- A block that has no slot after slot `i` was freed gets that slot. -/
theorem puts_allocated {i : Nat} (flags : BitVec 32) (hi : t.mBlocks[i]? = some none)
    (hapart : ∀ k, t.place pb ≠ some (.slot k)) :
    Puts t { t with
      blocks := Function.update t.blocks pb ((t.blocks pb).allocated i flags)
      mBlocks := t.mBlocks.set i (some pb) } i pb ((t.blocks pb).allocated i flags) where
  was := hi
  apart := hapart
  placed := RamBlock.place_allocated
  addr := rfl
  blocks := rfl
  slots := rfl
  grows := rfl
  bitmap := rfl
  files := fun _ => rfl
  pages := fun _ _ => rfl
  notes := rfl

theorem MadeRoom.invariant {u : RamManager} {i : Nat} (h : MadeRoom s u i) (hs : s.Invariant) :
    u.Invariant := by
  cases h with
  | free _ => exact hs
  | evict hev _ => exact hev.invariant hs

theorem MadeRoom.content {u : RamManager} {i : Nat} (h : MadeRoom s u i) (hs : s.Invariant) :
    u.content = s.content := by
  cases h with
  | free _ => rfl
  | evict hev _ => exact hev.content hs

theorem MadeRoom.slots {u : RamManager} {i : Nat} (h : MadeRoom s u i) :
    u.mBlocks[i]? = some none ∧ u.mBlocks = s.mBlocks.set i none := by
  cases h with
  | free hfree =>
      obtain ⟨hlt, hget⟩ := List.getElem?_eq_some_iff.1 hfree
      have hset := List.set_getElem_self hlt
      rw [hget] at hset
      exact ⟨hfree, hset.symm⟩
  | evict hev _ =>
      have hlt := (List.getElem?_eq_some_iff.1 hev.was).1
      exact ⟨by simp [hev.slots, hlt], hev.slots⟩

/-- The room that is made does not place a block that had no page. -/
theorem MadeRoom.place_none {u : RamManager} {i : Nat} (h : MadeRoom s u i) (hs : s.Invariant)
    (hpb : s.place pb = none) : u.place pb = none := by
  cases h with
  | free _ => exact hpb
  | @evict _ _ m _ hev _ =>
      have hm := (hs.slot_iff i m).1 hev.was
      have hne : pb ≠ m := by
        rintro rfl
        simp [hpb] at hm
      rw [hev.place_ne hne, hpb]

/-- A block whose own slot is the only one it may have has none after the slot was freed. -/
theorem MadeRoom.apart {u : RamManager} {i : Nat} {flags : BitVec 32} (h : MadeRoom s u i)
    (hs : s.Invariant) (hfind : s.findFreeOrSwappable e.rand = some i)
    (hsafe : Call.Safe s e (.alloc pb flags)) (k : Nat) : u.place pb ≠ some (.slot k) := by
  intro hk
  have hslot := ((h.invariant hs).slot_iff k pb).2 hk
  rw [h.slots.2, List.getElem?_set] at hslot
  by_cases hik : i = k
  · simp [hik] at hslot
  · rw [if_neg hik] at hslot
    have hplace := (hs.slot_iff k pb).1 hslot
    obtain ⟨hv, hns, -⟩ := RamBlock.place_eq_slot.1 hplace
    have hat := hsafe hv (fun h => h hns) i hfind
    rw [(hs.slot_iff i pb).1 hat] at hplace
    exact hik (by simpa using hplace)

theorem wp_ramAllocAddress {flags : BitVec 32} (hs : s.Invariant)
    (hsafe : Call.Safe s e (.alloc pb flags)) (hok : ∀ t, Effect s e (.alloc pb flags) [] t → Q () t)
    (hE : ∀ t, Fails e s t → E .E_FAIL t) : wp (ramAllocAddress e pb flags) Q E s := by
  unfold ramAllocAddress
  rw [wp_bind]
  apply wp_find
  · intro i hi hfind
    rw [wp_bind]
    apply wp_makeRoom hs hi
    · intro u hroom
      have hput := puts_allocated flags hroom.slots.1 (hroom.apart hs hfind hsafe)
      have hlen : i < u.mBlocks.length := by rwa [hroom.slots.2, List.length_set]
      simp only [wp_bind, wp_modifyBlock, wp_setSlot]
      exact ⟨hlen, hok _ (.alloc hfind hroom hput rfl)⟩
    · exact hE
  · exact fun _ => hE s (Fails.refl e s)

theorem wp_ramFreeAddress (hs : s.Invariant) (hok : ∀ t, Effect s e (.free pb) [] t → Q () t) :
    wp (ramFreeAddress pb) Q E s := by
  unfold ramFreeAddress
  rw [wp_bind, wp_blockAt, wp_ite]
  constructor
  · intro hzero
    apply hok s
    apply Effect.freeUnused
    apply RamBlock.place_eq_none.2
    rw [hzero]
    exact BitVec.zero_and
  · intro hne
    have hplace := hs.flags pb hne
    have hv : (s.blocks pb).flags &&& BF_VALID ≠ 0#32 := fun h => hplace (RamBlock.place_eq_none.2 h)
    rw [wp_ite]
    constructor
    · intro hswap
      have hfile : s.place pb = some (.file (s.blocks pb).swapid) :=
        RamBlock.place_eq_file.2 ⟨hv, hswap, rfl⟩
      have hlt := (hs.file pb _ hfile).1
      unfold pageFileMarkUsed markSwapBlockUsed
      simp only [wp_bind, wp_get, wp_ite, Nat.not_le.2 hlt, false_implies, not_false_eq_true,
        true_implies, true_and, wp_modify, wp_modifyBlock]
      exact hok _ (.free (lifts_file hs hfile) hplace)
    · intro hres
      have hslot : s.place pb = some (.slot ((s.blocks pb).addr / 4096)) :=
        RamBlock.place_eq_slot.2 ⟨hv, not_not.1 hres, rfl⟩
      simp only [onBlockInvalid, wp_bind, wp_modify, wp_setSlot, wp_modifyBlock]
      exact ⟨(hs.addr_lt hslot).1, hok _ (.free (lifts_slot hslot) hplace)⟩

/-- A swap-out leaves the page in the slot as it was coded. -/
theorem putOut_eq (i m : Nat) : s.putOut i m =
    { (s.prealloc.stored .ok s.nextPF (.ram (i * 4096))).marked s.nextPF with
      invalidated := s.note m ++ s.invalidated
      blocks := Function.update s.blocks m ((s.blocks m).swappedOut s.nextPF)
      mBlocks := s.mBlocks.set i none } := by
  have hpage : s.prealloc.page (.ram (i * 4096)) = s.slotPage i := rfl
  have hblocks : s.prealloc.blocks = s.blocks := rfl
  have hnote : s.prealloc.note m ++ s.prealloc.invalidated = s.note m ++ s.invalidated := rfl
  simp [putOut, stowed, marked, stored, setPage, hpage, hblocks, hnote, blit_blit]

theorem wp_ramSwapOut {bForce : Bool} (hs : s.Invariant) (hv : s.Valid pb)
    (hok : ∀ t, Effect s e (.swapOut pb bForce) [] t → Q () t)
    (hE : ∀ t, Fails e s t → E .E_FAIL t) : wp (ramSwapOut e pb bForce) Q E s := by
  unfold ramSwapOut
  rw [wp_bind, wp_blockAt, wp_ite]
  constructor
  · exact fun hswap => hok s (.alreadyOut (RamBlock.place_eq_file.2 ⟨hv, hswap, rfl⟩))
  · intro hres
    rw [wp_ite]
    constructor
    · exact fun _ => hE s (Fails.refl e s)
    · intro _
      obtain ⟨i, hslot⟩ : ∃ i, s.place pb = some (.slot i) :=
        ⟨_, RamBlock.place_eq_slot.2 ⟨hv, not_not.1 hres, rfl⟩⟩
      obtain ⟨hi, haddr⟩ := hs.addr_lt hslot
      have hm := (hs.slot_iff i pb).2 hslot
      have hpre := fails_prealloc (e := e) hs
      have hdiv : i * 4096 / VM_PAGE_SIZE = i := Nat.mul_div_cancel i (by decide)
      simp only [wp_bind, wp_pageFilePreAlloc, haddr, getRamBuffer, hdiv]
      apply wp_storeToStorage (s := s.prealloc) (holds_slot hi)
      · intro _ hlt
        have hev : Evicts s (s.putOut i pb) i pb s.nextPF :=
          evicts_stowed hs hm hlt (codeBlockPage (s.slotPage i))
        rw [putOut_eq] at hev
        simp only [wp_mark, onBlockInvalid, wp_modify, wp_modifyBlock, wp_setSlot]
        exact ⟨hi, hok _ (.swapOut hev)⟩
      · exact fun _ => hE _ hpre
      · exact fun _ he => hE _ (hpre.stored he)

/-- A block that is swapped out is at a page of the page file. -/
theorem place_of_swapped (hs : s.Invariant) (hswap : (s.blocks pb).flags &&& BF_SWAPPED ≠ 0#32) :
    s.place pb = some (.file (s.blocks pb).swapid) := by
  have hne : (s.blocks pb).flags ≠ 0#32 := by
    intro h0
    rw [h0] at hswap
    exact hswap BitVec.zero_and
  have hplace := hs.flags pb hne
  exact RamBlock.place_eq_file.2 ⟨fun h => hplace (RamBlock.place_eq_none.2 h), hswap, rfl⟩

theorem place_of_resident (hs : s.Invariant) (hne : (s.blocks pb).flags ≠ 0#32)
    (hres : (s.blocks pb).flags &&& BF_SWAPPED = 0#32) :
    s.place pb = some (.slot ((s.blocks pb).addr / 4096)) := by
  have hplace := hs.flags pb hne
  exact RamBlock.place_eq_slot.2 ⟨fun h => hplace (RamBlock.place_eq_none.2 h), hres, rfl⟩

theorem wp_ramSwapIn (hs : s.Invariant)
    (hok : ∀ t i, s.swapInSlot e pb = some i → Fetches s t i pb → Q () t)
    (hE : ∀ t, Fails e s t → E .E_FAIL t) : wp (ramSwapIn e pb) Q E s := by
  have hfail := hE s (Fails.refl e s)
  unfold ramSwapIn
  rw [wp_bind, wp_blockAt, wp_ite]
  constructor
  · exact fun _ => hfail
  · intro hswap
    have hfile := place_of_swapped hs hswap
    simp only [wp_ite, wp_bind, wp_pure]
    constructor
    · intro hlock
      obtain ⟨i, hi, haddr⟩ := hs.home pb (by rw [hfile]; simp)
      have hdiv : (s.blocks pb).addr / 4096 = i := by rw [haddr, Nat.mul_div_cancel i (by decide)]
      have hidx : (s.blocks pb).addr >>> VM_PAGE_SHIFT = i := by
        rw [Nat.shiftRight_eq_div_pow]
        exact hdiv
      rw [hidx]
      apply wp_fetch hs hi hfile
      · exact fun t ht => hok t i (by simp [swapInSlot, hlock, hdiv]) ht
      · exact hE
    · intro hunlocked
      apply wp_find
      · intro i hi hfind
        apply wp_fetch hs hi hfile
        · exact fun t ht => hok t i (by simp [swapInSlot, not_not.1 hunlocked, hfind]) ht
        · exact hE
      · exact fun _ => hfail

theorem wp_ensureRamBlock (hs : s.Invariant) (hok : ∀ t, Effect s e (.ensure pb) [] t → Q () t)
    (hE : ∀ r t, Fails e s t → E r t) : wp (ensureRamBlock e pb) Q E s := by
  have hrefl := Fails.refl e s
  unfold ensureRamBlock
  simp only [wp_bind, wp_blockAt, wp_ite]
  constructor
  · exact fun _ => hE _ s hrefl
  · intro hne
    constructor
    · exact fun hres => hok s (.resident (place_of_resident hs hne hres))
    · intro hswap
      apply wp_find
      · intro i hi hfind
        apply wp_fetch hs hi (place_of_swapped hs hswap)
        · exact fun t ht => hok t (.ensure hfind ht)
        · exact hE _
      · exact fun _ => hE _ s hrefl

/-! ### Access to the bytes -/

/-- Access through the temporary page: the page of a block in a slot, or a copy. -/
theorem wp_ramDirectAccess_temp (hs : s.Invariant) {Q : Buffer → RamManager → Prop}
    (hram : ∀ i, i < s.mBlocks.length → s.place pb = some (.slot i) → Q (.ram (i * 4096)) s)
    (htemp : ∀ j, s.place pb = some (.file j) → Q .temp (s.setPage .temp (s.filePage j)))
    (hE : ∀ r t, Fails e s t → (e.Clean → s.content pb = none) → E r t) :
    wp (ramDirectAccess e pb (some .temp)) Q E s := by
  have hrefl := Fails.refl e s
  unfold ramDirectAccess
  simp only [wp_bind, wp_blockAt, wp_ite, wp_pure]
  constructor
  · intro hzero
    have hplace : s.place pb = none := by
      apply RamBlock.place_eq_none.2
      rw [hzero]
      exact BitVec.zero_and
    exact hE _ s hrefl fun _ => by simp [content, hplace]
  · intro hne
    constructor
    · intro hswap
      have hfile := place_of_swapped hs hswap
      have hlow := hs.low _ (hs.file pb _ hfile).2
      have hseeks : ¬ seeks e.load (uOffset (s.blocks pb).swapid) = true → ¬ e.Clean := by
        intro hns hclean
        rw [hclean.1] at hns
        exact hns (seeks_ok hlow)
      apply wp_loadFromStorage (b := .temp) trivial
      · exact fun _ _ => htemp _ hfile
      · exact fun hns => hE _ s hrefl fun hclean => absurd hclean (hseeks hns)
      · exact fun he => hE _ _ (hrefl.loaded he) fun hclean => absurd hclean.1 he
    · intro hres
      have hslot := place_of_resident hs hne (not_not.1 hres)
      obtain ⟨hi, haddr⟩ := hs.addr_lt hslot
      have hram' := hram _ hi hslot
      rw [← haddr] at hram'
      exact hram'

theorem wp_ramDirectAccess_none (hs : s.Invariant) {Q : Buffer → RamManager → Prop}
    (hok : ∀ b t, Effect s e (.directAccess pb) [] t → Q b t)
    (hE : ∀ r t, Fails e s t → E r t) : wp (ramDirectAccess e pb none) Q E s := by
  unfold ramDirectAccess
  simp only [wp_bind, wp_blockAt, wp_ite, wp_pure]
  constructor
  · exact fun _ => hE _ s (Fails.refl e s)
  · intro hne
    constructor
    · intro _
      apply wp_ramSwapIn hs
      · exact fun t i hslot ht => hok _ t (.accessFetched hslot ht)
      · exact hE _
    · exact fun hres => hok _ s (.access (place_of_resident hs hne (not_not.1 hres)))

/-- The size test of a read and a write passes in a page. -/
theorem sizeTest (t : Target) {off cb : Nat} (h : off + cb ≤ 4096) :
    ¬ (off + cb) % 2 ^ t.sizeBits > VM_PAGE_SIZE := by
  have hlt : off + cb < 2 ^ t.sizeBits := by
    cases t <;> exact Nat.lt_of_le_of_lt h (by decide)
  rw [Nat.mod_eq_of_lt hlt]
  exact Nat.not_lt.2 h

theorem wp_copyFrom {b : Buffer} {off cb : Nat} (hb : s.Holds b) (h : off + cb ≤ 4096)
    {Q : List UInt8 → RamManager → Prop} (hok : ∀ bytes, IsSlice (s.page b) off cb bytes → Q bytes s) :
    wp (copyFrom b off cb) Q E s := by
  unfold copyFrom
  simp only [wp_bind, wp_readPage, h, dite_true, wp_pure]
  apply And.intro hb
  apply hok
  constructor
  · simp
  · intro k hk hkc
    simp [hkc]

theorem content_slot {i : Nat} (h : s.place pb = some (.slot i)) :
    s.content pb = some (s.slotPage i) := by
  simp [content, h, pageAt]

theorem content_file {j : Nat} (h : s.place pb = some (.file j)) :
    s.content pb = some (s.filePage j) := by
  simp [content, h, pageAt]

/-- A read leaves every page, in the temporary page at most. -/
theorem rewrites_setTemp {q : Page} (hq : s.content pb = some q) (p : Page) :
    Rewrites s (s.setPage .temp p) pb q where
  blocks := rfl
  slots := rfl
  grows := rfl
  bitmap := rfl
  notes := rfl
  content := by
    rw [← hq, Function.update_eq_self]
    rfl

theorem wp_ramDirectRead (t : Target) {off cb : Nat} (hs : s.Invariant) (h : off + cb ≤ 4096)
    {Q : List UInt8 → RamManager → Prop}
    (hok : ∀ u bytes, Effect s e (.directRead pb off cb) bytes u → Q bytes u)
    (hE : ∀ r u, Fails e s u → (e.Clean → s.content pb = none) → E r u) :
    wp (ramDirectRead t e pb off cb) Q E s := by
  unfold ramDirectRead
  rw [wp_ite]
  refine ⟨fun hbig => absurd hbig (sizeTest t h), fun _ => ?_⟩
  rw [wp_bind]
  apply wp_ramDirectAccess_temp hs
  · intro i hi hslot
    have hq := content_slot hslot
    apply wp_copyFrom (holds_slot hi) h
    intro bytes hbytes
    apply hok
    exact .read hq hbytes
      ⟨rfl, rfl, rfl, rfl, rfl, by rw [← hq, Function.update_eq_self]⟩
  · intro j hfile
    have hq := content_file hfile
    apply wp_copyFrom (b := .temp) trivial h
    exact fun bytes hbytes => hok _ bytes (.read hq hbytes (rewrites_setTemp hq _))
  · exact hE

theorem wp_copyInto {b : Buffer} {off cb : Nat} {p : Nat → UInt8} (hb : s.Holds b)
    (h : off + cb ≤ 4096) (hok : Q () (s.setPage b (overwrite (s.page b) off p cb))) :
    wp (copyInto b off p cb) Q E s := by
  have hle : off + cb ≤ VM_PAGE_SIZE := h
  unfold copyInto
  simp only [wp_bind, wp_readPage, hle, if_true, wp_writePage]
  exact ⟨hb, hb, hok⟩

/-- The page of a block in a slot, overwritten in the slot. -/
theorem rewrites_setPage {i : Nat} (hs : s.Invariant) (hp : s.place pb = some (.slot i)) (q : Page) :
    Rewrites s (s.setPage (.ram (i * 4096)) q) pb q := by
  refine ⟨rfl, rfl, rfl, rfl, rfl, ?_⟩
  funext r
  by_cases hr : r = pb
  · have hplace : (s.setPage (.ram (i * 4096)) q).place pb = some (.slot i) := hp
    rw [hr, Function.update_self, content_slot hplace, slotPage_setPage_self]
  · rw [Function.update_of_ne hr]
    have hplace : (s.setPage (.ram (i * 4096)) q).place r = s.place r := rfl
    unfold content
    rw [hplace]
    cases hr' : s.place r with
    | none => rfl
    | some x =>
        cases x with
        | slot k =>
            have hk : k ≠ i := by
              rintro rfl
              exact hr (hs.slot_unique hr' hp)
            simp [pageAt, slotPage_setPage_ne q hk]
        | file k => rfl

/-- The page of a block in the page file, stored anew from the temporary page. -/
theorem rewrites_stored {j : Nat} (hs : s.Invariant) (hp : s.place pb = some (.file j)) (q : Page) :
    Rewrites s ((s.setPage .temp q).stored .ok j .temp) pb q := by
  refine ⟨rfl, rfl, rfl, rfl, rfl, ?_⟩
  have hj := hs.low j (hs.file pb j hp).2
  funext r
  by_cases hr : r = pb
  · have hplace : ((s.setPage .temp q).stored .ok j .temp).place pb = some (.file j) := hp
    rw [hr, Function.update_self, content_file hplace]
    exact congrArg some (filePage_stored_self (s := s.setPage .temp q) .temp j)
  · rw [Function.update_of_ne hr]
    have hplace : ((s.setPage .temp q).stored .ok j .temp).place r = s.place r := rfl
    unfold content
    rw [hplace]
    cases hr' : s.place r with
    | none => rfl
    | some x =>
        cases x with
        | slot k => rfl
        | file k =>
            have hk : k ≠ j := by
              rintro rfl
              exact hr (hs.unshared r pb k hr' hp)
            have hlow := hs.low k (hs.file r k hr').2
            exact congrArg some (filePage_stored_ne (s := s.setPage .temp q) .temp hj hlow hk)

theorem wp_ramDirectWrite (t : Target) {off cb : Nat} {p : Nat → UInt8} (hs : s.Invariant)
    (h : off + cb ≤ 4096) (hok : ∀ u, Effect s e (.directWrite pb off p cb) [] u → Q () u)
    (hE : ∀ r u, Fails e s u → (e.Clean → s.content pb = none) → E r u) :
    wp (ramDirectWrite t e pb off p cb) Q E s := by
  unfold ramDirectWrite
  rw [wp_ite]
  refine ⟨fun hbig => absurd hbig (sizeTest t h), fun _ => ?_⟩
  rw [wp_bind]
  apply wp_ramDirectAccess_temp hs
  · intro i hi hslot
    have hres : (s.blocks pb).flags &&& BF_SWAPPED = 0#32 := (RamBlock.place_eq_slot.1 hslot).2.1
    have hwrite := rewrites_setPage hs hslot (overwrite (s.slotPage i) off p cb)
    rw [wp_bind]
    apply wp_copyInto (holds_slot hi) h
    simp only [wp_bind, wp_blockAt, wp_ite, wp_pure]
    exact ⟨fun _ => hok _ (.write (content_slot hslot) hwrite), fun hne => absurd hres hne⟩
  · intro j hfile
    obtain ⟨-, hswap, hj⟩ := RamBlock.place_eq_file.1 hfile
    have hlow := hs.low _ (hs.file pb _ hfile).2
    rw [wp_bind]
    apply wp_copyInto (b := .temp) trivial h
    simp only [wp_bind, wp_blockAt, wp_ite, wp_pure]
    refine ⟨fun h0 => absurd h0 hswap, fun _ => ?_⟩
    have hfails := (Fails.refl e s).setTemp (p := overwrite (s.filePage j) off p cb)
    have hj' : ((s.setPage .temp (overwrite (s.filePage j) off p cb)).blocks pb).swapid = j := hj
    have htwice : (s.setPage .temp (s.filePage j)).setPage .temp
        (overwrite ((s.setPage .temp (s.filePage j)).page .temp) off p cb) =
        s.setPage .temp (overwrite (s.filePage j) off p cb) := rfl
    rw [htwice, hj']
    apply wp_storeToStorage (b := .temp) trivial
    · intro _ _
      have hwrite := rewrites_stored hs hfile (overwrite (s.filePage j) off p cb)
      exact hok _ (.write (content_file hfile) hwrite)
    · intro hns
      apply hE _ _ hfails
      intro hclean
      rw [hclean.2] at hns
      exact absurd (seeks_ok hlow) hns
    · exact fun _ he => hE _ _ (hfails.stored he) fun hclean => absurd hclean.2 he
  · exact hE

end Calls

/-- A call does what `Effect` says, or it fails and only spoils pages if the page file
failed. -/
theorem wp_exec (t : Target) (c : Call) (hs : s.Invariant) (hin : c.InPage) (hsafe : c.Safe s e) :
    wp (exec t e c) (fun bytes u => Effect s e c bytes u)
      (fun _ u => Fails e s u ∧ (e.Clean → ∀ pb, c.accesses = some pb → s.content pb = none)) s := by
  cases c with
  | alloc pb initFlags =>
      unfold exec
      rw [wp_bind]
      apply wp_ramAllocAddress hs hsafe
      · exact fun u hu => hu
      · exact fun u hu => ⟨hu, fun _ _ h => by simp [Call.accesses] at h⟩
  | free pb =>
      unfold exec
      rw [wp_bind]
      exact wp_ramFreeAddress hs fun u hu => hu
  | swapOut pb bForce =>
      unfold exec
      rw [wp_bind]
      apply wp_ramSwapOut hs hsafe
      · exact fun u hu => hu
      · exact fun u hu => ⟨hu, fun _ _ h => by simp [Call.accesses] at h⟩
  | swapIn pb =>
      unfold exec
      rw [wp_bind]
      apply wp_ramSwapIn hs
      · exact fun u i hslot hu => .swapIn hslot hu
      · exact fun u hu => ⟨hu, fun _ _ h => by simp [Call.accesses] at h⟩
  | ensure pb =>
      unfold exec
      rw [wp_bind]
      apply wp_ensureRamBlock hs
      · exact fun u hu => hu
      · exact fun _ u hu => ⟨hu, fun _ _ h => by simp [Call.accesses] at h⟩
  | directAccess pb =>
      unfold exec
      rw [wp_bind]
      apply wp_ramDirectAccess_none hs
      · exact fun _ u hu => hu
      · exact fun _ u hu => ⟨hu, fun _ _ h => by simp [Call.accesses] at h⟩
  | directWrite pb off p cb =>
      unfold exec
      rw [wp_bind]
      apply wp_ramDirectWrite t hs hin
      · exact fun u hu => hu
      · intro _ u hu hnone
        refine ⟨hu, fun he pb' h => ?_⟩
        obtain rfl : pb = pb' := by simpa [Call.accesses] using h
        exact hnone he
  | directRead pb off cb =>
      unfold exec
      apply wp_ramDirectRead t hs hin
      · exact fun u bytes hu => hu
      · intro _ u hu hnone
        refine ⟨hu, fun he pb' h => ?_⟩
        obtain rfl : pb = pb' := by simpa [Call.accesses] using h
        exact hnone he

/-! ## What every effect keeps -/

theorem Fetches.invariant {i c : Nat} (h : Fetches s t i c) (hs : s.Invariant) : t.Invariant := by
  cases h with
  | load _ hput _ => exact hput.invariant hs
  | exchange hex => exact hex.invariant hs

theorem Fetches.content {i c : Nat} (h : Fetches s t i c) (hs : s.Invariant) :
    t.content = s.content := by
  cases h with
  | load hc hput hpage => exact hput.content_of_loaded hs hc hpage
  | exchange hex => exact hex.content hs

theorem Fetches.place_self {i c : Nat} (h : Fetches s t i c) (hs : s.Invariant) :
    t.place c = some (.slot i) := by
  cases h with
  | load _ hput _ => exact hput.place_self
  | exchange hex => exact (hex.puts hs).place_self

theorem Fetches.swapped {i c : Nat} (h : Fetches s t i c) : s.IsSwapped c := by
  cases h with
  | load hc _ _ => exact (RamBlock.place_eq_file.1 hc).2.1
  | exchange hex => exact (RamBlock.place_eq_file.1 hex.at_file).2.1

/-- A block after a fetch: it was brought in, it gave its slot up, or it is as it was. -/
theorem Fetches.block {i c : Nat} (h : Fetches s t i c) (q : Nat) :
    (q = c ∧ t.blocks q = (s.blocks q).swappedIn i) ∨
    (s.mBlocks[i]? = some (some q) ∧ ∃ j, t.blocks q = (s.blocks q).swappedOut j) ∨
    t.blocks q = s.blocks q := by
  by_cases hq : q = c
  · left
    cases h with
    | load _ hput _ => exact ⟨hq, by rw [hput.blocks, hq, Function.update_self]⟩
    | exchange hex => exact ⟨hq, by rw [hex.blocks, hq, Function.update_self]⟩
  · right
    cases h with
    | load _ hput _ => exact .inr (by rw [hput.blocks, Function.update_of_ne hq])
    | exchange hex =>
        rename_i m j
        by_cases hqm : q = m
        · left
          refine ⟨by rw [hqm, hex.was], j, ?_⟩
          rw [hex.blocks, Function.update_of_ne hq, hqm, Function.update_self]
        · right
          rw [hex.blocks, Function.update_of_ne hq, Function.update_of_ne hqm]

theorem Fetches.length {i c : Nat} (h : Fetches s t i c) : t.mBlocks.length = s.mBlocks.length := by
  cases h with
  | load _ hput _ => rw [hput.slots, List.length_set]
  | exchange hex => rw [hex.slots, List.length_set]

theorem Rewrites.place {pb : Nat} {q : Page} (h : Rewrites s t pb q) : t.place = s.place :=
  place_of_blocks h.blocks

theorem Rewrites.invariant {pb : Nat} {q : Page} (h : Rewrites s t pb q) (hs : s.Invariant) :
    t.Invariant :=
  hs.of_blocks h.blocks h.slots h.grows (h.bitmap ▸ Nat.le_refl _) fun k => by rw [h.bitmap]

theorem Effect.invariant {c : Call} {bytes : List UInt8} (h : Effect s e c bytes t)
    (hs : s.Invariant) : t.Invariant := by
  cases h with
  | alloc _ hroom hput _ => exact hput.invariant (hroom.invariant hs)
  | freeUnused _ => exact hs
  | free hlift _ => exact hlift.invariant hs
  | alreadyOut _ => exact hs
  | swapOut hev => exact hev.invariant hs
  | swapIn _ hfetch => exact hfetch.invariant hs
  | resident _ => exact hs
  | ensure _ hfetch => exact hfetch.invariant hs
  | access _ => exact hs
  | accessFetched _ hfetch => exact hfetch.invariant hs
  | write _ hwrite => exact hwrite.invariant hs
  | read _ _ hread => exact hread.invariant hs

/-- An effect does to the pages what `Store.Step` says. -/
theorem Effect.refines {c : Call} {bytes : List UInt8} (h : Effect s e c bytes t) (hs : s.Invariant) :
    Store.Step s.content c bytes t.content := by
  cases h with
  | alloc _ hroom hput _ =>
      rw [hput.content (hroom.invariant hs), hroom.content hs]
      exact .alloc _ _ _
  | @freeUnused pb hplace =>
      have hnone : s.content pb = none := by simp [content, hplace]
      have hstep := Store.Step.free (σ := s.content) pb
      rwa [← hnone, Function.update_eq_self] at hstep
  | free hlift _ =>
      rw [hlift.content]
      exact .free _
  | alreadyOut _ => exact .swapOut _ _
  | swapOut hev =>
      rw [hev.content hs]
      exact .swapOut _ _
  | swapIn _ hfetch =>
      rw [hfetch.content hs]
      exact .swapIn _
  | resident _ => exact .ensure _
  | ensure _ hfetch =>
      rw [hfetch.content hs]
      exact .ensure _
  | access _ => exact .directAccess _
  | accessFetched _ hfetch =>
      rw [hfetch.content hs]
      exact .directAccess _
  | write hq hwrite =>
      rw [hwrite.content]
      exact .directWrite _ _ _ _ _ hq
  | read hq hbytes hread =>
      rw [hread.content, ← hq, Function.update_eq_self]
      exact .directRead _ _ _ _ _ hq hbytes

end Vin64.Vram
