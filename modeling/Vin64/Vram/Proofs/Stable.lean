import Vin64.Vram.Proofs.Partial

/-!
# What every call keeps

`Create` fixes the number of slots and the number of pages the page file grows by, and a
block that is put into the RAM gets the address of a slot.
-/

namespace Vin64.Vram

open Vin64.Lib Vin64.Lib.Op Vin64.Utils RamManager

variable {s t : RamManager} {P : RamManager → Prop}

namespace RamManager

/-- The number of slots, and of the pages that the page file grows by. -/
def sizes (s : RamManager) : Nat × Nat := (s.mBlocks.length, s.mGrowCount)

def withBlock (s : RamManager) (pb : Nat) (b : RamBlock) : RamManager :=
  { s with blocks := Function.update s.blocks pb b }

/-- The address of a block in use that is not swapped out lies in the RAM. -/
def Housed (s : RamManager) : Prop :=
  ∀ pb, (s.blocks pb).flags ≠ 0#32 → ¬ s.IsSwapped pb → s.Holds (.ram (s.blocks pb).addr)

end RamManager

/-- A property of the blocks and the sizes that is kept when a block leaves the RAM and when
it is put into a slot. -/
structure Stable (P : RamManager → Prop) : Prop where
  frame : ∀ {s t : RamManager}, t.blocks = s.blocks → t.sizes = s.sizes → P s → P t
  dropped : ∀ {s : RamManager} {pb : Nat} {b : RamBlock},
    b.flags = 0#32 ∨ b.flags &&& BF_SWAPPED ≠ 0#32 → P s → P (s.withBlock pb b)
  placed : ∀ {s : RamManager} {pb i : Nat} {b : RamBlock}, i < s.mBlocks.length →
    b.addr ≤ i * 4096 → P s → P (s.withBlock pb b)

theorem stable_sizes (n : Nat × Nat) : Stable fun s => s.sizes = n where
  frame := fun _ hsizes h => hsizes.trans h
  dropped := fun _ h => h
  placed := fun _ _ h => h

theorem housed_withBlock {pb : Nat} {b : RamBlock} (hs : s.Housed)
    (hb : b.flags ≠ 0#32 → b.flags &&& BF_SWAPPED = 0#32 → s.Holds (.ram b.addr)) :
    (s.withBlock pb b).Housed := by
  intro q
  by_cases hq : q = pb
  · subst hq
    have hself : (s.withBlock q b).blocks q = b := by simp [withBlock]
    unfold IsSwapped
    rw [hself]
    exact fun hflags hswap => hb hflags (Classical.not_not.1 hswap)
  · have hother : (s.withBlock pb b).blocks q = s.blocks q := by simp [withBlock, hq]
    unfold IsSwapped
    rw [hother]
    exact hs q

theorem stable_housed : Stable Housed where
  frame := by
    intro s t hblocks hsizes h pb
    have hlen : t.mBlocks.length = s.mBlocks.length := congrArg Prod.fst hsizes
    unfold IsSwapped Holds ramSize
    rw [hblocks, hlen]
    exact h pb
  dropped := by
    intro s pb b hb h
    apply housed_withBlock h
    intro hflags hswap
    rcases hb with hzero | hout
    · exact absurd hzero hflags
    · exact absurd hswap hout
  placed := by
    intro s pb i b hi haddr h
    apply housed_withBlock h
    intro _ _
    have hslot : i * 4096 + VM_PAGE_SIZE ≤ s.ramSize := holds_slot hi
    show b.addr + VM_PAGE_SIZE ≤ s.ramSize
    omega

/-! ## The parts of a call -/

/-- The operation leaves the blocks and the sizes. -/
def Frames {α : Type} (x : Ram α) : Prop :=
  ∀ v, Preserves (fun s => (s.blocks, s.sizes) = v) x

theorem Stable.of_frames {α : Type} {x : Ram α} (hP : Stable P) (h : Frames x) :
    Preserves P x := by
  intro s hs
  have hkept : ∀ t : RamManager, (t.blocks, t.sizes) = (s.blocks, s.sizes) → P t := by
    intro t ht
    obtain ⟨hblocks, hsizes⟩ := Prod.mk.inj ht
    exact hP.frame hblocks hsizes hs
  exact wlp_mono (h _ s rfl) (fun _ t ht => hkept t ht) fun _ t ht => hkept t ht

theorem frames_blockAt (pb : Nat) : Frames (blockAt pb) :=
  fun _ => Preserves.get.bind fun _ => .pure _

theorem frames_onBlockInvalid (pb : Nat) : Frames (onBlockInvalid pb) :=
  fun _ => .modify fun _ h => h

theorem frames_slotAt (i : Nat) : Frames (slotAt i) := by
  intro v
  apply Preserves.get.bind
  intro s
  cases s.mBlocks[i]? with
  | none => exact .fault
  | some v => exact .pure v

theorem frames_setSlot (i : Nat) (v : Option Nat) : Frames (setSlot i v) := by
  intro w
  apply Preserves.get.bind
  intro s
  apply Preserves.ite _ .fault
  apply Preserves.modify
  intro s hs
  unfold sizes at hs ⊢
  rwa [List.length_set]

theorem frames_readPage (b : Buffer) : Frames (readPage b) :=
  fun _ => Preserves.get.bind fun _ => .ite (.pure _) .fault

theorem frames_writePage (b : Buffer) (p : Page) : Frames (writePage b p) :=
  fun _ => Preserves.get.bind fun _ => .ite (.modify fun s h => by cases b <;> exact h) .fault

theorem frames_preAlloc : Frames pageFilePreAlloc := by
  intro v
  apply Preserves.get.bind
  intro s
  cases s.mBlockBitMap.find0 with
  | none =>
      apply Preserves.bind
      · exact .modify fun _ h => h
      · exact fun _ => .pure _
  | some idx => exact .pure idx

theorem frames_mark (idx : Nat) (used : Bool) : Frames (pageFileMarkUsed idx used) :=
  fun _ => Preserves.get.bind fun _ => .ite (.fail _) (.modify fun _ h => h)

theorem frames_store (a : Access) (index : Nat) (b : Buffer) :
    Frames (storeToStorage a index b) := by
  intro v
  apply Preserves.ite (.fail _)
  apply (frames_readPage b v).bind
  intro p
  apply (frames_writePage b _ v).bind
  intro _
  apply Preserves.bind
  · exact .modify fun _ h => h
  · exact fun _ => .ite (.fail _) (.pure _)

theorem frames_load (a : Access) (index : Nat) (b : Buffer) :
    Frames (loadFromStorage a index b) := by
  intro v
  apply Preserves.ite (.fail _)
  apply Preserves.get.bind
  intro s
  apply (frames_readPage b v).bind
  intro old
  apply (frames_writePage b _ v).bind
  exact fun _ => .ite (.fail _) (frames_writePage b _ v)

theorem frames_find (rand : Nat → Nat) : Frames (findFreeOrSwappableAddress rand) := by
  intro v
  apply Preserves.get.bind
  intro s
  cases s.findFreeOrSwappable rand with
  | none => exact .fail _
  | some i => exact .pure i

theorem frames_copyInto (b : Buffer) (off : Nat) (p : Nat → UInt8) (cb : Nat) :
    Frames (copyInto b off p cb) :=
  fun v => (frames_readPage b v).bind fun _ => .ite (frames_writePage b _ v) .fault

theorem frames_copyFrom (b : Buffer) (off cb : Nat) : Frames (copyFrom b off cb) := by
  intro v
  apply (frames_readPage b v).bind
  intro old
  by_cases h : off + cb ≤ 4096
  · rw [dif_pos h]
    exact .pure _
  · rw [dif_neg h]
    exact .fault

/-- The exchange of pages, with the address that the block gets. -/
def exchange (e : Env) (i addr : Nat) (inPF : Option Nat) : Ram Unit := do
  let inMem ← slotAt i
  let s ← get
  if inMem = none ∧ inPF = none then return
  else if s.lockedSlot inMem then fail .E_FAIL
  else do
    let idxPageFile ← match inPF with
      | some pf => pure (s.blocks pf).swapid
      | none => pageFilePreAlloc
    let dataBuffer := if inMem ≠ none then Buffer.temp else getRamBuffer (i * VM_PAGE_SIZE)
    if inPF ≠ none then loadFromStorage e.load idxPageFile dataBuffer else pure ()
    match inMem with
    | some m => evict e i idxPageFile m inPF
    | none => pure ()
    match inPF with
    | some pf => modifyBlock pf fun b =>
        { b with addr := addr, flags := b.flags &&& ~~~BF_SWAPPED, swapid := 0 }
    | none => pure ()
    setSlot i inPF

theorem swap_eq_exchange (e : Env) (i : Nat) (inPF : Option Nat) :
    swapRamAndPageFile e i inPF = exchange e i (i <<< VM_PAGE_SHIFT) inPF := rfl

namespace Stable

/-! ## Blocks that leave the RAM, and blocks that are put into a slot -/

theorem drops (hP : Stable P) (pb : Nat) {f : RamBlock → RamBlock}
    (hf : ∀ b, (f b).flags = 0#32 ∨ (f b).flags &&& BF_SWAPPED ≠ 0#32) :
    Preserves P (modifyBlock pb f) :=
  .modify fun s hs => hP.dropped (hf (s.blocks pb)) hs

theorem or_swapped (flags : BitVec 32) : (flags ||| BF_SWAPPED) &&& BF_SWAPPED ≠ 0#32 := by
  have hmask : (flags ||| BF_SWAPPED) &&& BF_SWAPPED = BF_SWAPPED := by
    ext k
    simp only [BitVec.getElem_and, BitVec.getElem_or]
    cases BF_SWAPPED[k] <;> simp
  rw [hmask]
  decide

/-- The slot exists, or the operation faults. -/
theorem places (hP : Stable P) (pb : Nat) {i : Nat} {v : Option Nat} {f : RamBlock → RamBlock}
    (hf : ∀ b, (f b).addr ≤ i * 4096) :
    Preserves P (modifyBlock pb f >>= fun _ => setSlot i v) := by
  intro s hs
  simp only [wlp_bind, wlp_modifyBlock, wlp_setSlot]
  intro hi
  have hput : P (s.withBlock pb (f (s.blocks pb))) := hP.placed hi (hf _) hs
  apply hP.frame _ _ hput
  · rfl
  · simp only [sizes, List.length_set]
    rfl

/-! ## The calls -/

theorem evict (hP : Stable P) (e : Env) (i j m : Nat) (inPF : Option Nat) :
    Preserves P (evict e i j m inPF) := by
  apply (hP.of_frames (frames_store _ _ _)).bind
  intro _
  apply (hP.of_frames (frames_mark j true)).ignore.bind
  intro _
  apply (hP.of_frames (frames_onBlockInvalid m)).bind
  intro _
  apply (hP.drops m fun _ => .inr (or_swapped _)).bind
  intro _
  have hwrite : ∀ p, Preserves P (writePage (getRamBuffer (i <<< VM_PAGE_SHIFT)) p) :=
    fun p => hP.of_frames (frames_writePage _ p)
  cases inPF with
  | none => exact hwrite _
  | some _ => exact (hP.of_frames (frames_readPage _)).bind hwrite

theorem exchange (hP : Stable P) (e : Env) {i addr : Nat} (inPF : Option Nat)
    (haddr : addr ≤ i * 4096) : Preserves P (exchange e i addr inPF) := by
  apply (hP.of_frames (frames_slotAt i)).bind
  intro inMem
  apply Preserves.get.bind
  intro s
  apply Preserves.ite (.pure _)
  apply Preserves.ite (.fail _)
  have hput : Preserves P (setSlot i none) := hP.of_frames (frames_setSlot i none)
  have hload : ∀ {c : Prop} [Decidable c] (j : Nat) (b : Buffer) {x : Ram Unit}, Preserves P x →
      Preserves P (if c then loadFromStorage e.load j b >>= fun _ => x else x) :=
    fun j b _ hx => .ite ((hP.of_frames (frames_load _ j b)).bind fun _ => hx) hx
  cases inPF with
  | none =>
      apply (hP.of_frames frames_preAlloc).bind
      intro j
      apply hload
      cases inMem with
      | none => exact hput
      | some m => exact (hP.evict e i j m none).bind fun _ => hput
  | some pf =>
      apply (Preserves.pure _).bind
      intro j
      apply hload
      cases inMem with
      | none => exact hP.places pf fun _ => haddr
      | some m => exact (hP.evict e i j m _).bind fun _ => hP.places pf fun _ => haddr

theorem swap (hP : Stable P) (e : Env) (i : Nat) (inPF : Option Nat) :
    Preserves P (swapRamAndPageFile e i inPF) := by
  rw [swap_eq_exchange]
  exact hP.exchange e inPF (Nat.le_of_eq (shiftLeft_page i))

theorem alloc (hP : Stable P) (e : Env) (pb : Nat) (flags : BitVec 32) :
    Preserves P (ramAllocAddress e pb flags) := by
  apply (hP.of_frames (frames_find _)).bind
  intro i
  apply (hP.swap e i none).bind
  exact fun _ => hP.places pb fun _ => Nat.le_refl _

theorem free (hP : Stable P) (pb : Nat) : Preserves P (ramFreeAddress pb) := by
  apply (hP.of_frames (frames_blockAt pb)).bind
  intro b
  apply Preserves.ite (.pure _)
  have hfreed := hP.drops pb (f := fun b => { b with flags := 0#32, addr := 0, swapid := 0 })
    fun _ => .inl rfl
  apply Preserves.ite
  · exact (hP.of_frames (frames_mark _ _)).bind fun _ => hfreed
  · apply (hP.of_frames (frames_onBlockInvalid pb)).bind
    exact fun _ => (hP.of_frames (frames_setSlot _ _)).bind fun _ => hfreed

/-- The part of a swap-out that finds a page of the page file and empties the slot -/
theorem stores (hP : Stable P) (a : Access) (pb i : Nat) (buffer : Buffer) :
    Preserves P (pageFilePreAlloc >>= fun indexPF => do
      storeToStorage a indexPF buffer
      ignore (pageFileMarkUsed indexPF true)
      onBlockInvalid pb
      modifyBlock pb fun b => { b with swapid := indexPF, flags := b.flags ||| BF_SWAPPED }
      setSlot i none) := by
  apply (hP.of_frames frames_preAlloc).bind
  intro j
  apply (hP.of_frames (frames_store _ _ _)).bind
  intro _
  apply (hP.of_frames (frames_mark _ _)).ignore.bind
  intro _
  apply (hP.of_frames (frames_onBlockInvalid pb)).bind
  intro _
  apply (hP.drops pb fun _ => .inr (or_swapped _)).bind
  exact fun _ => hP.of_frames (frames_setSlot _ _)

theorem swapOut (hP : Stable P) (e : Env) (pb : Nat) (bForce : Bool) :
    Preserves P (ramSwapOut e pb bForce) := by
  apply (hP.of_frames (frames_blockAt pb)).bind
  intro b
  apply Preserves.ite (.pure _)
  apply Preserves.ite (.fail _)
  exact hP.stores _ _ _ _

theorem swapIn (hP : Stable P) (e : Env) (pb : Nat) : Preserves P (ramSwapIn e pb) := by
  apply (hP.of_frames (frames_blockAt pb)).bind
  intro b
  apply Preserves.ite (.fail _)
  have hswap := fun i => hP.swap e i (some pb)
  exact .ite ((Preserves.pure _).bind hswap) ((hP.of_frames (frames_find _)).bind hswap)

theorem ensure (hP : Stable P) (e : Env) (pb : Nat) : Preserves P (ensureRamBlock e pb) := by
  apply (hP.of_frames (frames_blockAt pb)).bind
  intro b
  apply Preserves.ite (.fail _)
  apply Preserves.ite (.pure _)
  exact (hP.of_frames (frames_find _)).bind fun i => hP.swap e i _

theorem access (hP : Stable P) (e : Env) (pb : Nat) (o : Option Buffer) :
    Preserves P (ramDirectAccess e pb o) := by
  apply (hP.of_frames (frames_blockAt pb)).bind
  intro b
  apply Preserves.ite (.fail _)
  apply Preserves.ite _ (.pure _)
  cases o with
  | some o => exact (hP.of_frames (frames_load _ _ _)).bind fun _ => .pure o
  | none =>
      apply (hP.swapIn e pb).bind
      exact fun _ => (hP.of_frames (frames_blockAt pb)).bind fun _ => .pure _

end Stable

/-! ## Direct writes and reads -/

/-- A write through a buffer that `access` finds -/
def writeThrough (t : Target) (access : Ram Buffer) (store : Access) (pb off : Nat)
    (p : Nat → UInt8) (cb : Nat) : Ram Unit := do
  if (off + cb) % 2 ^ t.sizeBits > VM_PAGE_SIZE then fail .E_FAIL
  else do
    let dataBuffer ← access
    copyInto dataBuffer off p cb
    let b ← blockAt pb
    if b.flags &&& BF_SWAPPED = 0#32 then return
    else storeToStorage store b.swapid dataBuffer

/-- A read through a buffer that `access` finds -/
def readThrough (t : Target) (access : Ram Buffer) (off cb : Nat) : Ram (List UInt8) := do
  if (off + cb) % 2 ^ t.sizeBits > VM_PAGE_SIZE then fail .E_FAIL
  else do
    let dataBuffer ← access
    copyFrom dataBuffer off cb

namespace Stable

theorem writes (hP : Stable P) {access : Ram Buffer} (ha : Preserves P access) (t : Target)
    (a : Access) (pb off : Nat) (p : Nat → UInt8) (cb : Nat) :
    Preserves P (writeThrough t access a pb off p cb) := by
  apply Preserves.ite (.fail _)
  apply ha.bind
  intro b
  apply (hP.of_frames (frames_copyInto b off p cb)).bind
  intro _
  apply (hP.of_frames (frames_blockAt pb)).bind
  exact fun _ => .ite (.pure _) (hP.of_frames (frames_store _ _ _))

theorem reads (hP : Stable P) {access : Ram Buffer} (ha : Preserves P access) (t : Target)
    (off cb : Nat) : Preserves P (readThrough t access off cb) :=
  .ite (.fail _) (ha.bind fun b => hP.of_frames (frames_copyFrom b off cb))

theorem exec (hP : Stable P) (t : Target) (e : Env) (c : Call) : Preserves P (exec t e c) := by
  have hnil : ∀ {α : Type} {x : Ram α}, Preserves P x →
      Preserves P (x >>= fun _ => (pure [] : Ram (List UInt8))) :=
    fun h => h.bind fun _ => .pure _
  cases c with
  | alloc pb flags => exact hnil (hP.alloc e pb flags)
  | free pb => exact hnil (hP.free pb)
  | swapOut pb bForce => exact hnil (hP.swapOut e pb bForce)
  | swapIn pb => exact hnil (hP.swapIn e pb)
  | ensure pb => exact hnil (hP.ensure e pb)
  | directAccess pb => exact hnil (hP.access e pb none)
  | directWrite pb off p cb => exact hnil (hP.writes (hP.access e pb _) t _ _ _ _ _)
  | directRead pb off cb => exact hP.reads (hP.access e pb _) t off cb

end Stable

theorem Stable.run {vs : List Event} {k : Target} (hP : Stable P) (hs : P s)
    (h : Run (step k) s vs t) : P t :=
  h.invariant hs fun _ v _ hu hstep => (hP.exec k v.env v.call).result hu hstep

theorem RamManager.Started.housed (h : s.Started) : s.Housed :=
  fun pb hflags _ => absurd (h.unused pb) hflags

end Vin64.Vram
