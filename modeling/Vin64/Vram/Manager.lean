import Mathlib.Logic.Function.Basic
import Vin64.Lib.Op
import Vin64.Lib.Cells
import Vin64.Utils.Bitmap
import Vin64.Utils.Target

/-!
# The RAM manager (`vos/vram.cpp`)

The manager keeps the pages of the callers' blocks in a few RAM slots and the rest in the
page file.  The callers' blocks are part of the state, under their pointers; so is the list
of the calls of `onBlockInvalid`, the last one first.  Addresses and indices stay below the
size of `mRamData` and of the bitmap, which exist in memory, and do not wrap.
-/

namespace Vin64.Vram

open Vin64.Lib Vin64.Lib.Op Vin64.Utils

def VM_PAGE_SIZE : Nat := 0x1000
def VM_PAGE_SHIFT : Nat := 12

def BF_VALID : BitVec 32 := 1
def BF_SWAPPED : BitVec 32 := 2
def BF_LOCKED : BitVec 32 := 4

abbrev Page := Fin 4096 → UInt8

inductive HRESULT where
  | E_FAIL
  | E_UNEXPECTED
  | E_INVALIDARG
  | win32 (code : Nat)
deriving Repr, DecidableEq

structure RamBlock where
  flags : BitVec 32
  addr : Nat
  swapid : Nat
  owner : Option Nat
deriving Repr, DecidableEq

/-- A call of `owner->onBlockInvalid(pb)` and the block at that moment. -/
structure Invalidated where
  owner : Nat
  pb : Nat
  block : RamBlock
deriving Repr, DecidableEq

structure RamManager where
  mBlocks : List (Option Nat)
  mRamData : Nat → UInt8
  mTemp : Page
  mBlockBitMap : XBitMap
  mGrowCount : Nat
  /-- The bytes of the file behind `mStoageFile`. -/
  storage : Nat → UInt8
  blocks : Nat → RamBlock
  invalidated : List Invalidated

abbrev Ram := Op RamManager HRESULT

/-- The outcome of an access to the page file: the seek fails, or only some of the bytes
are moved. -/
inductive Access where
  | ok
  | noSeek
  | short (n : Nat)
deriving Repr, DecidableEq

/-- What a call meets: the results of `rand()` in the search loop and the outcomes of its
load and its store. -/
structure Env where
  rand : Nat → Nat
  load : Access
  store : Access

/-- The buffers a page travels through. -/
inductive Buffer where
  | temp
  | ram (addr : Nat)
deriving Repr, DecidableEq

/-! ## Blocks, slots and pages -/

def blockAt (pb : Nat) : Ram RamBlock := do
  let s ← get
  return s.blocks pb

def modifyBlock (pb : Nat) (f : RamBlock → RamBlock) : Ram Unit :=
  modify fun s => { s with blocks := Function.update s.blocks pb (f (s.blocks pb)) }

/-- `mBlocks[i]` -/
def slotAt (i : Nat) : Ram (Option Nat) := do
  let s ← get
  match s.mBlocks[i]? with
  | some v => return v
  | none => fault

/-- `mBlocks[i] = v` -/
def setSlot (i : Nat) (v : Option Nat) : Ram Unit := do
  let s ← get
  if i < s.mBlocks.length then modify fun s => { s with mBlocks := s.mBlocks.set i v } else fault

/-- `if( pb->owner ) pb->owner->onBlockInvalid( pb )` -/
def onBlockInvalid (pb : Nat) : Ram Unit := modify fun s =>
  { s with invalidated :=
      ((s.blocks pb).owner.map fun o => ⟨o, pb, s.blocks pb⟩).toList ++ s.invalidated }

namespace RamManager

def ramSize (s : RamManager) : Nat := s.mBlocks.length * VM_PAGE_SIZE

def getRamBuffer (addr : Nat) : Buffer := .ram addr

/-- The page in a buffer. -/
def page (s : RamManager) : Buffer → Page
  | .temp => s.mTemp
  | .ram addr => window s.mRamData 4096 addr

def setPage (s : RamManager) (b : Buffer) (p : Page) : RamManager :=
  match b with
  | .temp => { s with mTemp := p }
  | .ram addr => { s with mRamData := blit s.mRamData addr p }

/-- The buffer lies in the memory of the manager. -/
def Holds (s : RamManager) : Buffer → Prop
  | .temp => True
  | .ram addr => addr + VM_PAGE_SIZE ≤ s.ramSize

instance (s : RamManager) (b : Buffer) : Decidable (s.Holds b) := by
  unfold Holds
  split <;> infer_instance

end RamManager

open RamManager (getRamBuffer)

/-- Reads the page in a buffer. -/
def readPage (b : Buffer) : Ram Page := do
  let s ← get
  if s.Holds b then return s.page b else fault

/-- Overwrites the page in a buffer. -/
def writePage (b : Buffer) (p : Page) : Ram Unit := do
  let s ← get
  if s.Holds b then modify fun s => s.setPage b p else fault

/-! ## The page file -/

def pageFilePreAlloc : Ram Nat := do
  let s ← get
  match s.mBlockBitMap.find0 with
  | some idx => return idx
  | none => do
    let idx := s.mBlockBitMap.bits
    modify fun s => { s with mBlockBitMap := s.mBlockBitMap.resize (idx + s.mGrowCount) }
    return idx

def markSwapBlockUsed (idx : Nat) (used : Bool) : Ram Unit := do
  let s ← get
  if s.mBlockBitMap.bits ≤ idx then fail .E_UNEXPECTED
  else modify fun s => { s with mBlockBitMap := s.mBlockBitMap.setbit idx used }

def pageFileMarkUsed (idx : Nat) (used : Bool) : Ram Unit := markSwapBlockUsed idx used

/-- `oBlock ^= 0x1982120119821201`, word by word -/
def codeBlockPage (p : Page) : Page := fun k =>
  p k ^^^ UInt8.ofNat (0x1982120119821201 >>> (8 * ((k : Nat) % 8)))

/-- `index << VM_PAGE_SHIFT` and `index * VM_PAGE_SIZE` in 64 bits -/
def uOffset (index : Nat) : Nat := index * VM_PAGE_SIZE % 2 ^ 64

/-- `SetFilePointerEx`; a distance with the sign bit lies before the file. -/
def seeks (a : Access) (dist : Nat) : Bool := a ≠ .noSeek ∧ dist < 2 ^ 63

/-- The bytes an access moves. -/
def moved : Access → Nat
  | .ok => VM_PAGE_SIZE
  | .noSeek => 0
  | .short n => n

/-- `WriteFile` at an offset -/
def writeFile (a : Access) (dist : Nat) (p : Page) : Ram Unit := modify fun s =>
  { s with storage := blit s.storage dist (splice (moved a) p (window s.storage 4096 dist)) }

def storeToStorage (a : Access) (index : Nat) (oBlock : Buffer) : Ram Unit := do
  if ¬ seeks a (uOffset index) then fail .E_FAIL
  else do
    let p ← readPage oBlock
    writePage oBlock (codeBlockPage p)
    writeFile a (uOffset index) (codeBlockPage p)
    if a ≠ .ok then fail .E_FAIL else return

def loadFromStorage (a : Access) (index : Nat) (oBlock : Buffer) : Ram Unit := do
  if ¬ seeks a (uOffset index) then fail .E_FAIL
  else do
    let s ← get
    let old ← readPage oBlock
    let p := splice (moved a) (window s.storage 4096 (uOffset index)) old
    writePage oBlock p
    if a ≠ .ok then fail .E_FAIL
    else writePage oBlock (codeBlockPage p)

/-! ## Slots -/

/-- The loop of `FindFreeOrSwappableAddress` from slot `i` on; `check` is 0 at the first
slot and a result of `rand()` at every other one. -/
def findLoop (blocks : Nat → RamBlock) (rand : Nat → Nat) :
    List (Option Nat) → Nat → Nat → Nat
  | [], _, swapid => swapid
  | none :: _, i, _ => i
  | some pb :: rest, i, swapid =>
    if (blocks pb).flags &&& BF_LOCKED ≠ 0#32 then findLoop blocks rand rest (i + 1) swapid
    else
      let check := if i = 0 then 0 else rand i % 100
      findLoop blocks rand rest (i + 1) (if check < 50 then i else swapid)

def RamManager.findFreeOrSwappable (s : RamManager) (rand : Nat → Nat) : Option Nat :=
  let maxRefs := s.mBlocks.length
  let i := findLoop s.blocks rand s.mBlocks 0 maxRefs
  if i < maxRefs then some i else none

def findFreeOrSwappableAddress (rand : Nat → Nat) : Ram Nat := do
  let s ← get
  match s.findFreeOrSwappable rand with
  | some i => return i
  | none => fail .E_FAIL

/-- `inMem && inMem->flags & BF_LOCKED` -/
def RamManager.lockedSlot (s : RamManager) (inMem : Option Nat) : Bool :=
  inMem.any fun m => (s.blocks m).flags &&& BF_LOCKED ≠ 0#32

/-- The part of `SwapRamAndPageFile` that stores the page in the slot. -/
def evict (e : Env) (idxRam idxPageFile : Nat) (m : Nat) (inPF : Option Nat) : Ram Unit := do
  let ramBuffer := getRamBuffer (idxRam <<< VM_PAGE_SHIFT)
  storeToStorage e.store idxPageFile ramBuffer
  ignore (pageFileMarkUsed idxPageFile true)
  onBlockInvalid m
  modifyBlock m fun b => { b with swapid := idxPageFile, flags := b.flags ||| BF_SWAPPED }
  match inPF with
  | some _ => do
    let p ← readPage .temp
    writePage ramBuffer p
  | none => writePage ramBuffer fun _ => 0

def swapRamAndPageFile (e : Env) (idxRam : Nat) (inPF : Option Nat) : Ram Unit := do
  let inMem ← slotAt idxRam
  let s ← get
  if inMem = none ∧ inPF = none then return
  else if s.lockedSlot inMem then fail .E_FAIL
  else do
    let idxPageFile ← match inPF with
      | some pf => pure (s.blocks pf).swapid
      | none => pageFilePreAlloc
    let dataBuffer := if inMem ≠ none then Buffer.temp else getRamBuffer (idxRam * VM_PAGE_SIZE)
    if inPF ≠ none then loadFromStorage e.load idxPageFile dataBuffer else pure ()
    match inMem with
    | some m => evict e idxRam idxPageFile m inPF
    | none => pure ()
    match inPF with
    | some pf => modifyBlock pf fun b =>
        { b with addr := idxRam <<< VM_PAGE_SHIFT, flags := b.flags &&& ~~~BF_SWAPPED, swapid := 0 }
    | none => pure ()
    setSlot idxRam inPF

/-! ## The calls -/

def ramAllocAddress (e : Env) (pb : Nat) (flags : BitVec 32) : Ram Unit := do
  let flags := flags &&& BF_LOCKED
  let i ← findFreeOrSwappableAddress e.rand
  swapRamAndPageFile e i none
  modifyBlock pb fun b => { b with addr := i * VM_PAGE_SIZE, flags := flags ||| BF_VALID, swapid := 0 }
  setSlot i (some pb)

/-- `! pb->flags & BF_VALID` holds exactly of a block without flags. -/
def ramFreeAddress (pb : Nat) : Ram Unit := do
  let b ← blockAt pb
  if b.flags = 0#32 then return
  else do
    if b.flags &&& BF_SWAPPED ≠ 0#32 then pageFileMarkUsed b.swapid false
    else do
      onBlockInvalid pb
      setSlot (b.addr / VM_PAGE_SIZE) none
    modifyBlock pb fun b => { b with flags := 0#32, addr := 0, swapid := 0 }

def ramSwapOut (e : Env) (pb : Nat) (bForce : Bool) : Ram Unit := do
  let b ← blockAt pb
  if b.flags &&& BF_SWAPPED ≠ 0#32 then return
  else if b.flags &&& BF_LOCKED ≠ 0#32 ∧ ¬ bForce then fail .E_FAIL
  else do
    let indexPF ← pageFilePreAlloc
    storeToStorage e.store indexPF (getRamBuffer b.addr)
    ignore (pageFileMarkUsed indexPF true)
    onBlockInvalid pb
    modifyBlock pb fun b => { b with swapid := indexPF, flags := b.flags ||| BF_SWAPPED }
    setSlot (b.addr / VM_PAGE_SIZE) none

def ramSwapIn (e : Env) (pb : Nat) : Ram Unit := do
  let b ← blockAt pb
  if b.flags &&& BF_SWAPPED = 0#32 then fail .E_FAIL
  else do
    let indexRam ← if b.flags &&& BF_LOCKED ≠ 0#32 then pure (b.addr >>> VM_PAGE_SHIFT)
      else findFreeOrSwappableAddress e.rand
    swapRamAndPageFile e indexRam (some pb)

def ensureRamBlock (e : Env) (pb : Nat) : Ram Unit := do
  let b ← blockAt pb
  if b.flags = 0#32 then fail .E_UNEXPECTED
  else if b.flags &&& BF_SWAPPED = 0#32 then return
  else do
    let addrIndex ← findFreeOrSwappableAddress e.rand
    swapRamAndPageFile e addrIndex (some pb)

def ramDirectAccess (e : Env) (pb : Nat) (ownerBuffer : Option Buffer) : Ram Buffer := do
  let b ← blockAt pb
  if b.flags = 0#32 then fail .E_UNEXPECTED
  else if b.flags &&& BF_SWAPPED ≠ 0#32 then
    match ownerBuffer with
    | some o => do
      loadFromStorage e.load b.swapid o
      return o
    | none => do
      ramSwapIn e pb
      let b ← blockAt pb
      return getRamBuffer b.addr
  else return getRamBuffer b.addr

/-- `memcpy( (char*)dataBuffer + off, p, cb )`; outside the page it has no meaning. -/
def copyInto (dataBuffer : Buffer) (off : Nat) (p : Nat → UInt8) (cb : Nat) : Ram Unit := do
  let old ← readPage dataBuffer
  if off + cb ≤ VM_PAGE_SIZE then
    writePage dataBuffer fun k => if off ≤ k ∧ k < off + cb then p (k - off) else old k
  else fault

/-- `memcpy( p, (char*)dataBuffer + off, cb )` -/
def copyFrom (dataBuffer : Buffer) (off cb : Nat) : Ram (List UInt8) := do
  let old ← readPage dataBuffer
  if h : off + cb ≤ 4096 then
    return List.ofFn fun k : Fin cb => old ⟨off + k, by omega⟩
  else fault

def ramDirectWrite (t : Target) (e : Env) (pb off : Nat) (p : Nat → UInt8) (cb : Nat) :
    Ram Unit := do
  if (off + cb) % 2 ^ t.sizeBits > VM_PAGE_SIZE then fail .E_FAIL
  else do
    let dataBuffer ← ramDirectAccess e pb (some .temp)
    copyInto dataBuffer off p cb
    let b ← blockAt pb
    if b.flags &&& BF_SWAPPED = 0#32 then return
    else storeToStorage e.store b.swapid dataBuffer

def ramDirectRead (t : Target) (e : Env) (pb off cb : Nat) : Ram (List UInt8) := do
  if (off + cb) % 2 ^ t.sizeBits > VM_PAGE_SIZE then fail .E_FAIL
  else do
    let dataBuffer ← ramDirectAccess e pb (some .temp)
    copyFrom dataBuffer off cb

/-! ## Creating and closing -/

/-- `Create`; the file handle is null when the file cannot be opened. -/
def create (aFlatPages aGrowBlocks : Nat) (openError : Option Nat) : Ram Unit := do
  if aFlatPages = 0 ∨ aGrowBlocks = 0 then fail .E_INVALIDARG
  else do
    modify fun s => { s with
      mRamData := fun _ => 0
      mBlocks := s.mBlocks.take aFlatPages ++
        List.replicate (aFlatPages - s.mBlocks.length) none }
    match openError with
    | some code => fail (.win32 code)
    | none => modify fun s => { s with mGrowCount := aGrowBlocks, storage := fun _ => 0 }

def close : Ram Unit := modify fun s =>
  { s with mBlocks := [], mBlockBitMap := s.mBlockBitMap.clear, mGrowCount := 0 }

end Vin64.Vram
