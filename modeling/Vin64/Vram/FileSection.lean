import Mathlib.Data.BitVec
import Mathlib.Logic.Embedding.Basic
import Vin64.Vram.Store

/-!
# The window of a file section (`vos/kmo.cpp`)

`KmoSection::getRamBlock` keeps pages of a file in `WINDOW_BLOCKS` blocks of the RAM manager:
the page at an offset goes to the block at the page's number modulo their count.  Nothing in
the sources declares the member `_type`; it is a field here.
-/

namespace Vin64.Vram

open Vin64.Lib Vin64.Lib.Op Vin64.Utils
open RamManager (getRamBuffer)

/-- The interface of a file, as far as `getRamBlock` calls it, each call with its success.  A
read gets the page that was in the buffer and returns the one that is there afterwards. -/
structure KboFileIO (φ : Type) where
  seek : BitVec 64 → φ → Bool × φ
  write : Page → φ → Bool × φ
  read : Page → φ → (Bool × Page) × φ

def SECTION_MAP_WRITE : BitVec 32 := 2
def SEC_FILE : BitVec 32 := 0x800000

structure KmoSection (φ : Type) where
  mgr : RamManager
  file : φ
  /-- The addresses of `_wnd[0]` to `_wnd[WINDOW_BLOCKS - 1]`. -/
  wnd : Fin 64 ↪ Nat
  /-- `offset` of each block. -/
  offset : Fin 64 → BitVec 64
  size : BitVec 64
  acc : BitVec 32
  type : BitVec 32

variable {φ : Type}

def onVram {α : Type} (x : Ram α) : Op (KmoSection φ) HRESULT α :=
  zoom KmoSection.mgr (fun m s => { s with mgr := m }) x

def onFile {α : Type} (x : φ → α × φ) : Op (KmoSection φ) HRESULT α := do
  let s ← get
  modify fun s => { s with file := (x s.file).2 }
  return (x s.file).1

/-- `(offset >> VM_PAGE_SHIFT) % WINDOW_BLOCKS` -/
def windowIndex (offset : BitVec 64) : Fin 64 :=
  ⟨(offset >>> VM_PAGE_SHIFT).toNat % 64, Nat.mod_lt _ (by decide)⟩

/-- `vram::Buffer` -/
def buffer (pb : Nat) : Ram (Option Buffer) := do
  let b ← blockAt pb
  if b.flags &&& BF_VALID = 0#32 then return none
  else if b.flags &&& BF_SWAPPED ≠ 0#32 then return none
  else return some (getRamBuffer b.addr)

/-- Whether a call of the manager succeeds. -/
def succeeded (x : Ram Unit) : Op (KmoSection φ) HRESULT Bool := do
  match ← attempt (onVram x) with
  | .error _ => return false
  | .ok () => return true

/-- `_file->write( vram::Buffer(bp), VM_PAGE_SIZE, 0 )` -/
def writeBuffer (F : KboFileIO φ) (bp : Nat) : Op (KmoSection φ) HRESULT Bool := do
  match ← onVram (buffer bp) with
  | none => fault
  | some b => do
    let p ← onVram (readPage b)
    onFile (F.write p)

/-- `_file->read( vram::Buffer(bp), VM_PAGE_SIZE, 0 )` -/
def readBuffer (F : KboFileIO φ) (bp : Nat) : Op (KmoSection φ) HRESULT Bool := do
  match ← onVram (buffer bp) with
  | none => fault
  | some b => do
    let old ← onVram (readPage b)
    let (ok, p) ← onFile (F.read old)
    onVram (writePage b p)
    return ok

/-- Frees a VALID block for another page. -/
def recycle (F : KboFileIO φ) (e : Env) (bp : Nat) (offset : BitVec 64) :
    Op (KmoSection φ) HRESULT Bool := do
  let s ← get
  if s.acc &&& SECTION_MAP_WRITE ≠ 0#32 then
    if s.type = SEC_FILE then
      if ¬ (← succeeded (ramSwapIn e bp)) then return false
      else if ¬ (← onFile (F.seek offset)) then return false
      else if ¬ (← writeBuffer F bp) then return false
      else succeeded (ramFreeAddress bp)
    else return false
  else succeeded (ramFreeAddress bp)

/-- Fills a block that is not VALID. -/
def fill (F : KboFileIO φ) (e : Env) (index32 : Fin 64) (offset : BitVec 64) :
    Op (KmoSection φ) HRESULT (Option (Fin 64)) := do
  modify fun s => { s with offset := Function.update s.offset index32 offset }
  let s ← get
  let bp := s.wnd index32
  if ¬ (← succeeded (ramAllocAddress e bp 0)) then return none
  else if ¬ (← onFile (F.seek offset)) then do
    ignore (onVram (ramFreeAddress bp))
    return none
  else if ¬ (← readBuffer F bp) then do
    ignore (onVram (ramFreeAddress bp))
    return none
  else return some index32

/-- `e` is what the manager meets when it swaps a block in, `e'` when it allocates one. -/
def getRamBlock (F : KboFileIO φ) (e e' : Env) (offset : BitVec 64) :
    Op (KmoSection φ) HRESULT (Option (Fin 64)) := do
  let s ← get
  if offset ≥ s.size then return none
  else do
    let index32 := windowIndex offset
    if (s.mgr.blocks (s.wnd index32)).flags &&& BF_VALID ≠ 0#32 then
      if ¬ (← recycle F e (s.wnd index32) offset) then return none else fill F e' index32 offset
    else fill F e' index32 offset

/-! ## Files -/

/-- The calls on a file in a section of a size succeed and move whole pages: `bytes` are those
of the file and `pos` is where the next access begins. -/
structure KboFileIO.Works (F : KboFileIO φ) (bytes : φ → Nat → UInt8) (pos : φ → Nat)
    (size : BitVec 64) : Prop where
  seek : ∀ offset < size, ∀ f, (F.seek offset f).1 = true ∧
    bytes (F.seek offset f).2 = bytes f ∧ pos (F.seek offset f).2 = offset.toNat
  write : ∀ p f, (F.write p f).1 = true ∧ bytes (F.write p f).2 = blit (bytes f) (pos f) p
  read : ∀ p f, (F.read p f).1 = (true, window (bytes f) 4096 (pos f)) ∧
    bytes (F.read p f).2 = bytes f

/-! ## Runs of calls -/

/-- A call for a page, a change of the page in a returned block, or a call of the manager by
another client. -/
inductive FileCall where
  | getRamBlock (offset : BitVec 64) (e e' : Env)
  | modify (i : Fin 64) (p : Page)
  | other (c : Call) (e : Env)

structure FileRun (φ : Type) where
  sec : KmoSection φ
  /-- The page of each offset as it was last made: in a block, or before in the file. -/
  page : BitVec 64 → Page

/-- A write through `vram::Buffer` -/
def modifyBuffer (bp : Nat) (p : Page) : Ram Unit := do
  match ← buffer bp with
  | none => fault
  | some b => writePage b p

/-- The offset that the block for an offset holds. -/
def KmoSection.held (s : KmoSection φ) (offset : BitVec 64) : Option (BitVec 64) :=
  if s.mgr.Valid (s.wnd (windowIndex offset)) then some (s.offset (windowIndex offset)) else none

namespace FileRun

def step (t : Target) (F : KboFileIO φ) (x : FileRun φ) : FileCall → Option (FileRun φ)
  | .getRamBlock offset e e' => do
    let (_, sec) ← getRamBlock F e e' offset x.sec
    return { x with sec }
  | .modify i p => do
    let (_, sec) ← onVram (modifyBuffer (x.sec.wnd i) p) x.sec
    return ⟨sec, Function.update x.page (x.sec.offset i) p⟩
  | .other c e => do
    let (_, sec) ← onVram (exec t e c) x.sec
    return { x with sec }

end FileRun

/-- Offsets are those of pages, and the accesses to the page file succeed.  Other clients call
the manager as it is meant to be used; a block of the window they may only swap out. -/
def FileCall.Fair (s : KmoSection φ) : FileCall → Prop
  | .getRamBlock offset e e' => offset.toNat % 4096 = 0 ∧ e.Clean ∧ e'.Clean
  | .modify _ _ => True
  | .other c e => c.Proper s.mgr ∧ e.Clean ∧
      ((∀ i, blockOf c ≠ s.wnd i) ∨ ∃ pb bForce, c = .swapOut pb bForce)

/-- Offsets and outcomes are any.  Other clients call the manager as it is meant to be used, and do
not allocate the blocks of the window. -/
def FileCall.Meant (s : KmoSection φ) : FileCall → Prop
  | .getRamBlock _ _ _ => True
  | .modify _ _ => True
  | .other c _ => c.Proper s.mgr ∧ ∀ i flags, c ≠ .alloc (s.wnd i) flags

namespace FileRun

abbrev Step (t : Target) (F : KboFileIO φ) (x : FileRun φ) (c : FileCall) (y : FileRun φ) : Prop :=
  c.Fair x.sec ∧ x.step t F c = some y

/-- The file after the page that the block for an offset holds was written to its own offset. -/
def flushed (bytes : φ → Nat → UInt8) (x : FileRun φ) (offset : BitVec 64) : Nat → UInt8 :=
  (x.sec.held offset).elim (bytes x.sec.file) fun a => blit (bytes x.sec.file) a.toNat (x.page a)

/-- What `getRamBlock` is to do: it writes the page back that was in the block, changes nothing
else in the file, and returns the block with the page of the offset. -/
structure Caches (bytes : φ → Nat → UInt8) (x : FileRun φ) (offset : BitVec 64)
    (r : Option (Fin 64)) (z : KmoSection φ) : Prop where
  answers : r = some (windowIndex offset)
  resident : z.mgr.Resident (z.wnd (windowIndex offset))
  shows : z.mgr.content (z.wnd (windowIndex offset)) = some (x.page offset)
  file : bytes z.file = x.flushed bytes offset

/-- The block for an offset is not VALID; or it is swapped out and holds this offset, or one
whose page is in the file at both offsets. -/
def Recyclable (bytes : φ → Nat → UInt8) (x : FileRun φ) (offset : BitVec 64) : Prop :=
  ∀ a, x.sec.held offset = some a → x.sec.mgr.IsSwapped (x.sec.wnd (windowIndex offset)) ∧
    (a = offset ∨ window (bytes x.sec.file) 4096 a.toNat = x.page a ∧
      window (bytes x.sec.file) 4096 offset.toNat = x.page a)

/-- `Recyclable` for the calls in the section. -/
def Recycles (bytes : φ → Nat → UInt8) (x : FileRun φ) : FileCall → Prop
  | .getRamBlock offset _ _ => offset < x.sec.size → x.Recyclable bytes offset
  | _ => True

/-- The manager gives the block a slot. -/
structure Served (x : FileRun φ) (offset : BitVec 64) (e e' : Env) : Prop where
  allocates : x.sec.held offset = none →
    Succeeds (ramAllocAddress e' (x.sec.wnd (windowIndex offset)) 0) x.sec.mgr
  swapsIn : x.sec.mgr.IsSwapped (x.sec.wnd (windowIndex offset)) →
    Succeeds (ramSwapIn e (x.sec.wnd (windowIndex offset))) x.sec.mgr

/-- A writable file section whose blocks are unused, on a manager that was just created. -/
structure Started (bytes : φ → Nat → UInt8) (x : FileRun φ) : Prop where
  mgr : x.sec.mgr.Started
  writable : x.sec.acc &&& SECTION_MAP_WRITE ≠ 0#32
  isFile : x.sec.type = SEC_FILE
  page : ∀ a, x.page a = window (bytes x.sec.file) 4096 a.toNat

end FileRun

end Vin64.Vram
