import Vin64.Vram.Calls

/-!
# The RAM manager of the test program (`rammgr.h`)

The manager of `vos/vram.cpp` under other names: `AddressRef` is a block, `mAddressRefs` the
slot table, `pfidx` the index in the page file and `onAddressInvalid` the call of the owner.
What is the same word for word is used from there.  Addresses are of 32 bits here, and the
search for a slot, `RamSwapIn` and `RamDirectAccess` differ.
-/

namespace Vin64.Vm

open Vin64.Lib Vin64.Lib.Op Vin64.Utils Vin64.Vram
open Vin64.Vram.RamManager (getRamBuffer)

/-- What a call meets: whether `change > rand()%maxRefs` at a slot, and the outcomes of its
load and its store. -/
structure Env where
  change : Nat → Bool
  load : Access
  store : Access

def Env.transfers (e : Env) : Vram.Env := ⟨fun _ => 0, e.load, e.store⟩

/-- The address of a slot as a `RamAddress`. -/
def ramAddress (i : Nat) : Nat := i * VM_PAGE_SIZE % 2 ^ 32

/-! ## Slots -/

/-- The loop of `FindFreeOrSwappableAddress` from slot `i` on. -/
def findLoop (blocks : Nat → RamBlock) (change : Nat → Bool) (maxRefs : Nat) :
    List (Option Nat) → Nat → Nat → Nat
  | [], _, swapid => swapid
  | none :: _, i, _ => i
  | some pref :: rest, i, swapid =>
    if (blocks pref).flags &&& BF_LOCKED ≠ 0#32 then
      findLoop blocks change maxRefs rest (i + 1) swapid
    else
      findLoop blocks change maxRefs rest (i + 1)
        (if swapid = maxRefs ∨ change i = true then i else swapid)

def findFreeOrSwappable (s : RamManager) (change : Nat → Bool) : Option Nat :=
  let maxRefs := s.mBlocks.length
  let i := findLoop s.blocks change maxRefs s.mBlocks 0 maxRefs
  if i < maxRefs then some i else none

def findFreeOrSwappableAddress (change : Nat → Bool) : Ram Nat := do
  let s ← get
  match findFreeOrSwappable s change with
  | some i => return i
  | none => fail .E_FAIL

def swapRamAndPageFile (e : Env) (idxRam : Nat) (inPF : Option Nat) : Ram Unit := do
  let inMem ← slotAt idxRam
  let s ← get
  if inMem = none ∧ inPF = none then return
  else if s.lockedSlot inMem then fail .E_FAIL
  else do
    let idxPageFile ← match inPF with
      | some pf => pure (s.blocks pf).swapid
      | none => pageFilePreAlloc
    let dataBuffer := if inMem ≠ none then Buffer.temp else getRamBuffer (idxRam * VM_PAGE_SIZE)
    if inPF ≠ none then loadFromStorage e.load idxPageFile dataBuffer else pure ()
    match inMem with
    | some m => evict e.transfers idxRam idxPageFile m inPF
    | none => pure ()
    match inPF with
    | some pf => modifyBlock pf fun b =>
        { b with addr := ramAddress idxRam, flags := b.flags &&& ~~~BF_SWAPPED, swapid := 0 }
    | none => pure ()
    setSlot idxRam inPF

/-! ## The calls

Each call that tests the flags of its block before it takes the mutex is that test and a
body. -/

def ramAllocAddress (e : Env) (pref : Nat) (flags : BitVec 32) : Ram Unit := do
  let flags := flags &&& BF_LOCKED
  let i ← findFreeOrSwappableAddress e.change
  swapRamAndPageFile e i none
  modifyBlock pref fun b => { b with addr := ramAddress i, flags := flags ||| BF_VALID, swapid := 0 }
  setSlot i (some pref)

def ramFreeBody (pref : Nat) : Ram Unit := do
  let b ← blockAt pref
  if b.flags &&& BF_SWAPPED ≠ 0#32 then pageFileMarkUsed b.swapid false
  else do
    onBlockInvalid pref
    setSlot (b.addr / VM_PAGE_SIZE) none
  modifyBlock pref fun b => { b with flags := 0#32, addr := 0, swapid := 0 }

/-- `! pref->flags & BF_VALID` holds exactly of a block without flags. -/
def ramFreeAddress (pref : Nat) : Ram Unit := do
  let b ← blockAt pref
  if b.flags = 0#32 then return
  else ramFreeBody pref

def ramSwapOutBody (e : Env) (pref : Nat) : Ram Unit := do
  let b ← blockAt pref
  let indexPF ← pageFilePreAlloc
  storeToStorage e.store indexPF (getRamBuffer b.addr)
  ignore (pageFileMarkUsed indexPF true)
  onBlockInvalid pref
  modifyBlock pref fun b => { b with swapid := indexPF, flags := b.flags ||| BF_SWAPPED }
  setSlot (b.addr / VM_PAGE_SIZE) none

def ramSwapOut (e : Env) (pref : Nat) (bForce : Bool) : Ram Unit := do
  let b ← blockAt pref
  if b.flags &&& BF_SWAPPED ≠ 0#32 then return
  else if b.flags &&& BF_LOCKED ≠ 0#32 ∧ ¬ bForce then fail .E_FAIL
  else ramSwapOutBody e pref

def ramSwapInBody (e : Env) (pref : Nat) : Ram Unit := do
  let b ← blockAt pref
  let indexRam ← if b.flags &&& BF_LOCKED ≠ 0#32 then pure (b.addr / VM_PAGE_SIZE)
    else findFreeOrSwappableAddress e.change
  swapRamAndPageFile e indexRam (some pref)

/-- A block that is not swapped out is left, with `S_FALSE`. -/
def ramSwapIn (e : Env) (pref : Nat) : Ram Unit := do
  let b ← blockAt pref
  if b.flags &&& BF_SWAPPED = 0#32 then return
  else ramSwapInBody e pref

def ensureRamBlock (e : Env) (pref : Nat) : Ram Unit := do
  let b ← blockAt pref
  if b.flags = 0#32 then fail .E_UNEXPECTED
  else if b.flags &&& BF_SWAPPED = 0#32 then return
  else do
    let addrIndex ← findFreeOrSwappableAddress e.change
    swapRamAndPageFile e addrIndex (some pref)

/-- The buffer of a resident block is the one at its slot's index, not at its address. -/
def ramDirectAccess (e : Env) (pref : Nat) (ownerBuffer : Option Buffer) : Ram Buffer := do
  let b ← blockAt pref
  if b.flags = 0#32 then fail .E_UNEXPECTED
  else if b.flags &&& BF_SWAPPED ≠ 0#32 then
    match ownerBuffer with
    | some o => do
      loadFromStorage e.load b.swapid o
      return o
    | none => do
      ramSwapIn e pref
      let b ← blockAt pref
      return getRamBuffer (b.addr / VM_PAGE_SIZE)
  else return getRamBuffer (b.addr / VM_PAGE_SIZE)

def ramDirectWrite (t : Target) (e : Env) (pref off : Nat) (p : Nat → UInt8) (cb : Nat) :
    Ram Unit := do
  if (off + cb) % 2 ^ t.sizeBits > VM_PAGE_SIZE then fail .E_FAIL
  else do
    let dataBuffer ← ramDirectAccess e pref (some .temp)
    copyInto dataBuffer off p cb
    let b ← blockAt pref
    if b.flags &&& BF_SWAPPED = 0#32 then return
    else storeToStorage e.store b.swapid dataBuffer

def ramDirectRead (t : Target) (e : Env) (pref off cb : Nat) : Ram (List UInt8) := do
  if (off + cb) % 2 ^ t.sizeBits > VM_PAGE_SIZE then fail .E_FAIL
  else do
    let dataBuffer ← ramDirectAccess e pref (some .temp)
    copyFrom dataBuffer off cb

/-- A call of the manager; the bytes it returns are those of a read. -/
def exec (t : Target) (e : Env) : Call → Ram (List UInt8)
  | .alloc pref flags => do ramAllocAddress e pref flags; return []
  | .free pref => do ramFreeAddress pref; return []
  | .swapOut pref bForce => do ramSwapOut e pref bForce; return []
  | .swapIn pref => do ramSwapIn e pref; return []
  | .ensure pref => do ensureRamBlock e pref; return []
  | .directAccess pref => do
    let _ ← ramDirectAccess e pref none
    return []
  | .directWrite pref off p cb => do ramDirectWrite t e pref off p cb; return []
  | .directRead pref off cb => ramDirectRead t e pref off cb

end Vin64.Vm
