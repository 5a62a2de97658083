import Mathlib.Data.List.Basic

/-!
# The list of RAM blocks (`vx64/qemu/exec.c`, `exec/memory-internal.h`)

A `ram_addr_t` and a host address have 64 bits; `NULL` is 0.  `none` is a call of `abort`, or an
access outside the table of dirty flags or to an entry of it that nothing has written.
-/

namespace Vin64.Vx64

def RAM_ADDR_MAX : Nat := 18446744073709551615

/-- `TARGET_PAGE_ALIGN` -/
def targetPageAlign (addr : Nat) : Nat := (addr + 4095) % 18446744073709551616 / 4096 * 4096

structure RAMBlock where
  mr : Nat
  host : Nat
  offset : Nat
  length : Nat
deriving Repr, DecidableEq

/-- What `realloc` adds has no value yet. -/
abbrev DirtyTable := List (Option (BitVec 8))

/-- Blocks do not change while they are in the list, so that `mru_block` may be a copy. -/
structure RAMList where
  blocks : List RAMBlock
  mruBlock : Option RAMBlock
  physDirty : DirtyTable
deriving Repr, DecidableEq

/-! ## Dirty flags -/

namespace DirtyTable

def realloc (t : DirtyTable) (size : Nat) : DirtyTable :=
  t.take size ++ List.replicate (size - t.length) none

def memset (t : DirtyTable) (first : Nat) (v : BitVec 8) (n : Nat) : Option DirtyTable :=
  if first + n ≤ t.length then
    some (t.take first ++ List.replicate n (some v) ++ t.drop (first + n))
  else none

/-- `cpu_physical_memory_get_dirty_flags` -/
def getDirtyFlags (t : DirtyTable) (addr : Nat) : Option (BitVec 8) := t[addr / 4096]?.join

/-- `cpu_physical_memory_is_dirty` -/
def isDirty (t : DirtyTable) (addr : Nat) : Option Bool := (t.getDirtyFlags addr).map (· = 255)

def updateFlags (t : DirtyTable) (addr : Nat) (f : BitVec 8 → BitVec 8) : Option DirtyTable :=
  (t.getDirtyFlags addr).map fun v => t.set (addr / 4096) (some (f v))

/-- `cpu_physical_memory_set_dirty_flags` -/
def setDirtyFlags (t : DirtyTable) (addr : Nat) (dirtyFlags : BitVec 8) : Option DirtyTable :=
  t.updateFlags addr (· ||| dirtyFlags)

/-- The loop through the pages of a range. -/
def forPages (t : DirtyTable) (start length : Nat)
    (f : DirtyTable → Nat → Option DirtyTable) : Option DirtyTable :=
  let stop := targetPageAlign ((start + length) % 18446744073709551616)
  (List.range' (start / 4096) (stop / 4096 - start / 4096)).foldlM (fun t page => f t (page * 4096)) t

/-- `cpu_physical_memory_set_dirty_range` -/
def setDirtyRange (t : DirtyTable) (start length : Nat) (dirtyFlags : BitVec 8) :
    Option DirtyTable :=
  t.forPages start length (·.setDirtyFlags · dirtyFlags)

end DirtyTable

/-! ## Blocks -/

/-- The inner loop of `find_ram_offset`. -/
def nextOffset (blocks : List RAMBlock) (stop : Nat) : Nat :=
  blocks.foldl (fun next b => if b.offset ≥ stop then min next b.offset else next) RAM_ADDR_MAX

/-- The outer loop, with the offset and the smallest gap so far. -/
def bestGap (blocks : List RAMBlock) (size : Nat) : List RAMBlock → Nat × Nat → Nat × Nat
  | [], best => best
  | block :: rest, (offset, mingap) =>
    let stop := (block.offset + block.length) % 18446744073709551616
    let next := nextOffset blocks stop
    bestGap blocks size rest
      (if next - stop ≥ size ∧ next - stop < mingap then (stop, next - stop) else (offset, mingap))

/-- `find_ram_offset` -/
def findRamOffset (blocks : List RAMBlock) (size : Nat) : Option Nat :=
  if blocks = [] then some 0
  else
    let offset := (bestGap blocks size blocks (RAM_ADDR_MAX, RAM_ADDR_MAX)).1
    if offset = RAM_ADDR_MAX then none else some offset

/-- `last_ram_offset` -/
def lastRamOffset (blocks : List RAMBlock) : Nat :=
  blocks.foldl (fun last b => max last ((b.offset + b.length) % 18446744073709551616)) 0

/-- The list stays sorted from the biggest to the smallest block. -/
def insertBlock (new : RAMBlock) : List RAMBlock → List RAMBlock
  | [] => [new]
  | block :: blocks =>
    if block.length < new.length then new :: block :: blocks else block :: insertBlock new blocks

/-- The test that finds the block of an address. -/
def RAMBlock.holds (block : RAMBlock) (addr : Nat) : Bool :=
  (addr + 18446744073709551616 - block.offset) % 18446744073709551616 < block.length

/-- `block->host + (addr - block->offset)` -/
def RAMBlock.ptr (block : RAMBlock) (addr : Nat) : Nat :=
  (block.host + (addr + 18446744073709551616 - block.offset)) % 18446744073709551616

namespace RAMList

/-- `qemu_ram_alloc_from_ptr` -/
def qemuRamAllocFromPtr (l : RAMList) (size host mr : Nat) : Option (Nat × RAMList) := do
  let size := targetPageAlign size
  let offset ← findRamOffset l.blocks size
  let blocks := insertBlock ⟨mr, host, offset, size⟩ l.blocks
  let physDirty := l.physDirty.realloc (lastRamOffset blocks / 4096)
  let physDirty ← physDirty.memset (offset / 4096) 0 (size / 4096)
  let physDirty ← physDirty.setDirtyRange offset size 255
  some (offset, ⟨blocks, none, physDirty⟩)

/-- `qemu_ram_free_from_ptr` -/
def qemuRamFreeFromPtr (l : RAMList) (addr : Nat) : RAMList :=
  if l.blocks.any (addr = ·.offset) then
    { l with blocks := l.blocks.eraseP (addr = ·.offset), mruBlock := none }
  else l

/-- `qemu_get_ram_ptr` -/
def qemuGetRamPtr (l : RAMList) (addr : Nat) : Option (Nat × RAMList) :=
  match l.mruBlock.filter (·.holds addr) with
  | some block => some (block.ptr addr, l)
  | none =>
    (l.blocks.find? (·.holds addr)).map fun block =>
      (block.ptr addr, { l with mruBlock := some block })

/-- `qemu_safe_ram_ptr` -/
def qemuSafeRamPtr (l : RAMList) (addr : Nat) : Option Nat :=
  (l.blocks.find? (·.holds addr)).map (·.ptr addr)

/-- `qemu_ram_addr_from_host` -/
def qemuRamAddrFromHost (l : RAMList) (ptr : Nat) : Option Nat :=
  (l.blocks.find? fun block => block.host ≠ 0 ∧
    (ptr + 18446744073709551616 - block.host) % 18446744073709551616 < block.length).map
    fun block => (block.offset + (ptr + 18446744073709551616 - block.host)) % 18446744073709551616

def empty : RAMList := ⟨[], none, []⟩

end RAMList

/-! ## Calls -/

inductive RamCall where
  | alloc (size host : BitVec 64) (mr : Nat)
  | free (addr : BitVec 64)
  | getPtr (addr : BitVec 64)
deriving Repr, DecidableEq

/-- What a call returns, with one way or another to find a pointer. -/
def RAMList.call (getPtr : RAMList → Nat → Option (Nat × RAMList)) (l : RAMList) :
    RamCall → Option (Nat × RAMList)
  | .alloc size host mr => l.qemuRamAllocFromPtr size.toNat host.toNat mr
  | .free addr => some (0, l.qemuRamFreeFromPtr addr.toNat)
  | .getPtr addr => getPtr l addr.toNat

def RAMList.calls (getPtr : RAMList → Nat → Option (Nat × RAMList)) :
    RAMList → List RamCall → Option (List Nat × RAMList)
  | l, [] => some ([], l)
  | l, call :: calls => do
    let (ret, l) ← l.call getPtr call
    let (rets, l) ← l.calls getPtr calls
    some (ret :: rets, l)

/-- The search for a block that does not remember any. -/
def RAMList.searchPtr (l : RAMList) (addr : Nat) : Option (Nat × RAMList) :=
  (l.qemuSafeRamPtr addr).map (·, l)

end Vin64.Vx64
