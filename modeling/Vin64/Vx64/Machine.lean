import Vin64.Vx64.Dispatch
import Vin64.Vx64.RamList

/-!
# Guest memory (`vx64/vx64.c`, `vx64/qemu/memory.c`, `vx64/qemu/exec.c`)

Windows of host memory are put under `system_memory` and taken away, and guest memory is read and
written through the dispatch.  What an address of a region is, `malloc` decides.  `none` is a failed
assertion, a call of `abort`, or an access through a pointer that leads nowhere.
-/

namespace Vin64.Vx64

/-- A region made by `memory_region_init_ram_ptr`. -/
structure RamRegion where
  fields : RegionFields
  ramAddr : Nat
deriving Repr, DecidableEq

/-- `memory` is the host's. -/
structure Machine where
  subregions : List RamRegion
  currentMap : FlatView
  dispatch : AddressSpaceDispatch
  ram : RAMList
  memory : Nat → BitVec 8

/-- The size that `memory_region_init` sets. -/
def regionSize (size : Nat) : Int :=
  if size = 18446744073709551615 then 18446744073709551616 else size

/-- Every region under `system_memory` is RAM. -/
def systemMemory (subregions : List RamRegion) : MemoryRegion :=
  .container ⟨0, 0, 9223372036854775807, true, false, true, false, 0⟩
    (subregions.map fun r => .container r.fields [])

namespace Machine

/-! ## Windows -/

/-- `memory_map_init` -/
def memoryMapInit (memory : Nat → BitVec 8) : Machine :=
  ⟨[], [], ⟨⟨⟨false, PHYS_MAP_NODE_NIL⟩, fun _ _ => ⟨false, 0⟩, 0, 0⟩, [], []⟩, RAMList.empty, memory⟩

/-- `memory_region_transaction_commit` at depth 0. -/
def memoryRegionTransactionCommit (m : Machine) : Option Machine := do
  let (calls, newView) ← addressSpaceUpdateTopology m.currentMap (some (systemMemory m.subregions))
  let dispatch ← m.dispatch.update (fun _ => true) calls
  some { m with currentMap := newView, dispatch := dispatch }

/-- `memory_region_init_ram_ptr` -/
def memoryRegionInitRamPtr (m : Machine) (mr size ptr : Nat) : Option (RamRegion × Machine) := do
  let (ramAddr, ram) ← m.ram.qemuRamAllocFromPtr size ptr mr
  some (⟨⟨mr, 0, regionSize size, true, true, true, false, 0⟩, ramAddr⟩, { m with ram := ram })

/-- `memory_region_add_subregion`: all priorities are 0, so that the region comes before the
others. -/
def memoryRegionAddSubregion (m : Machine) (offset : BitVec 64) (subregion : RamRegion) :
    Option Machine :=
  let subregion := { subregion with fields := { subregion.fields with addr := offset } }
  { m with subregions := subregion :: m.subregions }.memoryRegionTransactionCommit

/-- `memory_region_del_subregion` -/
def memoryRegionDelSubregion (m : Machine) (mr : Nat) : Option Machine :=
  { m with subregions := m.subregions.eraseP (·.fields.mr = mr) }.memoryRegionTransactionCommit

/-- `memory_region_destroy` -/
def memoryRegionDestroy (m : Machine) (region : RamRegion) : Machine :=
  { m with ram := m.ram.qemuRamFreeFromPtr region.ramAddr }

/-- `vx64_setup_ram` -/
def vx64SetupRam (m : Machine) (mr : Nat) (guestPa : BitVec 64) (size : BitVec 32)
    (ptr : BitVec 64) : Option Machine := do
  let (region, m) ← m.memoryRegionInitRamPtr mr size.toNat ptr.toNat
  m.memoryRegionAddSubregion guestPa region

/-- `vx64_remove_ram` -/
def vx64RemoveRam (m : Machine) (mr : Nat) : Option Machine := do
  let region ← m.subregions.find? (·.fields.mr = mr)
  let m ← m.memoryRegionDelSubregion mr
  some (m.memoryRegionDestroy region)

end Machine

/-! ## Accesses -/

def loadBytes (memory : Nat → BitVec 8) (ptr n : Nat) : List (BitVec 8) :=
  (List.range n).map fun i => memory (ptr + i)

def storeBytes (memory : Nat → BitVec 8) (ptr : Nat) (bytes : List (BitVec 8)) : Nat → BitVec 8 :=
  fun p => if ptr ≤ p then bytes[p - ptr]?.getD (memory p) else memory p

/-- An address of 64 bits. -/
def hwaddr (addr : Int) : Nat := (addr % 18446744073709551616).toNat

def CODE_DIRTY_FLAG : BitVec 8 := 2

/-- How much of an access `address_space_rw` makes at once. -/
def accessLength (s : MemoryRegionSection) (addr len : Nat) : Nat :=
  let l := min (addr / 4096 * 4096 + 4096 - addr) len
  let addr1 := hwaddr (memoryRegionSectionAddr s addr)
  if memoryRegionIsRam (fun _ => true) s.mr then l
  else if l ≥ 4 ∧ addr1 % 4 = 0 then 4
  else if l ≥ 2 ∧ addr1 % 2 = 0 then 2
  else 1

theorem accessLength_pos (s : MemoryRegionSection) (addr : Nat) {len : Nat} (h : 0 < len) :
    0 < accessLength s addr len := by
  unfold accessLength
  dsimp only
  split
  · omega
  · split
    · decide
    · split <;> decide

namespace Machine

/-- `memory_region_get_ram_addr` -/
def ramAddr (m : Machine) : SectionRegion → Option Nat
  | .region mr => (m.subregions.find? (·.fields.mr = mr)).map (·.ramAddr)
  | _ => none

/-- `qemu_get_ram_ptr` -/
def getRamPtr (m : Machine) (addr : Nat) : Option (Nat × Machine) :=
  (m.ram.qemuGetRamPtr (addr % 18446744073709551616)).map fun r => (r.1, { m with ram := r.2 })

/-- The section of a byte of a subpage, and its address there. -/
def subpageSection (m : Machine) (index addr : Nat) : Option (MemoryRegionSection × Nat) := do
  let mmio ← m.dispatch.subpages[index]?
  let s ← m.dispatch.physSections[mmio.subSection (addr % 4096)]?
  some (s, hwaddr (addr + mmio.base - s.offsetWithinAddressSpace + s.offsetWithinRegion))

/-- `io_mem_read` of a fixed region, or of RAM, which has no callbacks. -/
def fixedRead (m : Machine) (mr : SectionRegion) (addr size : Nat) :
    Option (List (BitVec 8) × Machine) :=
  if addr % size ≠ 0 then some (List.replicate size 255, m)
  else
    match mr with
    | .ioMemUnassigned => some (List.replicate size 0, m)
    | .ioMemSubpageRam => (m.getRamPtr addr).map fun (ptr, m) => (loadBytes m.memory ptr size, m)
    | _ => none

/-- `io_mem_read`; the address is aligned. -/
def ioMemRead (m : Machine) (mr : SectionRegion) (addr size : Nat) :
    Option (List (BitVec 8) × Machine) :=
  match mr with
  | .subpage index => do
    let (s, addr) ← m.subpageSection index addr
    m.fixedRead s.mr addr size
  | _ => m.fixedRead mr addr size

/-- `io_mem_write` of a fixed region. -/
def fixedWrite (m : Machine) (mr : SectionRegion) (addr : Nat) (bytes : List (BitVec 8)) :
    Option Machine :=
  if addr % bytes.length ≠ 0 then some m
  else
    match mr with
    | .ioMemUnassigned => some m
    | .ioMemRom => some m
    | .ioMemSubpageRam =>
      (m.getRamPtr addr).map fun (ptr, m) => { m with memory := storeBytes m.memory ptr bytes }
    | _ => none

/-- `io_mem_write` -/
def ioMemWrite (m : Machine) (mr : SectionRegion) (addr : Nat) (bytes : List (BitVec 8)) :
    Option Machine :=
  match mr with
  | .subpage index => do
    let (s, addr) ← m.subpageSection index addr
    m.fixedWrite s.mr addr bytes
  | _ => m.fixedWrite mr addr bytes

/-- `invalidate_and_set_dirty`, without the code of the page. -/
def invalidateAndSetDirty (m : Machine) (addr : Nat) : Option Machine := do
  if ← m.ram.physDirty.isDirty addr then some m
  else
    let physDirty ← m.ram.physDirty.setDirtyFlags addr (255 &&& ~~~CODE_DIRTY_FLAG)
    some { m with ram := { m.ram with physDirty := physDirty } }

/-- One round of `address_space_rw` that reads. -/
def readAccess (m : Machine) (s : MemoryRegionSection) (addr l : Nat) :
    Option (List (BitVec 8) × Machine) :=
  let addr1 := hwaddr (memoryRegionSectionAddr s addr)
  if memoryRegionIsRam (fun _ => true) s.mr then do
    let ramAddr ← m.ramAddr s.mr
    let (ptr, m) ← m.getRamPtr (ramAddr + addr1)
    some (loadBytes m.memory ptr l, m)
  else m.ioMemRead s.mr addr1 l

/-- One round of `address_space_rw` that writes. -/
def writeAccess (m : Machine) (s : MemoryRegionSection) (addr : Nat) (bytes : List (BitVec 8)) :
    Option Machine :=
  let addr1 := hwaddr (memoryRegionSectionAddr s addr)
  if memoryRegionIsRam (fun _ => true) s.mr then
    if s.readonly then some m
    else do
      let ramAddr ← m.ramAddr s.mr
      let (ptr, m) ← m.getRamPtr (ramAddr + addr1)
      { m with memory := storeBytes m.memory ptr bytes }.invalidateAndSetDirty
        ((ramAddr + addr1) % 18446744073709551616)
  else m.ioMemWrite s.mr addr1 bytes

/-- `address_space_rw`, which reads. -/
def addressSpaceRead (m : Machine) (addr len : Nat) : Option (List (BitVec 8) × Machine) :=
  if h : 0 < len then do
    let s ← m.dispatch.pageFind (addr / 4096)
    let l := accessLength s addr len
    have : 0 < l := accessLength_pos s addr h
    let (bytes, m) ← m.readAccess s addr l
    let (rest, m) ← m.addressSpaceRead (addr + l) (len - l)
    some (bytes ++ rest, m)
  else some ([], m)
termination_by len

/-- `address_space_rw`, which writes. -/
def addressSpaceWrite (m : Machine) (addr : Nat) (bytes : List (BitVec 8)) : Option Machine :=
  if h : 0 < bytes.length then do
    let s ← m.dispatch.pageFind (addr / 4096)
    let l := accessLength s addr bytes.length
    have : 0 < l := accessLength_pos s addr h
    let m ← m.writeAccess s addr (bytes.take l)
    m.addressSpaceWrite (addr + l) (bytes.drop l)
  else some m
termination_by bytes.length
decreasing_by
  rw [List.length_drop]
  omega

end Machine

end Vin64.Vx64
