import Vin64.Vx64.PhysMap
import Vin64.Vx64.Topology

/-!
# The dispatch of guest addresses (`vx64/qemu/exec.c`)

The listener of an address space maps the pages of every section.  A page that a section does not
fill, or fills with bytes that are not aligned in its region, gets a `subpage_t`, which has a section
for each byte.  Sums of addresses do not overflow: guest addresses have 52 bits at most.
-/

namespace Vin64.Vx64

/-- `subpage_t`; the region of a section knows it by its index. -/
structure Subpage where
  base : Nat
  subSection : Nat → Nat

/-- The loop of `subpage_register`. -/
def Subpage.setSections (mmio : Subpage) (start stop sectionIndex : Nat) : Subpage :=
  { mmio with
    subSection := fun idx =>
      if start ≤ idx ∧ idx ≤ stop then sectionIndex else mmio.subSection idx }

/-- `AddressSpaceDispatch`, with the globals `phys_map` and `phys_sections`. -/
structure AddressSpaceDispatch where
  physMap : PhysMap
  physSections : List MemoryRegionSection
  subpages : List Subpage

/-- `phys_section_unassigned`: `core_begin` adds this section first. -/
def PHYS_SECTION_UNASSIGNED : Nat := 0

/-- `dummy_section` -/
def dummySection (mr : SectionRegion) : MemoryRegionSection :=
  ⟨mr, 0, 18446744073709551615, 0, false⟩

namespace AddressSpaceDispatch

/-- `mem_begin`, then `core_begin`.  The subpages are freed. -/
def memBegin (d : AddressSpaceDispatch) : AddressSpaceDispatch :=
  ⟨d.physMap.reset, [.ioMemUnassigned, .ioMemNotdirty, .ioMemRom, .ioMemWatch].map dummySection, []⟩

/-- `phys_section_add` -/
def physSectionAdd (d : AddressSpaceDispatch) (s : MemoryRegionSection) :
    Nat × AddressSpaceDispatch :=
  (d.physSections.length % 65536, { d with physSections := d.physSections ++ [s] })

def pageSet (d : AddressSpaceDispatch) (index nb leaf : Nat) : Option AddressSpaceDispatch :=
  (physPageSet PHYS_SECTION_UNASSIGNED d.physMap index nb leaf).map ({ d with physMap := · })

/-- `phys_page_find` -/
def pageFind (d : AddressSpaceDispatch) (index : Nat) : Option MemoryRegionSection :=
  d.physSections[physPageFind PHYS_SECTION_UNASSIGNED d.physMap index]?

/-- `subpage_init`; what it registers is not RAM. -/
def subpageInit (d : AddressSpaceDispatch) (base : Nat) : AddressSpaceDispatch :=
  { d with subpages := d.subpages ++ [⟨base, fun _ => PHYS_SECTION_UNASSIGNED⟩] }

end AddressSpaceDispatch

section
variable (isRam : Nat → Bool)

/-- `memory_region_is_ram`: the fixed regions are not RAM. -/
def memoryRegionIsRam : SectionRegion → Bool
  | .region mr => isRam mr
  | _ => false

/-- `subpage_register` for the subpage at `index`; the value -1 is not looked at. -/
def subpageRegister (d : AddressSpaceDispatch) (index start stop sectionIndex : Nat) :
    Option AddressSpaceDispatch := do
  if start ≥ 4096 ∨ stop ≥ 4096 then some d
  else
    let s ← d.physSections[sectionIndex]?
    let (sectionIndex, d) :=
      if memoryRegionIsRam isRam s.mr then d.physSectionAdd { s with mr := .ioMemSubpageRam }
      else (sectionIndex, d)
    some { d with subpages := d.subpages.modify index (·.setSections start stop sectionIndex) }

/-- The subpage at `base`, which is made when the page is unassigned. -/
def subpageAt (d : AddressSpaceDispatch) (base : Nat) : Option (Nat × AddressSpaceDispatch) := do
  let existing ← d.pageFind (base / 4096)
  match existing.mr with
  | .subpage index => some (index, d)
  | .ioMemUnassigned =>
    let index := d.subpages.length
    let (leaf, d) := (d.subpageInit base).physSectionAdd ⟨.subpage index, 0, 4096, base, false⟩
    let d ← d.pageSet (base / 4096) 1 leaf
    some (index, d)
  | _ => none

/-- `register_subpage` -/
def registerSubpage (d : AddressSpaceDispatch) (s : MemoryRegionSection) :
    Option AddressSpaceDispatch := do
  let (index, d) ← subpageAt d (s.offsetWithinAddressSpace / 4096 * 4096)
  let start := s.offsetWithinAddressSpace % 4096
  let stop := (start + s.size + 18446744073709551615) % 18446744073709551616
  let (sectionIndex, d) := d.physSectionAdd s
  subpageRegister isRam d index start (stop % 4294967296) sectionIndex

/-- `register_multipage` -/
def registerMultipage (d : AddressSpaceDispatch) (s : MemoryRegionSection) :
    Option AddressSpaceDispatch :=
  let (sectionIndex, d) := d.physSectionAdd s
  if s.size = 0 then none
  else d.pageSet (s.offsetWithinAddressSpace / 4096) (s.size / 4096) sectionIndex

/-- The section without its first `size` bytes. -/
def MemoryRegionSection.skip (s : MemoryRegionSection) (size : Nat) : MemoryRegionSection :=
  { s with
    size := s.size - size
    offsetWithinAddressSpace := s.offsetWithinAddressSpace + size
    offsetWithinRegion := s.offsetWithinRegion + size }

/-- The loop of `mem_add`, and what follows it. -/
def memAddPages (d : AddressSpaceDispatch) (remain : MemoryRegionSection) :
    Option AddressSpaceDispatch :=
  if remain.size ≥ 4096 then
    if remain.offsetWithinRegion % 4096 ≠ 0 then do
      let d ← registerSubpage isRam d { remain with size := 4096 }
      memAddPages d (remain.skip 4096)
    else do
      let d ← registerMultipage d { remain with size := remain.size / 4096 * 4096 }
      memAddPages d (remain.skip (remain.size / 4096 * 4096))
  else if remain.size ≠ 0 then registerSubpage isRam d remain
  else some d
termination_by remain.size
decreasing_by
  · simp only [MemoryRegionSection.skip]
    omega
  · simp only [MemoryRegionSection.skip]
    omega

/-- `mem_add` -/
def memAdd (d : AddressSpaceDispatch) (s : MemoryRegionSection) : Option AddressSpaceDispatch :=
  if s.offsetWithinAddressSpace % 4096 ≠ 0 ∨ s.size < 4096 then do
    let size := min ((s.offsetWithinAddressSpace + 4095) / 4096 * 4096 - s.offsetWithinAddressSpace)
      s.size
    let d ← registerSubpage isRam d { s with size := size }
    memAddPages isRam d (s.skip size)
  else memAddPages isRam d s

/-- The listener has no callbacks but these. -/
def AddressSpaceDispatch.call (d : AddressSpaceDispatch) :
    ListenerCall → Option AddressSpaceDispatch
  | .regionAdd s | .regionNop s => memAdd isRam d s
  | _ => some d

/-- The calls between `begin` and `commit`. -/
def AddressSpaceDispatch.update (d : AddressSpaceDispatch) (calls : List ListenerCall) :
    Option AddressSpaceDispatch :=
  calls.foldlM (AddressSpaceDispatch.call isRam) d.memBegin

end

/-- `memory_region_section_addr` -/
def memoryRegionSectionAddr (s : MemoryRegionSection) (addr : Nat) : Int :=
  addr - s.offsetWithinAddressSpace + s.offsetWithinRegion

/-- The region that an access reaches, and the offset in it: for a subpage, what `subpage_read` and
`subpage_write` lead to. -/
def AddressSpaceDispatch.locate (d : AddressSpaceDispatch) (addr : Nat) :
    Option (SectionRegion × Int) := do
  let s ← d.pageFind (addr / 4096)
  match s.mr with
  | .subpage index =>
    let mmio ← d.subpages[index]?
    let addr := memoryRegionSectionAddr s addr
    let s ← d.physSections[mmio.subSection (addr.toNat % 4096)]?
    some (s.mr, addr + mmio.base - s.offsetWithinAddressSpace + s.offsetWithinRegion)
  | mr => some (mr, memoryRegionSectionAddr s addr)

end Vin64.Vx64
