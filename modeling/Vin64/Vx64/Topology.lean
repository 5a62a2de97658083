import Vin64.Vx64.FlatView
import Mathlib.Data.Finset.Erase
import Mathlib.Data.Finset.Insert

/-!
# Updates of the memory map (`vx64/qemu/memory.c`)

When the tree of regions changes, every listener is told how the new map differs from the old one.
-/

namespace Vin64.Vx64

/-- The regions that a section can show: those of the tree, the fixed ones of `io_mem_init`, and
the region of a `subpage_t`. -/
inductive SectionRegion where
  | region (mr : Nat)
  | ioMemUnassigned
  | ioMemNotdirty
  | ioMemRom
  | ioMemWatch
  | ioMemSubpageRam
  | subpage (index : Nat)
deriving Repr, DecidableEq

structure MemoryRegionSection where
  mr : SectionRegion
  offsetWithinRegion : Nat
  size : Nat
  offsetWithinAddressSpace : Nat
  readonly : Bool
deriving Repr, DecidableEq

inductive ListenerCall where
  | regionAdd (s : MemoryRegionSection)
  | regionDel (s : MemoryRegionSection)
  | regionNop (s : MemoryRegionSection)
  | logStart (s : MemoryRegionSection)
  | logStop (s : MemoryRegionSection)
deriving Repr, DecidableEq

/-- `flatrange_equal`: the log mask may have changed. -/
def flatrangeEqual (a b : FlatRange) : Bool :=
  a.mr = b.mr && a.addr = b.addr && a.offsetInRegion = b.offsetInRegion &&
    a.readable = b.readable && a.readonly = b.readonly

/-- The section of `MEMORY_LISTENER_UPDATE_REGION`. -/
def FlatRange.section (fr : FlatRange) : Option MemoryRegionSection := do
  let size ← int128Get64 fr.addr.size
  let start ← int128Get64 fr.addr.start
  some ⟨.region fr.mr, fr.offsetInRegion.toNat, size, start, fr.readonly⟩

def updateRegion (fr : FlatRange) (callback : MemoryRegionSection → ListenerCall) :
    Option (List ListenerCall) :=
  fr.section.map fun s => [callback s]

/-- A range of both maps. -/
def updateBoth (frold frnew : FlatRange) : Option (List ListenerCall) := do
  let nop ← updateRegion frnew .regionNop
  let log ←
    if frold.dirtyLogMask ≠ 0 ∧ frnew.dirtyLogMask = 0 then updateRegion frnew .logStop
    else if frnew.dirtyLogMask ≠ 0 ∧ frold.dirtyLogMask = 0 then updateRegion frnew .logStart
    else some []
  some (nop ++ log)

/-- `address_space_update_topology_pass`, with the calls that it makes. -/
def addressSpaceUpdateTopologyPass (adding : Bool) :
    FlatView → FlatView → Option (List ListenerCall)
  | [], [] => some []
  | frold :: old, [] => do
    let calls ← if adding then some [] else updateRegion frold .regionDel
    let rest ← addressSpaceUpdateTopologyPass adding old []
    some (calls ++ rest)
  | [], frnew :: new => do
    let calls ← if adding then updateRegion frnew .regionAdd else some []
    let rest ← addressSpaceUpdateTopologyPass adding [] new
    some (calls ++ rest)
  | frold :: old, frnew :: new =>
    if frold.addr.start < frnew.addr.start ∨
        (frold.addr.start = frnew.addr.start ∧ flatrangeEqual frold frnew = false) then do
      let calls ← if adding then some [] else updateRegion frold .regionDel
      let rest ← addressSpaceUpdateTopologyPass adding old (frnew :: new)
      some (calls ++ rest)
    else if flatrangeEqual frold frnew then do
      let calls ← if adding then updateBoth frold frnew else some []
      let rest ← addressSpaceUpdateTopologyPass adding old new
      some (calls ++ rest)
    else do
      let calls ← if adding then updateRegion frnew .regionAdd else some []
      let rest ← addressSpaceUpdateTopologyPass adding (frold :: old) new
      some (calls ++ rest)
termination_by old new => old.length + new.length

/-- `address_space_update_topology`: the calls, and the new `current_map`. -/
def addressSpaceUpdateTopology (currentMap : FlatView) (root : Option MemoryRegion) :
    Option (List ListenerCall × FlatView) := do
  let newView ← generateMemoryTopology root
  let dels ← addressSpaceUpdateTopologyPass false currentMap newView
  let adds ← addressSpaceUpdateTopologyPass true currentMap newView
  some (dels ++ adds, newView)

/-! ## What a listener may rely on -/

def MemoryRegionSection.Apart (s t : MemoryRegionSection) : Prop :=
  s.offsetWithinAddressSpace + s.size ≤ t.offsetWithinAddressSpace ∨
    t.offsetWithinAddressSpace + t.size ≤ s.offsetWithinAddressSpace

instance (s t : MemoryRegionSection) : Decidable (s.Apart t) := inferInstanceAs (Decidable (_ ∨ _))

/-- A listener that holds sections: it is given one only where it holds nothing, and told only of
those that it holds. -/
def ListenerCall.apply (held : Finset MemoryRegionSection) :
    ListenerCall → Option (Finset MemoryRegionSection)
  | .regionAdd s => if ∀ t ∈ held, s.Apart t then some (insert s held) else none
  | .regionDel s => if s ∈ held then some (held.erase s) else none
  | .regionNop s | .logStart s | .logStop s => if s ∈ held then some held else none

def listen (held : Finset MemoryRegionSection) (calls : List ListenerCall) :
    Option (Finset MemoryRegionSection) := calls.foldlM ListenerCall.apply held

/-- The sections of a map. -/
def FlatView.sections (view : FlatView) : Option (List MemoryRegionSection) :=
  view.mapM FlatRange.section

end Vin64.Vx64
