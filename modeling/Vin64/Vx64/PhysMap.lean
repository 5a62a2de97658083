import Mathlib.Algebra.Order.Ring.Nat

/-!
# The map of guest pages (`vx64/qemu/exec.c`)

Four levels of nodes lead from the number of a page to the index of its section.  The numbers have
52 bits at most, so that no sum of them overflows.  `none` is a failed assertion.
-/

namespace Vin64.Vx64

/-- `is_leaf` has one bit, `ptr` has 15. -/
structure PhysPageEntry where
  isLeaf : Bool
  ptr : Nat
deriving Repr, DecidableEq

def PHYS_MAP_NODE_NIL : Nat := 32767

def P_L2_LEVELS : Nat := 4

/-- `root` is `d->phys_map`; the others are the globals of the allocator, without the prefix
`phys_map_`. -/
structure PhysMap where
  root : PhysPageEntry
  nodes : Nat → Nat → PhysPageEntry
  nodesNb : Nat
  nodesNbAlloc : Nat

/-- Where an entry lies. -/
inductive EntryRef where
  | physMap
  | slot (node i : Nat)
deriving DecidableEq

namespace PhysMap

def entry (m : PhysMap) : EntryRef → PhysPageEntry
  | .physMap => m.root
  | .slot node i => m.nodes node i

def store (m : PhysMap) (e : PhysPageEntry) : EntryRef → PhysMap
  | .physMap => { m with root := e }
  | .slot node i =>
    { m with nodes := fun n j => if n = node ∧ j = i then e else m.nodes n j }

/-- `phys_map_node_reserve` -/
def nodeReserve (m : PhysMap) (nodes : Nat) : PhysMap :=
  if m.nodesNb + nodes > m.nodesNbAlloc then
    { m with nodesNbAlloc := max (max (m.nodesNbAlloc * 2) 16) (m.nodesNb + nodes) }
  else m

/-- All the entries of a node. -/
def fill (m : PhysMap) (node : Nat) (e : PhysPageEntry) : PhysMap :=
  { m with nodes := fun n j => if n = node ∧ j < 1024 then e else m.nodes n j }

/-- `phys_map_node_alloc` -/
def nodeAlloc (m : PhysMap) : Option (Nat × PhysMap) :=
  let ret := m.nodesNb % 65536
  if ret ≠ PHYS_MAP_NODE_NIL ∧ ret ≠ m.nodesNbAlloc then
    some (ret, { m with nodesNb := m.nodesNb + 1 }.fill ret ⟨false, PHYS_MAP_NODE_NIL⟩)
  else none

end PhysMap

/-- `index` and `nb` are counted on while the levels are gone through. -/
structure PageCursor where
  map : PhysMap
  index : Nat
  nb : Nat

/-- `1 << (level * L2_BITS)` -/
def levelStep (level : Nat) : Nat := 2 ^ (level * 10)

/-- One round of the loop of `phys_page_set_level`, with the call for the next level. -/
def setEntry (step leaf : Nat) (next : EntryRef → PageCursor → Option PageCursor) (lp : EntryRef)
    (c : PageCursor) : Option PageCursor :=
  if c.index % step = 0 ∧ c.nb ≥ step then
    some ⟨c.map.store ⟨true, leaf % 32768⟩ lp, c.index + step, c.nb - step⟩
  else next lp c

/-- The loop through the entries of the node at `p`. -/
def setEntries (step leaf p : Nat) (next : EntryRef → PageCursor → Option PageCursor) :
    Nat → Nat → PageCursor → Option PageCursor
  | 0, _, c => some c
  | slots + 1, lp, c =>
    if c.nb = 0 then some c
    else do
      let c ← setEntry step leaf next (.slot p lp) c
      setEntries step leaf p next slots (lp + 1) c

/-- The start of `phys_page_set_level`, which gives the entry a node if it has none. -/
def enterLevel (unassigned level : Nat) (lp : EntryRef) (m : PhysMap) : Option PhysMap :=
  let e := m.entry lp
  if e.isLeaf = false ∧ e.ptr = PHYS_MAP_NODE_NIL then do
    let (ret, m) ← m.nodeAlloc
    let m := m.store ⟨e.isLeaf, ret % 32768⟩ lp
    some (if level = 0 then m.fill (ret % 32768) ⟨true, unassigned % 32768⟩ else m)
  else some m

/-- The body of `phys_page_set_level`. -/
def setLevelWith (unassigned leaf level : Nat) (next : EntryRef → PageCursor → Option PageCursor)
    (lp : EntryRef) (c : PageCursor) : Option PageCursor := do
  let map ← enterLevel unassigned level lp c.map
  let slot := c.index / levelStep level % 1024
  setEntries (levelStep level) leaf (map.entry lp).ptr next (1024 - slot) slot { c with map := map }

/-- `phys_page_set_level`.  At level 0 every page is a whole step, and no call goes deeper. -/
def physPageSetLevel (unassigned leaf : Nat) : Nat → EntryRef → PageCursor → Option PageCursor
  | 0 => setLevelWith unassigned leaf 0 fun _ _ => none
  | level + 1 =>
    setLevelWith unassigned leaf (level + 1) (physPageSetLevel unassigned leaf level)

/-- `phys_page_set` -/
def physPageSet (unassigned : Nat) (m : PhysMap) (index nb leaf : Nat) : Option PhysMap :=
  (physPageSetLevel unassigned leaf (P_L2_LEVELS - 1) .physMap
    ⟨m.nodeReserve (3 * P_L2_LEVELS), index, nb⟩).map (·.map)

/-- The loop of `phys_page_find`, with the levels that are left. -/
def findLevels (unassigned : Nat) (m : PhysMap) (index : Nat) : Nat → PhysPageEntry → Nat
  | 0, lp => lp.ptr
  | i + 1, lp =>
    if lp.isLeaf then lp.ptr
    else if lp.ptr = PHYS_MAP_NODE_NIL then unassigned
    else findLevels unassigned m index i (m.nodes lp.ptr (index / levelStep i % 1024))

/-- `phys_page_find`, up to the index of the section. -/
def physPageFind (unassigned : Nat) (m : PhysMap) (index : Nat) : Nat :=
  findLevels unassigned m index P_L2_LEVELS m.root

/-- `destroy_all_mappings`, and the end of `mem_begin`. -/
def PhysMap.reset (m : PhysMap) : PhysMap :=
  { m with root := ⟨false, PHYS_MAP_NODE_NIL⟩, nodesNb := 0 }

end Vin64.Vx64
