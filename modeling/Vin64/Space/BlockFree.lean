import Vin64.Space.Protect

/-!
# What freeing a range of a region means

`Frees` says that a call of `vmfree` reserves the addresses of the range and leaves blocks that
lie on page boundaries.  `FreeOk` is a condition on the blocks of the region before the call.
-/

namespace Vin64.Space

open Vin64.Utils Vin64.Utils.Dllist Vin64.Lib

/-- The attribute word with the state `MEM_RESERVE`. -/
def reserve (attr : BitVec 32) : BitVec 32 := setField WVM_STATE_MASK MEM_RESERVE attr

/-- The blocks start and end on page boundaries. -/
def PageAligned (bs : List VMBlock) : Prop :=
  ∀ b ∈ bs, b.base % 0x1000 = 0 ∧ (b.base + b.size) % 0x1000 = 0

namespace VMRegion

/-- The call returns 0, reserves exactly the addresses of the range, and leaves blocks that tile
the region with page-aligned boundaries. -/
def Frees (r : VMRegion) (base size : Nat) : Prop :=
  ∃ r', r.vmfree base size = some (0, r') ∧
    (∀ a, r.base ≤ a → a < r.base + r.size → r'.attrAt a = (r.attrAt a).map fun attr =>
      if base ≤ a ∧ a < base + size then reserve attr else attr) ∧
    Extent.Tiles r.base r'.blocks.toList (r.base + r.size) ∧ PageAligned r'.blocks.toList

/-- The second block points back to the first one. -/
def BackLink (r : VMRegion) : Prop :=
  ∃ f n, r.blocks.deref r.blocks.first = some f ∧ r.blocks.deref f.next = some n ∧
    n.prev = r.blocks.first

/-- The call reserves the `w` addresses from the base on, in the block `e`.  That is right when
they end with a page and where they differ from the range nothing is to be done. -/
def CutOk (bs : List VMBlock) (e : VMBlock) (base size w : Nat) : Prop :=
  w ≤ Extent.stop e - base ∧ w % 0x1000 = 0 ∧ PageAligned bs ∧
    ∀ b ∈ bs, ∀ a, Extent.Covers b a →
      ¬ ((base ≤ a ∧ a < base + w) ↔ (base ≤ a ∧ a < base + size)) → reserve b.attr = b.attr

/-- The call makes one block of all blocks but the last one and reserves it.  That is right when
the range starts with the region and all these blocks are to show what the first one shows
then. -/
def MergeOk (r : VMRegion) (e : VMBlock) (base size : Nat) : Prop :=
  base = r.base ∧ (2 < r.shown.length → r.BackLink) ∧
    (∀ b ∈ r.shown.dropLast, ∀ a, Extent.Covers b a →
      (if a < base + size then reserve b.attr else b.attr) = reserve e.attr) ∧
    ∀ z ∈ r.shown.getLast?, PageAligned [z] ∧ (z.base < base + size → reserve z.attr = z.attr)

/-- The condition under which `vmfree` keeps its contract; `e` and `t` are the blocks of the
first and of the last address of the range. -/
def FreeOk (r : VMRegion) (base size : Nat) : Prop :=
  ∃ e ∈ r.shown, ∃ t ∈ r.shown, Extent.Covers e base ∧ Extent.Covers t (base + size - 1) ∧
    Extent.stop t < 2 ^ 64 ∧
    let gap := base + size - 1 - t.base
    if gap ≠ 0 then CutOk r.shown e base size gap
    else if t = e then CutOk r.shown e base size (Extent.stop e - base)
    else r.MergeOk e base size

end VMRegion

end Vin64.Space
