import Vin64.Space.Sections

/-!
# What a call of the address space promises

The promises of `allocSectionAddress` and `freeSectionAddress`, in a space with any history,
and the conditions under which they are kept.  Sizes are rounded in the numbers here; the code
rounds them in 64 bits.
-/

namespace Vin64.Space

open Vin64.Utils Vin64.Lib

/-- `v` rounded up to a multiple of `a` -/
def roundUp (v a : Nat) : Nat := (v + (a - 1)) / a * a

namespace VMRegion

def IsFree (r : VMRegion) : Prop := r.attr &&& WVM_TYPE_MASK = MEM_FREE

/-- A free region that starts on a boundary. -/
def OnBoundary (r : VMRegion) : Prop := r.IsFree ∧ r.base % VMBLOCK_AT_ALIGN = 0

/-- `[base, base + size)` lies in the region. -/
def Contains (r : VMRegion) (base size : Nat) : Prop :=
  r.base ≤ base ∧ base + size ≤ r.base + r.size

instance (r : VMRegion) : Decidable r.IsFree := inferInstanceAs (Decidable (_ = _))

instance (r : VMRegion) : Decidable r.OnBoundary := inferInstanceAs (Decidable (_ ∧ _))

instance (r : VMRegion) (base size : Nat) : Decidable (r.Contains base size) :=
  inferInstanceAs (Decidable (_ ∧ _))

end VMRegion

open AddressSpace

namespace Sections

/-- What an allocation needs of a region: room at the base, or anywhere when it is 0. -/
def Suits (base required : Nat) (r : VMRegion) : Prop :=
  r.OnBoundary ∧ if base = 0 then required ≤ r.size else r.Contains base required

/-- Whether the address is free in the space. -/
def freeAt (l : AddressSpace) (a : Nat) : Option Bool :=
  (Extent.lookup l.toList a).map fun r => decide (r.attr &&& WVM_TYPE_MASK = MEM_FREE)

/-- No allocation wraps; freeing is not restricted. -/
def InRange (s : Sections) : SectionCall → Prop
  | .alloc base size top => s.AllocInRange base size top
  | .free _ => True

instance (s : Sections) : DecidablePred s.InRange
  | .alloc base size top => inferInstanceAs (Decidable (s.AllocInRange base size top))
  | .free _ => isTrue trivial

/-! ## Sizes and places -/

/-- A region that is returned is a part of a free one, and it is as large as it was asked
to be. -/
def ReturnsPart (s : Sections) (base size : Nat) (top : Bool) : Prop :=
  ∀ a l, s.space.allocSectionAddress base size top = some (some a, l) →
    ∃ n, l.deref (some a) = some n ∧ 0 < n.val.size ∧ size ≤ n.val.size ∧
      ∃ r ∈ s.space.toList, r.IsFree ∧ r.Contains n.val.base n.val.size

/-- When a region is split the size is not zero, its rounding does not wrap and a range with
a base lies in a free region. -/
def PartOk (s : Sections) (base size : Nat) (top : Bool) : Prop :=
  s.space.candidate base size top ≠ none →
    0 < size ∧ size ≤ 2 ^ 64 - VMBLOCK_AT_ALIGN ∧
      (base ≠ 0 → ∃ r ∈ s.space.toList, r.IsFree ∧
        r.Contains base (roundUp size VMBLOCK_SIZE_ALIGN))

instance (s : Sections) (base size : Nat) (top : Bool) : Decidable (s.PartOk base size top) :=
  inferInstanceAs (Decidable (_ → _ ∧ _ ∧ _))

/-- The bottom-up search finds room when there is some, at the base or in the lowest region,
and marking the result changes nothing outside the rounded range. -/
def AllocsLow (s : Sections) (base size : Nat) : Prop :=
  ∃ p l, s.space.allocSectionAddress base size false = some (p, l) ∧
    (p ≠ none ↔ ∃ r ∈ s.space.toList, Suits base (roundUp size VMBLOCK_AT_ALIGN) r) ∧
    ∀ a, p = some a → ∃ n l', l.deref p = some n ∧ mark l p = some l' ∧
      n.val.size = roundUp size VMBLOCK_SIZE_ALIGN ∧
      (if base = 0 then
        ∃ r ∈ s.space.toList, Suits 0 (roundUp size VMBLOCK_AT_ALIGN) r ∧ n.val.base = r.base ∧
          ∀ t ∈ s.space.toList, Suits 0 (roundUp size VMBLOCK_AT_ALIGN) t → r.base ≤ t.base
      else n.val.base = base) ∧
      ∀ x, ¬ (n.val.base ≤ x ∧ x < n.val.base + roundUp size VMBLOCK_AT_ALIGN) →
        freeAt l' x = freeAt s.space x

/-- The range does not end with the free region it lies in, and its end does not wrap. -/
def LowOk (s : Sections) (base size : Nat) : Prop :=
  base ≠ 0 → ∀ r ∈ s.space.toList, r.OnBoundary → roundUp size VMBLOCK_AT_ALIGN ≤ r.size →
    r.base ≤ base → base ≤ r.base + r.size →
      base + roundUp size VMBLOCK_AT_ALIGN ≠ r.base + r.size ∧
        base + roundUp size VMBLOCK_AT_ALIGN < 2 ^ 64

instance (s : Sections) (base size : Nat) : Decidable (s.LowOk base size) :=
  inferInstanceAs (Decidable (_ → _))

/-- The top-down search finds room when there is some, at the end of the highest region. -/
def AllocsHigh (s : Sections) (size : Nat) : Prop :=
  ∃ p l, s.space.allocSectionAddress 0 size true = some (p, l) ∧
    (p = none → ∀ r ∈ s.space.toList, ¬ Suits 0 (roundUp size VMBLOCK_AT_ALIGN) r) ∧
    ∀ a, p = some a → ∃ n, l.deref p = some n ∧ n.val.base % VMBLOCK_AT_ALIGN = 0 ∧
      n.val.size = roundUp size VMBLOCK_SIZE_ALIGN ∧
      ∃ r ∈ s.space.toList, Suits 0 (roundUp size VMBLOCK_AT_ALIGN) r ∧
        n.val.base + roundUp size VMBLOCK_AT_ALIGN = r.base + r.size ∧
        ∀ t ∈ s.space.toList, Suits 0 (roundUp size VMBLOCK_AT_ALIGN) t → t.base ≤ r.base

/-- No free region is left behind the split region but at the end of the space: the region is
the last one, or it is split from the top, or it is filled. -/
def LeavesNone (s : Sections) (base size : Nat) (top : Bool) : Prop :=
  let required := alignBig (alignBig size VMBLOCK_SIZE_ALIGN) VMBLOCK_AT_ALIGN
  ∀ r, s.space.candidate base size top = some r →
    s.space.toList.getLast? = some r ∨ base = 0 ∧ (top = true ∨ required = r.size)

/-- The condition on the allocations before: none wraps, and no back link passes by a free
region. -/
def HighOk (s : Sections) : SectionCall → Prop
  | .alloc base size top => s.AllocInRange base size top ∧ s.LeavesNone base size top
  | .free _ => False

/-! ## Freeing -/

/-- The base of a region that was returned and not freed. -/
def LiveAt (s : Sections) (base : Nat) : Prop :=
  ∃ a ∈ s.live, ∃ r, s.region a = some r ∧ r.base = base

/-- Freeing ends, with 0 for the base of a live region and otherwise with a negative code and
the same space. -/
def FreesLive (s : Sections) (base : Nat) : Prop :=
  ∃ rc l, s.space.freeSectionAddress base = some (rc, l) ∧ (rc = 0 ↔ s.LiveAt base) ∧
    (rc ≠ 0 → rc < 0 ∧ l = s.space)

/-- A live region is freed only at base 0, and where no region is live none starts. -/
def FreeOk (s : Sections) (base : Nat) : Prop :=
  s.LiveAt base ∧ base = 0 ∨ ¬ s.LiveAt base ∧
    (base &&& (VMBLOCK_AT_ALIGN - 1) ≠ 0 ∨ ∀ r ∈ s.space.toList, r.base ≠ base)

/-- The codes of the calls of `freeSectionAddress` one after the other. -/
def freeAll : List Nat → AddressSpace → Option (List Int × AddressSpace)
  | [], l => some ([], l)
  | base :: bases, l => do
    let (rc, l) ← freeSectionAddress l base
    let (rcs, l) ← freeAll bases l
    return (rc :: rcs, l)

/-- All calls return 0, and one free region is left. -/
def FreesWhole (room : Nat) (s : Sections) (bases : List Nat) : Prop :=
  ∃ rcs l r, freeAll bases s.space = some (rcs, l) ∧ (∀ rc ∈ rcs, rc = 0) ∧
    l.toList = [r] ∧ r.base = 0 ∧ r.size = room ∧ r.IsFree

/-- The bases of the live regions. -/
def liveBases (s : Sections) : List Nat :=
  s.live.filterMap fun a => (s.region a).map VMRegion.base

/-- An allocation that returns a region. -/
def Allocates (s : Sections) : SectionCall → Prop
  | .alloc base size top => ∃ a l, s.space.allocSectionAddress base size top = some (some a, l)
  | .free _ => False

end Sections

end Vin64.Space
