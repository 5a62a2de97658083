import Vin64.Space.AddressSpace
import Vin64.Lib.Run
import Vin64.Utils.Proofs.Layout

/-!
# Callers of the address space

The state of a caller is the address space and the regions it was given and has not freed.
The caller marks every region it gets, as `vos.cpp` does.
-/

namespace Vin64.Space

open Vin64.Utils Vin64.Lib

structure Sections where
  space : AddressSpace
  live : List Nat

inductive SectionCall where
  | alloc (base size : Nat) (top : Bool)
  | free (base : Nat)
deriving Repr, DecidableEq

namespace Sections

/-- `attr.u32 |= MEM_PRIVATE|MEM_RESERVE` -/
def mark (l : AddressSpace) (p : Ptr) : Option AddressSpace :=
  l.modify p fun r => { r with val := { r.val with
    attr := r.val.attr ||| (MEM_PRIVATE ||| MEM_RESERVE) } }

/-- A call and what the caller does after it; `none` when the call follows a null or
deleted link. -/
def step (s : Sections) : SectionCall → Option Sections
  | .alloc base size top => do
    let (p, l) ← s.space.allocSectionAddress base size top
    match p with
    | none => return { s with space := l }
    | some a => do
      let l ← mark l (some a)
      return ⟨l, a :: s.live⟩
  | .free base => do
    let fit ← s.space.findSectionAddress base true
    let (rc, l) ← s.space.freeSectionAddress base
    if rc = 0 then return ⟨l, s.live.filter fun a => some a ≠ fit⟩
    else return { s with space := l }

/-- The state after `init(room)`. -/
def start (room : Nat) : Option Sections := do
  let l ← AddressSpace.init room
  return ⟨l, []⟩

/-- The region at an address of the caller's. -/
def region (s : Sections) (a : Nat) : Option VMRegion := (s.space.deref (some a)).map Node.val

/-- The live regions are regions of the space, lie in it and are pairwise disjoint. -/
def LiveDisjoint (room : Nat) (s : Sections) : Prop :=
  (∀ a ∈ s.live, ∃ r, s.region a = some r ∧ r.base + r.size ≤ room) ∧
    ∀ a ∈ s.live, ∀ b ∈ s.live, a ≠ b → ∀ r t, s.region a = some r → s.region b = some t →
      r.base + r.size ≤ t.base ∨ t.base + t.size ≤ r.base

/-- What one call leaves of the regions that stay live. -/
def KeepsLive (s t : Sections) : Prop :=
  ∀ a ∈ s.live, a ∈ t.live → t.region a = s.region a

/-- The regions tile `[0, room)`, none is empty, and `_last` is the last one. -/
def TilesRoom (room : Nat) (s : Sections) : Prop :=
  Extent.Tiles 0 s.space.toList room ∧ (∀ r ∈ s.space.toList, 0 < r.size) ∧
    (s.space.deref s.space.last).map Node.val = s.space.toList.getLast?

end Sections

/-! ## Conditions on a call -/

namespace AddressSpace

/-- The regions in the order in which `allocSectionAddress` looks at them. -/
def searchWalk (l : AddressSpace) (top : Bool) : Nat → Ptr → List VMRegion
  | 0, _ => []
  | _ + 1, none => []
  | fuel + 1, some p =>
    match l.deref (some p) with
    | none => []
    | some n => n.val :: searchWalk l top fuel (xnext top n)

/-- All tests of the search loop. -/
def chosen (base required : Nat) (r : VMRegion) : Bool :=
  fits required r ∧ (base ≠ 0 → r.base ≤ base ∧ base ≤ add64 r.base r.size ∧
    add64 base required < add64 r.base r.size)

/-- The region a call would split. -/
def candidate (l : AddressSpace) (base size : Nat) (top : Bool) : Option VMRegion :=
  let top := if base ≠ 0 then false else top
  (searchWalk l top (l.fresh + 1) (xfrom l top)).find?
    (chosen base (alignBig (alignBig size VMBLOCK_SIZE_ALIGN) VMBLOCK_AT_ALIGN))

end AddressSpace

open AddressSpace

namespace Sections

/-- The end of the wanted range does not wrap. -/
def AllocInRange (s : Sections) (base size : Nat) (top : Bool) : Prop :=
  let required := alignBig (alignBig size VMBLOCK_SIZE_ALIGN) VMBLOCK_AT_ALIGN
  base &&& (VMBLOCK_AT_ALIGN - 1) = 0 → ∀ r, s.space.candidate base size top = some r →
    base ≠ 0 → base + required < 2 ^ 64

/-- The wanted size is not zero and, without a base, does not fill the region. -/
def AllocNonempty (s : Sections) (base size : Nat) (top : Bool) : Prop :=
  let required := alignBig (alignBig size VMBLOCK_SIZE_ALIGN) VMBLOCK_AT_ALIGN
  base &&& (VMBLOCK_AT_ALIGN - 1) = 0 → ∀ r, s.space.candidate base size top = some r →
    0 < required ∧ (base = 0 → required ≠ r.size)

/-- Nothing is freed, or the first region of the space. -/
def FreeHead (s : Sections) (base : Nat) : Prop :=
  base &&& (VMBLOCK_AT_ALIGN - 1) = 0 → (∀ r ∈ s.space.toList, r.base ≠ base) ∨ base = 0

/-- Nothing is freed, or the first region of the space while no other one is live. -/
def FreeAlone (s : Sections) (base : Nat) : Prop :=
  base &&& (VMBLOCK_AT_ALIGN - 1) = 0 → (∀ r ∈ s.space.toList, r.base ≠ base) ∨
    base = 0 ∧ ∀ a ∈ s.live, s.space.first = some a

instance (s : Sections) (base size : Nat) (top : Bool) : Decidable (s.AllocInRange base size top) :=
  inferInstanceAs (Decidable (base &&& (VMBLOCK_AT_ALIGN - 1) = 0 →
    ∀ r ∈ s.space.candidate base size top, base ≠ 0 →
      base + alignBig (alignBig size VMBLOCK_SIZE_ALIGN) VMBLOCK_AT_ALIGN < 2 ^ 64))

instance (s : Sections) (base size : Nat) (top : Bool) :
    Decidable (s.AllocNonempty base size top) :=
  inferInstanceAs (Decidable (base &&& (VMBLOCK_AT_ALIGN - 1) = 0 →
    ∀ r ∈ s.space.candidate base size top,
      0 < alignBig (alignBig size VMBLOCK_SIZE_ALIGN) VMBLOCK_AT_ALIGN ∧
        (base = 0 → alignBig (alignBig size VMBLOCK_SIZE_ALIGN) VMBLOCK_AT_ALIGN ≠ r.size)))

instance (s : Sections) (base : Nat) : Decidable (s.FreeHead base) :=
  inferInstanceAs (Decidable (_ → _ ∨ _))

instance (s : Sections) (base : Nat) : Decidable (s.FreeAlone base) :=
  inferInstanceAs (Decidable (_ → _ ∨ _ ∧ _))

/-- The condition under which a call keeps the live regions apart. -/
def LiveOk (s : Sections) : SectionCall → Prop
  | .alloc base size top => s.AllocInRange base size top
  | .free base => s.FreeAlone base

/-- The condition under which a call keeps the tiling. -/
def TilesOk (s : Sections) : SectionCall → Prop
  | .alloc base size top => s.AllocInRange base size top ∧ s.AllocNonempty base size top
  | .free base => s.FreeHead base

instance (s : Sections) : DecidablePred s.LiveOk
  | .alloc base size top => inferInstanceAs (Decidable (s.AllocInRange base size top))
  | .free base => inferInstanceAs (Decidable (s.FreeAlone base))

instance (s : Sections) : DecidablePred s.TilesOk
  | .alloc base size top =>
    inferInstanceAs (Decidable (s.AllocInRange base size top ∧ s.AllocNonempty base size top))
  | .free base => inferInstanceAs (Decidable (s.FreeHead base))

end Sections

end Vin64.Space
