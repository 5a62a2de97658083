import Vin64.Lib.Ranges

/-!
# The view of guest physical memory (`vx64/qemu/memory.c`)

An `Int128` is an exact integer: addresses and sizes have 65 bits, and regions are not nested so
deep that their sums leave 128.  A region is known by its address `mr`; the tree is unfolded, so
an alias carries the region that it stands for.  `none` is a failed assertion.
-/

namespace Vin64.Vx64

/-- `int128_get64` -/
def int128Get64 (a : Int) : Option Nat :=
  if 0 ≤ a ∧ a < 18446744073709551616 then some a.toNat else none

structure AddrRange where
  start : Int
  size : Int
deriving Repr, DecidableEq

namespace AddrRange

def stop (r : AddrRange) : Int := r.start + r.size

def contains (range : AddrRange) (addr : Int) : Bool := addr ≥ range.start && addr < range.stop

def intersects (r1 r2 : AddrRange) : Bool := r1.contains r2.start || r2.contains r1.start

def intersection (r1 r2 : AddrRange) : AddrRange :=
  let start := max r1.start r2.start
  let stop := min r1.stop r2.stop
  ⟨start, stop - start⟩

end AddrRange

/-- The members of a `MemoryRegion` that rendering reads. -/
structure RegionFields where
  mr : Nat
  addr : BitVec 64
  size : Int
  enabled : Bool
  terminates : Bool
  readable : Bool
  readonly : Bool
  dirtyLogMask : BitVec 8
deriving Repr, DecidableEq

/-- A region with an alias does not look at its subregions.  These are in the order of the
queue. -/
inductive MemoryRegion where
  | container (f : RegionFields) (subregions : List MemoryRegion)
  | aliasOf (f : RegionFields) (target : MemoryRegion) (aliasOffset : BitVec 64)

def MemoryRegion.fields : MemoryRegion → RegionFields
  | .container f _ => f
  | .aliasOf f _ _ => f

structure FlatRange where
  mr : Nat
  offsetInRegion : BitVec 64
  addr : AddrRange
  dirtyLogMask : BitVec 8
  readable : Bool
  readonly : Bool
deriving Repr, DecidableEq

abbrev FlatView := List FlatRange

/-! ## Rendering -/

/-- The range of a region that terminates. -/
def RegionFields.flatRange (f : RegionFields) (readonly : Bool) (offsetInRegion : BitVec 64)
    (addr : AddrRange) : FlatRange :=
  ⟨f.mr, offsetInRegion, addr, f.dirtyLogMask, f.readable, readonly⟩

/-- The loop that renders the region itself into the gaps left by the current view, from the
range that it is at. -/
def renderGaps (fr : BitVec 64 → AddrRange → FlatRange) :
    FlatView → Int → BitVec 64 → Int → Option FlatView
  | [], base, offset, remain => some (if remain ≠ 0 then [fr offset ⟨base, remain⟩] else [])
  | r :: view, base, offset, remain =>
    if remain = 0 then some (r :: view)
    else if base ≥ r.addr.stop then (renderGaps fr view base offset remain).map (r :: ·)
    else if base < r.addr.start then do
      let now := min remain (r.addr.start - base)
      let n ← int128Get64 now
      let base' := base + now
      let offset' := offset + BitVec.ofNat 64 n
      let remain' := remain - now
      let now' := min (base' + remain') r.addr.stop - base'
      let n' ← int128Get64 now'
      let rest ← renderGaps fr view (base' + now') (offset' + BitVec.ofNat 64 n') (remain' - now')
      some (fr offset ⟨base, now⟩ :: r :: rest)
    else do
      let now := min (base + remain) r.addr.stop - base
      let n ← int128Get64 now
      let rest ← renderGaps fr view (base + now) (offset + BitVec.ofNat 64 n) (remain - now)
      some (r :: rest)

/-- Where a region is, and the part of it that can be seen; `none` when nothing is rendered. -/
def RegionFields.place (f : RegionFields) (base : Int) (clip : AddrRange) :
    Option (Int × AddrRange) :=
  let base := base + f.addr.toNat
  let tmp : AddrRange := ⟨base, f.size⟩
  if f.enabled && tmp.intersects clip then some (base, tmp.intersection clip) else none

mutual

/-- `render_memory_region` -/
def renderMemoryRegion : FlatView → MemoryRegion → Int → AddrRange → Bool → Option FlatView
  | view, .container f subregions, base, clip, readonly =>
    match f.place base clip with
    | none => some view
    | some (base, clip) => do
      let readonly := readonly || f.readonly
      let view ← renderSubregions view subregions base clip readonly
      if f.terminates then
        let offsetInRegion ← int128Get64 (clip.start - base)
        renderGaps (f.flatRange readonly) view clip.start (BitVec.ofNat 64 offsetInRegion) clip.size
      else some view
  | view, .aliasOf f target aliasOffset, base, clip, readonly =>
    match f.place base clip with
    | none => some view
    | some (base, clip) =>
      renderMemoryRegion view target (base - target.fields.addr.toNat - aliasOffset.toNat) clip
        (readonly || f.readonly)

/-- Subregions are rendered in priority order. -/
def renderSubregions : FlatView → List MemoryRegion → Int → AddrRange → Bool → Option FlatView
  | view, [], _, _, _ => some view
  | view, subregion :: subregions, base, clip, readonly => do
    let view ← renderMemoryRegion view subregion base clip readonly
    renderSubregions view subregions base clip readonly

end

/-! ## Merging -/

def canMerge (r1 r2 : FlatRange) : Bool :=
  r1.addr.stop = r2.addr.start && r1.mr = r2.mr &&
    (r1.offsetInRegion.toNat : Int) + r1.addr.size = r2.offsetInRegion.toNat &&
    r1.dirtyLogMask = r2.dirtyLogMask && r1.readable = r2.readable && r1.readonly = r2.readonly

/-- The inner loop: `last` is `ranges[j-1]`, and `r` is `ranges[i]`, which grows. -/
def absorb (r last : FlatRange) : FlatView → FlatRange × FlatView
  | [] => (r, [])
  | next :: view =>
    if canMerge last next then
      absorb { r with addr := ⟨r.addr.start, r.addr.size + next.addr.size⟩ } next view
    else (r, next :: view)

theorem length_absorb_le (r last : FlatRange) (view : FlatView) :
    (absorb r last view).2.length ≤ view.length := by
  induction view generalizing r last with
  | nil => exact Nat.le_refl 0
  | cons next view ih =>
      unfold absorb
      split
      · exact Nat.le_succ_of_le (ih ..)
      · exact Nat.le_refl _

/-- `flatview_simplify` -/
def flatviewSimplify : FlatView → FlatView
  | [] => []
  | r :: view =>
    have : (absorb r r view).2.length < view.length + 1 :=
      Nat.lt_succ_of_le (length_absorb_le r r view)
    (absorb r r view).1 :: flatviewSimplify (absorb r r view).2
termination_by view => view.length

/-- `generate_memory_topology` -/
def generateMemoryTopology (mr : Option MemoryRegion) : Option FlatView := do
  let view ← match mr with
    | none => some []
    | some mr => renderMemoryRegion [] mr 0 ⟨0, 18446744073709551616⟩ false
  some (flatviewSimplify view)

/-! ## What a tree of regions means -/

/-- What an access finds. -/
structure Hit where
  mr : Nat
  offset : Int
  dirtyLogMask : BitVec 8
  readable : Bool
  readonly : Bool
deriving Repr, DecidableEq

def FlatRange.hit (r : FlatRange) (a : Int) : Hit :=
  ⟨r.mr, r.offsetInRegion.toNat + (a - r.addr.start), r.dirtyLogMask, r.readable, r.readonly⟩

def FlatView.lookup (view : FlatView) (a : Int) : Option Hit :=
  Lib.Ranges.lookup (·.addr.start) (·.addr.stop) FlatRange.hit view a

def FlatView.Sorted (view : FlatView) : Prop :=
  Lib.Ranges.Sorted (·.addr.start) (·.addr.stop) view

def RegionFields.Covers (f : RegionFields) (base a : Int) : Prop :=
  f.enabled = true ∧ base + f.addr.toNat ≤ a ∧ a < base + f.addr.toNat + f.size

instance (f : RegionFields) (base a : Int) : Decidable (f.Covers base a) :=
  inferInstanceAs (Decidable (_ ∧ _))

mutual

/-- The first subregion that an address leads to obscures the others and the region itself. -/
def MemoryRegion.resolve : MemoryRegion → Int → Bool → Int → Option Hit
  | .container f subregions, base, readonly, a =>
    if f.Covers base a then
      (resolveFirst subregions (base + f.addr.toNat) (readonly || f.readonly) a).or
        (if f.terminates then
          some ⟨f.mr, a - (base + f.addr.toNat), f.dirtyLogMask, f.readable,
            readonly || f.readonly⟩
        else none)
    else none
  | .aliasOf f target aliasOffset, base, readonly, a =>
    if f.Covers base a then
      target.resolve (base + f.addr.toNat - target.fields.addr.toNat - aliasOffset.toNat)
        (readonly || f.readonly) a
    else none

def resolveFirst : List MemoryRegion → Int → Bool → Int → Option Hit
  | [], _, _, _ => none
  | subregion :: subregions, base, readonly, a =>
    (subregion.resolve base readonly a).or (resolveFirst subregions base readonly a)

end

mutual

/-- What is rendered has a size of 64 bits; the others may have `UINT64_MAX`, which stands for all
of `int128_2_64`. -/
def MemoryRegion.Sized : MemoryRegion → Prop
  | .container f subregions =>
    0 ≤ f.size ∧ (f.terminates = true → f.size < 18446744073709551616) ∧ allSized subregions
  | .aliasOf f target _ => 0 ≤ f.size ∧ target.Sized

def allSized : List MemoryRegion → Prop
  | [] => True
  | subregion :: subregions => subregion.Sized ∧ allSized subregions

end

end Vin64.Vx64
