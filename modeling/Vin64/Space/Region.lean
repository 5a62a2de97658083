import Vin64.Utils.Dllist
import Vin64.Lib.Tiling

/-!
# Regions of the address space and their blocks (`vos/space.h`)

A `VMRegion` keeps a `dllist` of `VMBlock`s that carry the attributes of its parts.
The list is empty until the first call that changes attributes.  Addresses and sizes
are `uint64_t`: additions and subtractions wrap modulo `2^64`.
-/

namespace Vin64.Space

open Vin64.Utils Vin64.Lib

/-- `uint64_t` addition -/
def add64 (a b : Nat) : Nat := (a + b) % 2 ^ 64

/-- `uint64_t` subtraction -/
def sub64 (a b : Nat) : Nat := (2 ^ 64 - b + a) % 2 ^ 64

theorem add64_eq {a b : Nat} (h : a + b < 2 ^ 64) : add64 a b = a + b :=
  Nat.mod_eq_of_lt h

theorem sub64_eq {a b : Nat} (h : b ≤ a) (ha : a < 2 ^ 64) : sub64 a b = a - b := by
  unfold sub64; omega

theorem sub64_sub64_one {s t : Nat} (h : t + 1 ≤ s) (hs : s < 2 ^ 64) :
    sub64 (sub64 s t) 1 = s - (t + 1) := by
  have hst : sub64 s t = s - t := sub64_eq (by omega) hs
  have hone : sub64 (s - t) 1 = s - t - 1 := sub64_eq (by omega) (by omega)
  rw [hst, hone]; omega

def WVM_PROTECT_MASK : BitVec 32 := 0xFFF#32
def WVM_TYPE_MASK : BitVec 32 := 0xF0000#32
def WVM_STATE_MASK : BitVec 32 := 0xF000#32

def MEM_RESERVE : BitVec 32 := 0x2000#32

/-- `VMBlock`; `attr` is `attr.u32`. -/
structure VMBlock where
  base : Nat
  size : Nat
  attr : BitVec 32
deriving Repr, DecidableEq

/-- `VMRegion`; `blocks` is its `dllist<VMBlock>` part. -/
structure VMRegion where
  base : Nat
  size : Nat
  attr : BitVec 32
  blocks : Dllist VMBlock

instance : Extent VMBlock := ⟨VMBlock.base, VMBlock.size⟩

instance : Extent VMRegion := ⟨VMRegion.base, VMRegion.size⟩

@[simp] theorem VMBlock.extent_base (b : VMBlock) : Extent.base b = b.base := rfl

@[simp] theorem VMBlock.extent_size (b : VMBlock) : Extent.size b = b.size := rfl

@[simp] theorem VMBlock.extent_stop (b : VMBlock) : Extent.stop b = b.base + b.size := rfl

/-- `attr.u32 & WVM_PROTECT_MASK` -/
def VMBlock.prot (b : VMBlock) : BitVec 32 := b.attr &&& WVM_PROTECT_MASK

namespace VMRegion

/-- The loop of `merge`.  It follows the members `_first` and `_last` of the region, not
the parameters of `merge`. -/
def mergeLoop : Nat → Dllist VMBlock → Option (Dllist VMBlock)
  | 0, _ => none
  | fuel + 1, l => do
    let f ← l.deref l.first
    if f.next = l.last then return l
    let n ← l.deref f.next
    let l ← l.modify l.first fun f =>
      { f with val := { f.val with size := add64 f.val.size n.val.size } }
    let l ← l.unlink f.next
    mergeLoop fuel l

/-- `merge(first, last)`; the result is the pointer it returns. -/
def merge (l : Dllist VMBlock) (first _last : Ptr) : Option (Ptr × Dllist VMBlock) := do
  let l ← mergeLoop (l.fresh + 1) l
  return (first, l)

/-- First loop of `mergeSameProtect`: merge all next. -/
def mergeNextLoop : Nat → Dllist VMBlock → Ptr → Option (Dllist VMBlock)
  | 0, _, _ => none
  | fuel + 1, l, p => do
    let q ← l.deref p
    if q.next = none then return l
    let n ← l.deref q.next
    if n.val.prot ≠ q.val.prot then return l
    let l ← l.modify p fun q =>
      { q with val := { q.val with size := add64 q.val.size n.val.size } }
    let l ← l.unlink q.next
    mergeNextLoop fuel l p

/-- Second loop of `mergeSameProtect`: merge all prev.  The attribute it compares with
is the one of `p->_next`. -/
def mergePrevLoop : Nat → Dllist VMBlock → Ptr → Option (Dllist VMBlock)
  | 0, _, _ => none
  | fuel + 1, l, p => do
    let q ← l.deref p
    if q.prev = none then return l
    let n ← l.deref q.next
    if n.val.prot ≠ q.val.prot then return l
    let v ← l.deref q.prev
    let l ← l.modify p fun q =>
      { q with val := { q.val with size := add64 q.val.size v.val.size } }
    let l ← l.modify p fun q => { q with val := { q.val with base := v.val.base } }
    let l ← l.unlink q.prev
    mergePrevLoop fuel l p

def mergeSameProtect (l : Dllist VMBlock) (p : Ptr) : Option (Dllist VMBlock) := do
  let l ← mergeNextLoop (l.fresh + 1) l p
  mergePrevLoop (l.fresh + 1) l p

/-- `split(fit, want, vb2)`; the results are `vb2[0]` and `vb2[1]`. -/
def split (l : Dllist VMBlock) (fit : Ptr) (want : Nat) :
    Option ((Ptr × Ptr) × Dllist VMBlock) := do
  let f ← l.deref fit
  if want = f.val.size then return ((fit, none), l)
  let (cut, l) := l.new f.val
  -- `*cut = *fit` copies the links as well
  let l ← l.modify (some cut) fun _ => f
  let l ← l.modify (some cut) fun c =>
    { c with val := { c.val with base := add64 f.val.base want } }
  let l ← l.modify (some cut) fun c =>
    { c with val := { c.val with size := sub64 f.val.size want } }
  let l ← l.modify fit fun f => { f with val := { f.val with size := want } }
  let l ← l.linkNext fit (some cut)
  return ((fit, some cut), l)

/-- The search loop of `findBlockL2R`. -/
def findLoop (l : Dllist VMBlock) (base : Nat) (equl : Bool) : Nat → Ptr → Option Ptr
  | 0, _ => none
  | _ + 1, none => some none
  | fuel + 1, some p => do
    let fit ← l.deref (some p)
    if fit.val.base > base then return none
    if equl then
      if fit.val.base ≠ base then findLoop l base equl fuel fit.next
      else return some p
    else
      if add64 fit.val.base fit.val.size ≤ base then findLoop l base equl fuel fit.next
      else return some p

/-- `findBlockL2R(base, equl, first)`; `first` defaults to null. -/
def findBlockL2R (l : Dllist VMBlock) (base : Nat) (equl : Bool) (first : Ptr) : Option Ptr :=
  findLoop l base equl (l.fresh + 1) (if first ≠ none then first else l.first)

/-- The search loop of `findBlockR2L`, with the tests of `findBlockL2R`. -/
def findLoopR2L (l : Dllist VMBlock) (base : Nat) (equl : Bool) : Nat → Ptr → Option Ptr
  | 0, _ => none
  | _ + 1, none => some none
  | fuel + 1, some p => do
    let fit ← l.deref (some p)
    if fit.val.base > base then return none
    if equl then
      if fit.val.base ≠ base then findLoopR2L l base equl fuel fit.prev
      else return some p
    else
      if add64 fit.val.base fit.val.size ≤ base then findLoopR2L l base equl fuel fit.prev
      else return some p

/-- `findBlockR2L(base, equl, last)`; `last` defaults to null. -/
def findBlockR2L (l : Dllist VMBlock) (base : Nat) (equl : Bool) (last : Ptr) : Option Ptr :=
  findLoopR2L l base equl (l.fresh + 1) (if last ≠ none then last else l.last)

def initBlock (r : VMRegion) : Option VMRegion :=
  if r.blocks.first = none then do
    let (p, l) := r.blocks.new ⟨r.base, r.size, r.attr⟩
    let l ← l.setFirst p
    return { r with blocks := l }
  else some r

/-- In `vmprotect` and `vmfree`: split `first` at `base`. -/
def cutFront (l : Dllist VMBlock) (first : Ptr) (base : Nat) :
    Option (Ptr × Dllist VMBlock) := do
  let f ← l.deref first
  let gap := sub64 base f.val.base
  if gap ≠ 0 then
    let (vm2, l) ← split l first gap
    return (vm2.2, l)
  else return (first, l)

/-- In `vmprotect`: split `last` behind `tbase`. -/
def cutBack (l : Dllist VMBlock) (last : Ptr) (tbase : Nat) :
    Option (Ptr × Dllist VMBlock) := do
  let t ← l.deref last
  let gap := sub64 (sub64 (add64 t.val.base t.val.size) tbase) 1
  if gap ≠ 0 then
    let (vm2, l) ← split l last (sub64 t.val.size gap)
    return (vm2.1, l)
  else return (last, l)

/-- In `vmprotect` and `vmfree`: `if( first != last ) first = merge( first, last->_next );` -/
def mergeRange (l : Dllist VMBlock) (first last : Ptr) : Option (Ptr × Dllist VMBlock) := do
  if first ≠ last then
    let t ← l.deref last
    merge l first t.next
  else return (first, l)

/-- In `vmprotect`: merge the range, set its protection and merge its neighbours. -/
def setProtect (l : Dllist VMBlock) (first last : Ptr) (prot : BitVec 32) :
    Option (Dllist VMBlock) := do
  let (first, l) ← mergeRange l first last
  let l ← l.modify first fun f =>
    { f with val := { f.val with attr := f.val.attr &&& ~~~WVM_PROTECT_MASK } }
  let l ← l.modify first fun f => { f with val := { f.val with attr := f.val.attr ||| prot } }
  mergeSameProtect l first

/-- `vmprotect(base, size, prot, &old)`: the value returned, `*old` and the region. -/
def vmprotect (r : VMRegion) (base size : Nat) (prot old : BitVec 32) :
    Option (Int × BitVec 32 × VMRegion) := do
  let prot := prot &&& WVM_PROTECT_MASK
  let r ← r.initBlock
  let tbase := sub64 (add64 base size) 1
  let first ← findBlockL2R r.blocks base false none
  if first = none then return (-1, old, r)
  let f ← r.blocks.deref first
  let old := f.val.attr &&& WVM_PROTECT_MASK
  let (first, l) ← cutFront r.blocks first base
  let last ← findBlockL2R l tbase false first
  if last = none then return (-1, old, { r with blocks := l })
  let (last, l) ← cutBack l last tbase
  let l ← setProtect l first last prot
  return (0, old, { r with blocks := l })

/-- In `vmfree`: split `first` where `tbase` lies in `last`.  `last` was found before the split
at the base, and it is `first` that is split. -/
def cutLast (l : Dllist VMBlock) (first last : Ptr) (tbase : Nat) :
    Option (Ptr × Dllist VMBlock) := do
  let t ← l.deref last
  let gap := sub64 tbase t.val.base
  if gap ≠ 0 then
    let (vm2, l) ← split l first gap
    return (vm2.1, l)
  else return (last, l)

/-- In `vmfree`: merge the range and set its state. -/
def setReserve (l : Dllist VMBlock) (first last : Ptr) : Option (Dllist VMBlock) := do
  let (first, l) ← mergeRange l first last
  let l ← l.modify first fun f =>
    { f with val := { f.val with attr := f.val.attr &&& ~~~WVM_STATE_MASK } }
  l.modify first fun f => { f with val := { f.val with attr := f.val.attr ||| MEM_RESERVE } }

/-- `vmfree(base, size)`: the value returned and the region. -/
def vmfree (r : VMRegion) (base size : Nat) : Option (Int × VMRegion) := do
  let r ← r.initBlock
  let tbase := sub64 (add64 base size) 1
  let first ← findBlockL2R r.blocks base false none
  let last ← findBlockL2R r.blocks tbase false first
  let (first, l) ← cutFront r.blocks first base
  let (last, l) ← cutLast l first last tbase
  let l ← setReserve l first last
  return (0, { r with blocks := l })

end VMRegion

end Vin64.Space
