import Vin64.Space.Region

/-!
# The address space (`vos/space.h`)

An `AddressSpace` is a `dllist` of `VMRegion`s.  `allocSectionAddress` searches the list
from the first or from the last region and splits the region it finds;
`freeSectionAddress` merges a region with its neighbours.
-/

namespace Vin64.Space

open Vin64.Utils Vin64.Lib

def MEM_FREE : BitVec 32 := 0x10000#32
def MEM_PRIVATE : BitVec 32 := 0x20000#32
def PAGE_NOACCESS : BitVec 32 := 0x1#32

def VMBLOCK_AT_ALIGN : Nat := 0x10000
def VMBLOCK_SIZE_ALIGN : Nat := 0x1000

/-- `__align_big(v, a)` -/
def alignBig (v a : Nat) : Nat := add64 (v / a * a) (if v % a ≠ 0 then a else 0)

/-- `AddressSpace`; the regions are the objects of its list. -/
abbrev AddressSpace := Dllist VMRegion

namespace AddressSpace

def init (room : Nat) : Option AddressSpace :=
  let (blk, l) := Dllist.empty.new ⟨0, room, MEM_FREE ||| PAGE_NOACCESS, Dllist.empty⟩
  l.setFirst blk

/-- `split(fit, want, top, vm2)`; the results are `vm2[0]` and `vm2[1]`. -/
def split (l : AddressSpace) (fit : Ptr) (want : Nat) (top : Bool) :
    Option ((Ptr × Ptr) × AddressSpace) := do
  let f ← l.deref fit
  let want := if top then sub64 f.val.size want else want
  let (cut, l) := l.new
    ⟨add64 f.val.base want, sub64 f.val.size want, f.val.attr, Dllist.empty⟩
  let l ← l.modify fit fun f => { f with val := { f.val with size := want } }
  let l ← l.linkNext fit (some cut)
  return ((fit, some cut), l)

def xfrom (l : AddressSpace) (top : Bool) : Ptr := if top then l.last else l.first

def xnext (top : Bool) (p : Node VMRegion) : Ptr := if top then p.prev else p.next

/-- The loop of `findSectionAddress`. -/
def findSectionLoop (l : AddressSpace) (base : Nat) (equl : Bool) : Nat → Ptr → Option Ptr
  | 0, _ => none
  | _ + 1, none => some none
  | fuel + 1, some p => do
    let fit ← l.deref (some p)
    if fit.val.base > base then return none
    if equl then
      if fit.val.base ≠ base then findSectionLoop l base equl fuel (xnext false fit)
      else return some p
    else
      if add64 fit.val.base fit.val.size ≤ base then
        findSectionLoop l base equl fuel (xnext false fit)
      else return some p

def findSectionAddress (l : AddressSpace) (base : Nat) (equl : Bool) : Option Ptr :=
  findSectionLoop l base equl (l.fresh + 1) (xfrom l false)

/-- First loop of `freeSectionAddress`: merge all next. -/
def freeNextLoop : Nat → AddressSpace → Ptr → Option AddressSpace
  | 0, _, _ => none
  | fuel + 1, l, sec => do
    let s ← l.deref sec
    if s.next = none then return l
    let n ← l.deref s.next
    if n.val.attr &&& MEM_FREE = 0#32 then return l
    let l ← l.modify sec fun s =>
      { s with val := { s.val with size := add64 s.val.size n.val.size } }
    let l ← l.unlink s.next
    freeNextLoop fuel l sec

/-- Second loop of `freeSectionAddress`: merge all prev.  The attribute it tests is the one
of `sec->_next`. -/
def freePrevLoop : Nat → AddressSpace → Ptr → Option AddressSpace
  | 0, _, _ => none
  | fuel + 1, l, sec => do
    let s ← l.deref sec
    if s.prev = none then return l
    let n ← l.deref s.next
    if n.val.attr &&& MEM_FREE = 0#32 then return l
    let v ← l.deref s.prev
    if v.val.base &&& (VMBLOCK_AT_ALIGN - 1) ≠ 0 then return l
    let l ← l.modify sec fun s =>
      { s with val := { s.val with size := add64 s.val.size v.val.size } }
    let l ← l.modify sec fun s => { s with val := { s.val with base := v.val.base } }
    let l ← l.unlink s.prev
    freePrevLoop fuel l sec

/-- `freeSectionAddress(VMRegion*)`; `destroy` at the end is the one of the block list. -/
def freeSection (l : AddressSpace) (sec : Ptr) : Option (Int × AddressSpace) := do
  let s ← l.deref sec
  let type := s.val.attr &&& WVM_TYPE_MASK
  let state := s.val.attr &&& WVM_STATE_MASK
  if type = 0#32 ∨ state = MEM_FREE then return (-1, l)
  let l ← freeNextLoop (l.fresh + 1) l sec
  let l ← freePrevLoop (l.fresh + 1) l sec
  let l ← l.modify sec fun s =>
    { s with val := { s.val with attr := PAGE_NOACCESS ||| MEM_FREE } }
  let s ← l.deref sec
  let blocks ← s.val.blocks.destroy
  let l ← l.modify sec fun s => { s with val := { s.val with blocks := blocks } }
  return (0, l)

/-- `freeSectionAddress(uint64_t)` -/
def freeSectionAddress (l : AddressSpace) (base : Nat) : Option (Int × AddressSpace) := do
  if base &&& (VMBLOCK_AT_ALIGN - 1) ≠ 0 then return (-1, l)
  let fit ← findSectionAddress l base true
  if fit = none then return (-2, l)
  freeSection l fit

/-- The first three tests of the search loop of `allocSectionAddress`. -/
def fits (required : Nat) (r : VMRegion) : Bool :=
  r.attr &&& WVM_TYPE_MASK = MEM_FREE ∧ r.base &&& 0xFFFF = 0 ∧ required ≤ r.size

/-- The search loop of `allocSectionAddress`, up to the first split. -/
def findFit (l : AddressSpace) (base required : Nat) (top : Bool) : Nat → Ptr → Option Ptr
  | 0, _ => none
  | _ + 1, none => some none
  | fuel + 1, some p => do
    let fit ← l.deref (some p)
    let next := findFit l base required top fuel (xnext top fit)
    if ¬ fits required fit.val then next
    else if base ≠ 0 then
      if fit.val.base > base then return none
      let fitend := add64 fit.val.base fit.val.size
      if fitend < base then next
      else if fitend ≤ add64 base required then next
      else return some p
    else return some p

/-- `if( baseoff ) ... fit = splited[1];` -/
def cutBase (l : AddressSpace) (fit : Ptr) (base : Nat) : Option (Ptr × AddressSpace) := do
  let f ← l.deref fit
  let baseoff := sub64 base f.val.base
  if base ≠ 0 ∧ baseoff ≠ 0 then
    let (splited, l) ← split l fit baseoff false
    return (splited.2, l)
  else return (fit, l)

/-- The splits of `allocSectionAddress` once a region is found. -/
def carve (l : AddressSpace) (fit : Ptr) (base size required : Nat) (top : Bool) :
    Option (Ptr × AddressSpace) := do
  let (fit, l) ← cutBase l fit base
  let (splited, l) ← split l fit required top
  let fit := if top then splited.2 else splited.1
  if required > size then
    let (splited, l) ← split l fit size false
    return (splited.1, l)
  else return (fit, l)

def allocSectionAddress (l : AddressSpace) (base size : Nat) (top : Bool) :
    Option (Ptr × AddressSpace) := do
  if base &&& (VMBLOCK_AT_ALIGN - 1) ≠ 0 then return (none, l)
  let size := alignBig size VMBLOCK_SIZE_ALIGN
  let required := alignBig size VMBLOCK_AT_ALIGN
  if l.first = none then return (none, l)
  let top := if base ≠ 0 then false else top
  let fit ← findFit l base required top (l.fresh + 1) (xfrom l top)
  if fit = none then return (none, l)
  carve l fit base size required top

end AddressSpace

end Vin64.Space
