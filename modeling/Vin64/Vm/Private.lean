import Vin64.Vm.Manager
import Vin64.Lib.Run

/-!
# Private memory of the test program (`pagetable.h`)

`get_priv_block` registers the address of `key`, an object on its stack, with the RAM manager
and keeps a copy of it in `_blocks`.  When the call returns, `key` is dead: what its memory
holds then is up to whoever uses the stack next.
-/

namespace Vin64.Vram.RamBlock

def IsSwapped (b : RamBlock) : Prop := b.flags &&& BF_SWAPPED ≠ 0#32

def Resident (b : RamBlock) : Prop := b.flags &&& BF_VALID ≠ 0#32 ∧ ¬ b.IsSwapped

end Vin64.Vram.RamBlock

namespace Vin64.Vm

open Vin64.Lib Vin64.Lib.Op Vin64.Utils Vin64.Vram

/-- A `PrivBlock` is a block under its `_vma`. -/
structure UoPrivate where
  mgr : RamManager
  /-- The address of the object, the owner of its blocks. -/
  this : Nat
  blocks : Nat → Option RamBlock

def onMgr {α : Type} (x : Ram α) : Op UoPrivate HRESULT α :=
  zoom UoPrivate.mgr (fun m s => { s with mgr := m }) x

/-- The constructor of `PrivBlock`, at an address. -/
def privBlock (key : Nat) : Ram Unit := modifyBlock key fun _ => ⟨0#32, 0, 0, none⟩

/-- `key` is where the stack has the object of that name. -/
def getPrivBlock (e : Env) (key vma : Nat) (force : Bool) :
    Op UoPrivate HRESULT (Option RamBlock) := do
  onMgr (privBlock key)
  let s ← get
  match s.blocks vma with
  | some b => return some b
  | none =>
    if ¬ force then return none
    else do
      onMgr (modifyBlock key fun b => { b with owner := some s.this })
      match ← attempt (onMgr (ramAllocAddress e key 0)) with
      | .error _ => return none
      | .ok () => do
        let s ← get
        match s.blocks vma with
        | some _ => do
          onMgr (ramFreeAddress key)
          return none
        | none => do
          let copy := s.mgr.blocks key
          modify fun s => { s with blocks := Function.update s.blocks vma (some copy) }
          return some copy

/-! ## Runs of calls -/

/-- A call: where its `key` lies, the page, what the manager meets, and what the memory of the
dead objects holds by then. -/
structure PrivCall where
  key : Nat
  vma : Nat
  env : Env
  stack : Nat → RamBlock

structure PrivRun where
  area : UoPrivate
  /-- Where the dead objects lie. -/
  dead : List Nat
  /-- The page of `_blocks` in each slot. -/
  frames : Nat → Option Nat

/-- The manager sees what the memory of the dead objects holds. -/
def PrivRun.seen (x : PrivRun) (c : PrivCall) : RamManager :=
  { x.area.mgr with blocks := fun p => if p ∈ x.dead then c.stack p else x.area.mgr.blocks p }

/-- The slot that a call for a page that is not in `_blocks` chooses. -/
def PrivRun.chosen (x : PrivRun) (c : PrivCall) : Option Nat :=
  findFreeOrSwappable { x.seen c with
    blocks := Function.update (x.seen c).blocks c.key ⟨0#32, 0, 0, some x.area.this⟩ } c.env.change

/-- A page that came to `_blocks` is in the slot the call chose; what was there before was
moved to the page file. -/
def PrivRun.framesAfter (x : PrivRun) (c : PrivCall) (area : UoPrivate) : Nat → Option Nat :=
  match x.area.blocks c.vma, area.blocks c.vma, x.chosen c with
  | none, some _, some i => Function.update x.frames i (some c.vma)
  | _, _, _ => x.frames

def PrivRun.step (x : PrivRun) (c : PrivCall) : Option PrivRun := do
  let (_, area) ← getPrivBlock c.env c.key c.vma true { x.area with mgr := x.seen c }
  return ⟨area, c.key :: x.dead, x.framesAfter c area⟩

abbrev PrivRun.Step (x : PrivRun) (c : PrivCall) (y : PrivRun) : Prop := x.step c = some y

/-- The page of a block of `_blocks` was moved to the page file: it is in no slot. -/
def PrivRun.Moved (x : PrivRun) (vma : Nat) : Prop := ∀ i, x.frames i ≠ some vma

/-- The blocks of `_blocks` that are resident have addresses of their own, and those marked
SWAPPED are those whose page was moved. -/
structure PrivRun.Faithful (x : PrivRun) : Prop where
  unshared : ∀ v w b c, x.area.blocks v = some b → x.area.blocks w = some c →
    b.Resident → c.Resident → b.addr = c.addr → v = w
  marked : ∀ v b, x.area.blocks v = some b → (b.IsSwapped ↔ x.Moved v)

/-- The page is in `_blocks`, or the chosen slot has the address of no block there. -/
def PrivRun.FreshSlot (x : PrivRun) (c : PrivCall) : Prop :=
  x.area.blocks c.vma = none → ∀ i, x.chosen c = some i →
    ∀ v b, x.area.blocks v = some b → b.addr ≠ ramAddress i

end Vin64.Vm
