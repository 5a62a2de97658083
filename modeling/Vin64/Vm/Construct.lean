import Vin64.Vm.Section

/-!
# Creating and destroying a section (`pagetable.h`)

`BlockRef()` sets `_off`, and the constructor of `KoSection` sets the owner of each block.  The
other members of `AddressRef` have no initialiser: they keep what the memory held.
-/

namespace Vin64.Vm

open Vin64.Lib Vin64.Lib.Op Vin64.Utils Vin64.Vram

/-- The blocks in memory when those of a window are written over. -/
def overlay (window : Fin 32 ↪ Nat) (b : Fin 32 → RamBlock) (g : Nat → RamBlock) (q : Nat) :
    RamBlock :=
  ((List.finRange 32).find? fun i => window i = q).elim (g q) b

/-- The loop of `close`; what `RamFreeAddress` returns is not looked at. -/
def freeBlocks : List (Fin 32) → Op KoSection HRESULT Unit
  | [] => return ()
  | i :: is => do
    let s ← get
    ignore (onSectionMgr (ramFreeAddress (s.blocks i)))
    freeBlocks is

namespace KoSection

/-- `KoSection()` at an address; `left` is what the memory of its blocks held. -/
def construct (m : RamManager) (this : Nat) (blocks : Fin 32 ↪ Nat) (left : Fin 32 → RamBlock) :
    KoSection where
  mgr := { m with
    blocks := overlay blocks (fun i => { left i with owner := some this }) m.blocks }
  this := this
  blocks := blocks
  off := fun _ => 0
  size := 0
  users := ∅
  notices := []

def create (size : BitVec 64) (s : KoSection) : KoSection := { s with size }

def close : Op KoSection HRESULT Bool := do
  let s ← get
  if s.users ≠ ∅ then return false
  else do
    freeBlocks (List.finRange 32)
    return true

/-- The users are told about each block first. -/
def destroy : Op KoSection HRESULT Unit := do
  modify fun s => { s with notices :=
    ((List.finRange 32).reverse.map fun i => ⟨s.users, s.off i, s.blockAt i⟩) ++ s.notices }
  modify fun s => { s with users := ∅ }
  let _ ← close
  return ()

end KoSection

/-! ## Other blocks -/

/-- What a block outside of the window has in `t` is its own: no slot or page was taken from it or
given to a block of the window, and no slot it had in `s` was reported as that of another block. -/
structure SparesOthers (window : Fin 32 ↪ Nat) (s t : RamManager) : Prop where
  slot : ∀ q, (∀ i, window i ≠ q) → ∀ k, t.place q = some (.slot k) → t.mBlocks[k]? = some (some q)
  file : ∀ q, (∀ i, window i ≠ q) → ∀ j, t.place q = some (.file j) →
    t.mBlockBitMap.testbit j = true
  apart : ∀ q, (∀ i, window i ≠ q) → t.place q ≠ none → ∀ i, t.place (window i) ≠ t.place q
  told : ∀ n ∈ t.since s, ∀ q, (∀ i, window i ≠ q) → q ≠ n.pb →
    s.place q ≠ some (.slot (n.block.addr / 4096))

/-- The pages outside of the window are as they were. -/
def SameOthers (window : Fin 32 ↪ Nat) (s t : RamManager) : Prop :=
  ∀ q, (∀ i, window i ≠ q) → t.content q = s.content q

/-- What a new section is to be: its blocks are not VALID, and neither `destroy` nor a call of
`get_block` touches what other blocks have. -/
structure KoSection.NewLaw (x : KoSection) : Prop where
  unused : ∀ i, ¬ x.mgr.Valid (x.blocks i)
  destroys : ∃ z, KoSection.destroy x = some (.ok (), z) ∧ SparesOthers x.blocks x.mgr z.mgr ∧
    SameOthers x.blocks x.mgr z.mgr
  gets : ∀ size e off, ∃ r z, getBlock e off (x.create size) = some (.ok r, z) ∧
    SparesOthers x.blocks x.mgr z.mgr ∧ (e.transfers.Clean → SameOthers x.blocks x.mgr z.mgr)

/-- A block that held this is not VALID, and it has no flags, or it is at a page of the page file
that no block has, or at a slot that is free. -/
def Harmless (m : RamManager) (b : RamBlock) : Prop :=
  b.flags &&& BF_VALID = 0#32 ∧ (b.flags ≠ 0#32 →
    if b.flags &&& BF_SWAPPED ≠ 0#32 then ∀ q, m.place q ≠ some (.file b.swapid)
    else m.mBlocks[b.addr / 4096]? = some none)

/-- A call of the manager by any client, as it is meant to be used. -/
def managerStep (tgt : Target) (s : RamManager) (v : Call × Env) (t : RamManager) : Prop :=
  v.1.Proper s ∧ ∃ reply, exec tgt v.2 v.1 s = some (reply, t)

end Vin64.Vm
