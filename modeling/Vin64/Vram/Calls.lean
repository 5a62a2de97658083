import Vin64.Vram.Manager
import Vin64.Lib.Run

/-!
# Callers of the RAM manager

A caller makes one call after the other, in any order and on any blocks.  The events of a
run record each call, what it met and what it returned.
-/

namespace Vin64.Vram

open Vin64.Lib Vin64.Lib.Op Vin64.Utils

inductive Call where
  | alloc (pb : Nat) (initFlags : BitVec 32)
  | free (pb : Nat)
  | swapOut (pb : Nat) (bForce : Bool)
  | swapIn (pb : Nat)
  | ensure (pb : Nat)
  | directAccess (pb : Nat)
  | directWrite (pb off : Nat) (p : Nat → UInt8) (cb : Nat)
  | directRead (pb off cb : Nat)

/-- The block a call is about. -/
def blockOf : Call → Nat
  | .alloc pb _ => pb
  | .free pb => pb
  | .swapOut pb _ => pb
  | .swapIn pb => pb
  | .ensure pb => pb
  | .directAccess pb => pb
  | .directWrite pb _ _ _ => pb
  | .directRead pb _ _ => pb

/-- A call; the bytes it returns are those of a read. -/
def exec (t : Target) (e : Env) : Call → Ram (List UInt8)
  | .alloc pb initFlags => do ramAllocAddress e pb initFlags; return []
  | .free pb => do ramFreeAddress pb; return []
  | .swapOut pb bForce => do ramSwapOut e pb bForce; return []
  | .swapIn pb => do ramSwapIn e pb; return []
  | .ensure pb => do ensureRamBlock e pb; return []
  | .directAccess pb => do
    let _ ← ramDirectAccess e pb none
    return []
  | .directWrite pb off p cb => do ramDirectWrite t e pb off p cb; return []
  | .directRead pb off cb => ramDirectRead t e pb off cb

structure Event where
  call : Call
  env : Env
  reply : Except HRESULT (List UInt8)

def step (t : Target) (s : RamManager) (v : Event) (s' : RamManager) : Prop :=
  exec t v.env v.call s = some (v.reply, s')

namespace RamManager

/-- The manager as it is constructed. -/
def constructed (blocks : Nat → RamBlock) : RamManager where
  mBlocks := []
  mRamData := fun _ => 0
  mTemp := fun _ => 0
  mBlockBitMap := XBitMap.empty
  mGrowCount := 0
  storage := fun _ => 0
  blocks := blocks
  invalidated := []

/-- What `Create` leaves, before a block is allocated. -/
structure Started (s : RamManager) : Prop where
  unused : ∀ pb, (s.blocks pb).flags = 0#32
  slots : ∀ i pb : Nat, s.mBlocks[i]? ≠ some (some pb)
  bits : s.mBlockBitMap = XBitMap.empty
  grows : 0 < s.mGrowCount

def Valid (s : RamManager) (pb : Nat) : Prop := (s.blocks pb).flags &&& BF_VALID ≠ 0#32

def IsSwapped (s : RamManager) (pb : Nat) : Prop := (s.blocks pb).flags &&& BF_SWAPPED ≠ 0#32

instance (s : RamManager) (pb : Nat) : Decidable (s.Valid pb) := inferInstanceAs (Decidable (_ ≠ _))

instance (s : RamManager) (pb : Nat) : Decidable (s.IsSwapped pb) :=
  inferInstanceAs (Decidable (_ ≠ _))

def Resident (s : RamManager) (q : Nat) : Prop := s.Valid q ∧ ¬ s.IsSwapped q

instance (s : RamManager) (q : Nat) : Decidable (s.Resident q) :=
  inferInstanceAs (Decidable (_ ∧ _))

/-- The calls of `onBlockInvalid` between two states, the last one first. -/
def since (t s : RamManager) : List Invalidated :=
  t.invalidated.take (t.invalidated.length - s.invalidated.length)

/-- The slot table, the blocks and the bitmap agree. -/
structure RepInvariant (s : RamManager) : Prop where
  slot : ∀ i pb : Nat, s.mBlocks[i]? = some (some pb) →
    s.Valid pb ∧ ¬ s.IsSwapped pb ∧ (s.blocks pb).addr = i * 4096
  resident : ∀ pb, s.Valid pb → ¬ s.IsSwapped pb →
    ∃ i, (s.blocks pb).addr = i * 4096 ∧ s.mBlocks[i]? = some (some pb)
  swapped : ∀ pb, s.Valid pb → s.IsSwapped pb →
    (s.blocks pb).swapid < s.mBlockBitMap.bits ∧
      s.mBlockBitMap.testbit (s.blocks pb).swapid = true
  unshared : ∀ pb q, s.Valid pb → s.IsSwapped pb → s.Valid q → s.IsSwapped q →
    (s.blocks pb).swapid = (s.blocks q).swapid → pb = q

end RamManager

/-! ## A small manager -/

def unusedBlock : RamBlock := ⟨0#32, 0, 0, none⟩

/-- A manager of one slot. -/
def oneSlot : RamManager :=
  { RamManager.constructed fun _ => unusedBlock with mBlocks := [none], mGrowCount := 4 }

def quiet : Env := ⟨fun _ => 0, .ok, .ok⟩

theorem oneSlot_started : oneSlot.Started where
  unused := fun _ => rfl
  slots := by
    intro i pb
    cases i <;> simp [oneSlot]
  bits := rfl
  grows := by decide

end Vin64.Vram
