import Vin64.Vram.Calls

/-!
# The store behind the RAM manager

To its callers the manager is a page for each allocated block.  `content` reads that page
off a state, wherever it is; `Store.Step` says what a call makes of the pages.
-/

namespace Vin64.Vram

open Vin64.Lib Vin64.Utils

/-- A page for each allocated block. -/
abbrev Store := Nat → Option Page

/-- A page after the bytes from `off` on were overwritten. -/
def overwrite (q : Page) (off : Nat) (p : Nat → UInt8) (cb : Nat) : Page := fun k =>
  if off ≤ k ∧ k < off + cb then p (k - off) else q k

/-- The bytes a read returns. -/
def IsSlice (q : Page) (off cb : Nat) (bytes : List UInt8) : Prop :=
  bytes.length = cb ∧ ∀ k (h : off + k < 4096), k < cb → bytes[k]? = some (q ⟨off + k, h⟩)

/-- What a successful call makes of the pages, and the bytes it returns. -/
inductive Store.Step (σ : Store) : Call → List UInt8 → Store → Prop
  | alloc (pb : Nat) (initFlags : BitVec 32) (q : Page) :
      Step σ (.alloc pb initFlags) [] (Function.update σ pb (some q))
  | free (pb : Nat) : Step σ (.free pb) [] (Function.update σ pb none)
  | swapOut (pb : Nat) (bForce : Bool) : Step σ (.swapOut pb bForce) [] σ
  | swapIn (pb : Nat) : Step σ (.swapIn pb) [] σ
  | ensure (pb : Nat) : Step σ (.ensure pb) [] σ
  | directAccess (pb : Nat) : Step σ (.directAccess pb) [] σ
  | directWrite (pb off : Nat) (p : Nat → UInt8) (cb : Nat) (q : Page) (h : σ pb = some q) :
      Step σ (.directWrite pb off p cb) []
        (Function.update σ pb (some (overwrite q off p cb)))
  | directRead (pb off cb : Nat) (q : Page) (bytes : List UInt8) (h : σ pb = some q)
      (hbytes : IsSlice q off cb bytes) : Step σ (.directRead pb off cb) bytes σ

/-- Where the page of an allocated block is. -/
inductive Place where
  | slot (i : Nat)
  | file (j : Nat)
deriving Repr, DecidableEq

def RamBlock.place (b : RamBlock) : Option Place :=
  if b.flags &&& BF_VALID = 0#32 then none
  else if b.flags &&& BF_SWAPPED ≠ 0#32 then some (.file b.swapid)
  else some (.slot (b.addr / 4096))

namespace RamManager

/-- The page of the page file at an index, as it was before it was coded. -/
def filePage (s : RamManager) (index : Nat) : Page :=
  codeBlockPage (window s.storage 4096 (uOffset index))

/-- The page in a slot. -/
def slotPage (s : RamManager) (i : Nat) : Page := s.page (.ram (i * 4096))

def pageAt (s : RamManager) : Place → Page
  | .slot i => s.slotPage i
  | .file j => s.filePage j

def place (s : RamManager) (pb : Nat) : Option Place := (s.blocks pb).place

def content (s : RamManager) : Store := fun pb => (s.place pb).map s.pageAt

end RamManager

/-- The byte last written to a block since it was allocated, the last event first. -/
def written : List Event → Nat → Nat → Option UInt8
  | [], _, _ => none
  | ⟨.alloc pb' _, _, .ok _⟩ :: es, pb, k => if pb = pb' then none else written es pb k
  | ⟨.directWrite pb' off p cb, _, .ok _⟩ :: es, pb, k =>
    if pb = pb' ∧ off ≤ k ∧ k < off + cb then some (p (k - off)) else written es pb k
  | _ :: es, pb, k => written es pb k

/-! ## Conditions on a call -/

/-- Every access to the page file succeeds. -/
def Env.Clean (e : Env) : Prop := e.load = .ok ∧ e.store = .ok

instance (e : Env) : Decidable e.Clean := inferInstanceAs (Decidable (_ ∧ _))

/-- A write or a read stays in its page. -/
def Call.InPage : Call → Prop
  | .directWrite _ off _ cb => off + cb ≤ 4096
  | .directRead _ off cb => off + cb ≤ 4096
  | _ => True

/-- The block whose bytes a call accesses. -/
def Call.accesses : Call → Option Nat
  | .directWrite pb _ _ _ => some pb
  | .directRead pb _ _ => some pb
  | _ => none

/-- Only a block that is not VALID is allocated, and only a VALID one is swapped out. -/
def Call.Proper (s : RamManager) : Call → Prop
  | .alloc pb _ => ¬ s.Valid pb
  | .swapOut pb _ => s.Valid pb
  | c => c.InPage

instance (c : Call) : Decidable c.InPage := by
  cases c <;> unfold Call.InPage <;> infer_instance

instance (s : RamManager) (c : Call) : Decidable (c.Proper s) := by
  cases c <;> unfold Call.Proper <;> infer_instance

/-- No block that has a slot gets another one, and only a VALID block is swapped out. -/
def Call.Safe (s : RamManager) (e : Env) : Call → Prop
  | .alloc pb _ => s.Valid pb → ¬ s.IsSwapped pb →
      ∀ i, s.findFreeOrSwappable e.rand = some i → s.mBlocks[i]? = some (some pb)
  | .swapOut pb _ => s.Valid pb
  | _ => True

end Vin64.Vram
