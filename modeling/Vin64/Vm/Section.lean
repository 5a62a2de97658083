import Mathlib.Data.Finset.Basic
import Mathlib.Logic.Embedding.Basic
import Vin64.Vm.Private
import Vin64.Vram.Store

/-!
# The window of a section (`pagetable.h`)

`KoSection` shows the pages of a section in `ACTIVE_BLOCKS` blocks of the RAM manager: the page
at an offset goes to the block at the page's number modulo their count.  The users of the
section map the blocks it returns and unmap them when `onSectionBlockInvalid` is called.
-/

namespace Vin64.Vm

open Vin64.Lib Vin64.Lib.Op Vin64.Utils Vin64.Vram
open Vin64.Vram.RamManager (getRamBuffer)

/-- The calls of `onSectionBlockInvalid( off )`, one for each user, and the block at that
moment. -/
structure Notice where
  users : Finset Nat
  off : BitVec 64
  block : RamBlock

structure KoSection where
  mgr : RamManager
  /-- The address of the object, the owner of its blocks. -/
  this : Nat
  /-- The addresses of `_blocks[0]` to `_blocks[ACTIVE_BLOCKS - 1]`. -/
  blocks : Fin 32 ↪ Nat
  /-- `_off` of each block. -/
  off : Fin 32 → BitVec 64
  size : BitVec 64
  users : Finset Nat
  /-- The calls of the users, the last one first. -/
  notices : List Notice

namespace KoSection

def blockAt (s : KoSection) (i : Fin 32) : RamBlock := s.mgr.blocks (s.blocks i)

/-- `sbrp - _blocks`, when it is less than `ACTIVE_BLOCKS`. -/
def indexOf (s : KoSection) (pref : Nat) : Option (Fin 32) :=
  (List.finRange 32).find? fun i => s.blocks i = pref

/-- The manager's call of the section, when it is the owner of the block. -/
def onAddressInvalid (s : KoSection) (n : Invalidated) : List Notice :=
  if n.owner = s.this then ((s.indexOf n.pb).map fun i => ⟨s.users, s.off i, n.block⟩).toList
  else []

/-- What a call of the manager leaves. -/
def putMgr (m : RamManager) (s : KoSection) : KoSection :=
  { s with mgr := m, notices := (m.since s.mgr).flatMap s.onAddressInvalid ++ s.notices }

end KoSection

def onSectionMgr {α : Type} (x : Ram α) : Op KoSection HRESULT α :=
  zoom KoSection.mgr KoSection.putMgr x

/-- `(off >> 12)%ACTIVE_BLOCKS` -/
def blockIndex (off : BitVec 64) : Fin 32 := ⟨(off >>> 12).toNat % 32, Nat.mod_lt _ (by decide)⟩

/-- `"off=%I64d"`; the number is taken for a signed one. -/
def offText (off : BitVec 64) : List UInt8 :=
  let digits := Nat.toDigits 10 off.toInt.natAbs
  ("off=".toList ++ if off.toInt < 0 then '-' :: digits else digits).map fun c =>
    UInt8.ofNat c.toNat

def saveToFile (_blk : Nat) : Op KoSection HRESULT Bool := return true

/-- `sprintf` writes the text and a zero. -/
def loadFromFile (off : BitVec 64) (blk : Nat) : Op KoSection HRESULT Bool := do
  let s ← get
  onSectionMgr (copyInto (getRamBuffer (s.mgr.blocks blk).addr) 0
    (fun k => (offText off).getD k 0) ((offText off).length + 1))
  return true

/-- The end of `get_block`. -/
def loadBlock (off : BitVec 64) (idx : Fin 32) : Op KoSection HRESULT (Option (Fin 32)) := do
  let s ← get
  if ← loadFromFile off (s.blocks idx) then do
    modify fun s => { s with off := Function.update s.off idx off }
    return some idx
  else return none

def getBlock (e : Env) (off : BitVec 64) : Op KoSection HRESULT (Option (Fin 32)) := do
  let s ← get
  if off ≥ s.size then return none
  else do
    let idx := blockIndex off
    if (s.blockAt idx).flags &&& BF_VALID = 0#32 then do
      match ← attempt (onSectionMgr (ramAllocAddress e (s.blocks idx) 0)) with
      | .error _ => return none
      | .ok () => loadBlock off idx
    else do
      match ← attempt (onSectionMgr (ramSwapIn e (s.blocks idx))) with
      | .error _ => return none
      | .ok () => do
        let s ← get
        if s.off idx = off then return some idx
        else do
          if ← saveToFile (s.blocks idx) then loadBlock off idx else return none

/-! ## Runs of calls -/

/-- A call of the section by one of its users, a call of the manager by another client, or a
user that comes or goes. -/
inductive SectionCall where
  | getBlock (user : Nat) (off : BitVec 64) (e : Env)
  | other (c : Call) (e : Env)
  | insertUser (user : Nat)
  | removeUser (user : Nat)

structure SectionRun where
  sec : KoSection
  /-- The address last returned for each offset. -/
  returned : BitVec 64 → Option Nat
  /-- Where each user has an offset mapped. -/
  mapped : Nat → BitVec 64 → Option Nat

/-- The calls of the users between two states, the last one first. -/
def KoSection.noticesSince (t s : KoSection) : List Notice :=
  t.notices.take (t.notices.length - s.notices.length)

namespace SectionRun

/-- Each user unmaps what it is told about. -/
def afterNotices (x : SectionRun) (sec : KoSection) : SectionRun where
  sec := sec
  returned := x.returned
  mapped := fun u a =>
    if (sec.noticesSince x.sec).any fun n => u ∈ n.users ∧ n.off = a then none else x.mapped u a

/-- A user of the section maps the block it got. -/
def afterReply (x : SectionRun) (user : Nat) (off : BitVec 64) (idx : Fin 32) : SectionRun :=
  let addr := (x.sec.blockAt idx).addr
  { x with
    returned := Function.update x.returned off (some addr)
    mapped := if user ∈ x.sec.users
      then Function.update x.mapped user (Function.update (x.mapped user) off (some addr))
      else x.mapped }

def step (tgt : Target) (x : SectionRun) : SectionCall → Option SectionRun
  | .getBlock user off e => do
    let (r, sec) ← getBlock e off x.sec
    match r with
    | .ok (some idx) => return (x.afterNotices sec).afterReply user off idx
    | _ => return x.afterNotices sec
  | .other c e => do
    let (_, sec) ← onSectionMgr (exec tgt e c) x.sec
    return x.afterNotices sec
  | .insertUser u => return { x with sec := { x.sec with users := insert u x.sec.users } }
  | .removeUser u => return { x with
      sec := { x.sec with users := x.sec.users.erase u }
      mapped := Function.update x.mapped u fun _ => none }

end SectionRun

/-- The other clients call the manager as it is meant to be used.  A block of the section they
may only swap out. -/
def SectionCall.Fair (s : KoSection) : SectionCall → Prop
  | .other c _ => c.Proper s.mgr ∧
      ((∀ i, blockOf c ≠ s.blocks i) ∨ ∃ q bForce, c = .swapOut q bForce)
  | _ => True

abbrev SectionRun.Step (tgt : Target) (x : SectionRun) (c : SectionCall) (y : SectionRun) : Prop :=
  c.Fair x.sec ∧ x.step tgt c = some y

/-- The data of a section offset are at an address. -/
def KoSection.Available (s : KoSection) (a : BitVec 64) (addr : Nat) : Prop :=
  ∃ i, (s.blockAt i).Resident ∧ (s.blockAt i).addr = addr ∧ s.off i = a

instance (b : RamBlock) : Decidable b.IsSwapped := inferInstanceAs (Decidable (_ ≠ _))

instance (b : RamBlock) : Decidable b.Resident := inferInstanceAs (Decidable (_ ∧ ¬ _))

instance (s : KoSection) (a : BitVec 64) (addr : Nat) : Decidable (s.Available a addr) :=
  inferInstanceAs (Decidable
    (∃ i, (s.blockAt i).Resident ∧ (s.blockAt i).addr = addr ∧ s.off i = a))

namespace SectionRun

/-- When the data of an offset stop being available at the address last returned for it, every
user of the section is told while the block is still there. -/
def Tells (x y : SectionRun) : Prop :=
  ∀ a addr, x.returned a = some addr → x.sec.Available a addr → ¬ y.sec.Available a addr →
    ∀ u ∈ x.sec.users, ∃ n ∈ y.sec.noticesSince x.sec,
      u ∈ n.users ∧ n.off = a ∧ n.block.Resident ∧ n.block.addr = addr

/-- What a user has mapped for an offset are the data of this offset. -/
def Honest (x : SectionRun) : Prop :=
  ∀ u ∈ x.sec.users, ∀ a addr, x.mapped u a = some addr → x.sec.Available a addr

/-- The section as it is constructed, on a manager that was just created. -/
structure Started (x : SectionRun) : Prop where
  mgr : x.sec.mgr.Started
  slots : x.sec.mgr.mBlocks.length ≤ 0x100000
  owned : ∀ i, (x.sec.blockAt i).owner = some x.sec.this
  mapped : ∀ u a, x.mapped u a = none

/-- A section with users does not take a resident block for another offset. -/
def KeepsBlocks (x : SectionRun) : SectionCall → Prop
  | .getBlock _ off _ => x.sec.users.Nonempty → off < x.sec.size →
      (x.sec.blockAt (blockIndex off)).Resident → x.sec.off (blockIndex off) = off
  | _ => True

end SectionRun

/-! ## The pages of a section -/

/-- An offset rounded down to 4096. -/
def pageOf (off : BitVec 64) : BitVec 64 := off &&& ~~~0xfff

/-- The page begins with the text of an offset and a zero. -/
def ShowsText (off : BitVec 64) (p : Page) : Prop := offText off ++ [0] <+: List.ofFn p

namespace KoSection

/-- The block for an offset holds the page that the offset lies in. -/
def HoldsPage (s : KoSection) (off : BitVec 64) : Prop :=
  s.mgr.Valid (s.blocks (blockIndex off)) ∧ pageOf (s.off (blockIndex off)) = pageOf off

/-- What `get_block` is to do: a page that is in its block is left as it is, and another one is
loaded from its beginning. -/
structure PageLaw (x : KoSection) (off : BitVec 64) (r : Option (Fin 32)) (z : KoSection) :
    Prop where
  answers : r = some (blockIndex off)
  resident : z.mgr.Resident (z.blocks (blockIndex off))
  kept : x.HoldsPage off →
    z.mgr.content (z.blocks (blockIndex off)) = x.mgr.content (x.blocks (blockIndex off)) ∧
      z.off (blockIndex off) = x.off (blockIndex off)
  loaded : ¬ x.HoldsPage off →
    ∀ p, z.mgr.content (z.blocks (blockIndex off)) = some p → ShowsText (pageOf off) p
  others : ∀ i, i ≠ blockIndex off →
    z.mgr.content (z.blocks i) = x.mgr.content (x.blocks i) ∧ z.off i = x.off i

/-- The page that is in the block was loaded for the same offset, or the offset is where the page
begins that is to be loaded. -/
structure Settled (s : KoSection) (off : BitVec 64) : Prop where
  same : s.HoldsPage off → s.off (blockIndex off) = off
  begins : ¬ s.HoldsPage off → pageOf off = off

/-- The manager gives the block a slot. -/
structure Gets (s : KoSection) (e : Env) (off : BitVec 64) : Prop where
  allocates : ¬ s.mgr.Valid (s.blocks (blockIndex off)) →
    Succeeds (ramAllocAddress e (s.blocks (blockIndex off)) 0) s.mgr
  swapsIn : s.mgr.Valid (s.blocks (blockIndex off)) →
    Succeeds (ramSwapIn e (s.blocks (blockIndex off))) s.mgr

end KoSection

/-- A user writes to a page through the address it got. -/
def writeBlock (blk : Nat) (p : Page) : Ram Unit := do
  let b ← blockAt blk
  if b.flags &&& BF_VALID = 0#32 ∨ b.flags &&& BF_SWAPPED ≠ 0#32 then fault
  else writePage (getRamBuffer b.addr) p

inductive PageCall where
  | call (c : SectionCall)
  | modify (i : Fin 32) (p : Page)

def PageCall.Fair (s : KoSection) : PageCall → Prop
  | .call c => c.Fair s
  | .modify _ _ => True

namespace SectionRun

def pageStep (tgt : Target) (x : SectionRun) : PageCall → Option SectionRun
  | .call c => x.step tgt c
  | .modify i p => do
    let (_, sec) ← onSectionMgr (writeBlock (x.sec.blocks i) p) x.sec
    return { x with sec }

abbrev PageStep (tgt : Target) (x : SectionRun) (c : PageCall) (y : SectionRun) : Prop :=
  c.Fair x.sec ∧ x.pageStep tgt c = some y

end SectionRun

end Vin64.Vm
