import Vin64.Lib.Run
import Vin64.Vm.Manager
import Vin64.Vm.X64

/-!
# Page tables of the test program (`PageTable` of `pagetable.h`)

The tables of a `PageTable` are blocks of the RAM manager, and the walk goes through the RAM
itself: an entry holds the address of the next table.  An entry is reached through a pointer
into `mRamData`, which stays as it is whatever the manager does with the page behind it.
-/

namespace Vin64.Vm

open Vin64.Lib Vin64.Lib.Op Vin64.Utils Vin64.Vram

def PGT_LOADED : BitVec 64 := 1

/-- The attributes of a mapping. -/
def R : BitVec 64 := 1
def W : BitVec 64 := 2
def X : BitVec 64 := 4

inductive PgtError where
  | E_OUTOFMEMORY
  | E_UNEXPECTED
deriving Repr, DecidableEq

structure PageTable where
  mgr : RamManager
  attr : BitVec 64
  pages : List Nat

/-- What a walk meets at each of its four tables if it allocates it: the address that `new`
gives, and what the manager meets. -/
structure PgtEnv where
  new : Fin 4 → Option Nat
  mgr : Fin 4 → Env

/-- A function that returns a pointer; a null pointer is its only error. -/
abbrev Walk := Op PageTable Unit

variable {ε : Type}

def onRam {α : Type} (x : Ram α) : Op PageTable HRESULT α :=
  zoom PageTable.mgr (fun m t => { t with mgr := m }) x

/-! ## Entries -/

def PageTable.entry (t : PageTable) (a : Nat) : Entry := window t.mgr.mRamData 8 a

def PageTable.setEntry (t : PageTable) (a : Nat) (w : Entry) : PageTable :=
  { t with mgr := { t.mgr with mRamData := blit t.mgr.mRamData a w } }

/-- The entry at an address; outside the RAM there is none. -/
def readEntry (a : Nat) : Op PageTable ε Entry := do
  let t ← get
  if a + 8 ≤ t.mgr.ramSize then return t.entry a else fault

def modifyEntry (a : Nat) (f : Entry → Entry) : Op PageTable ε Unit := do
  let t ← get
  if a + 8 ≤ t.mgr.ramSize then modify fun t => t.setEntry a (f (t.entry a)) else fault

/-! ## The walk -/

/-- `new` gives the address of no object that is in use. -/
def allocPgtBlock (e : PgtEnv) (l : Fin 4) : Walk Nat := do
  match e.new l with
  | none => fail ()
  | some p => do
    let t ← get
    if p ∈ t.pages ∨ (t.mgr.blocks p).flags ≠ 0#32 then fault
    else do
      let flags := if t.attr &&& PGT_LOADED ≠ 0#64 then BF_LOCKED else 0#32
      match ← attempt (onRam do
        modifyBlock p fun _ => ⟨0#32, 0, 0, none⟩
        ramAllocAddress (e.mgr l) p flags) with
      | .error _ => fail ()
      | .ok () => do
        modify fun t => { t with pages := t.pages ++ [p] }
        return p

section

variable (alloc : Fin 4 → Walk Nat)

/-- The root table; the address of a null `root` is taken. -/
def rootTable (alloc_new : Bool) : Walk Nat := do
  let t ← get
  match t.pages with
  | root :: _ => return (t.mgr.blocks root).addr
  | [] =>
    if ¬ alloc_new then fail ()
    else match ← attempt (alloc 0) with
      | .error _ => fault
      | .ok root => do
        let t ← get
        return (t.mgr.blocks root).addr

/-- The table that the entry at `a` leads to, the one of level `l`. -/
def nextTable (f : Format) (l : Fin 4) (alloc_new : Bool) (a : Nat) : Walk Nat := do
  let ent ← readEntry a
  if f.P ent = false then
    if ¬ alloc_new then fail ()
    else do
      let page ← alloc l
      let t ← get
      let addr := (t.mgr.blocks page).addr
      modifyEntry a (f.setP true)
      modifyEntry a (f.setBase addr)
      modifyEntry a (f.setRW true)
      return addr
  else return f.base ent

/-- `get_pte` with an allocator; `pmlt` is not null, since the manager has its RAM. -/
def getPteWith (x : X64) (vma : Nat) (alloc_new : Bool) : Walk Nat := do
  let pmlt ← rootTable alloc alloc_new
  let pdp ← nextTable alloc x.pml4e 1 alloc_new (pmlt + 8 * ipml4 vma)
  let pd ← nextTable alloc x.pdpe 2 alloc_new (pdp + 8 * ipdpe vma)
  let pt ← nextTable alloc x.pde 3 alloc_new (pd + 8 * ipde vma)
  return pt + 8 * ipte vma

end

def getPte (x : X64) (e : PgtEnv) (vma : Nat) (alloc_new : Bool) : Walk Nat :=
  getPteWith (allocPgtBlock e) x vma alloc_new

/-! ## The calls -/

section

variable (x : X64)

def setR (pte : Nat) (f : Bool) : Op PageTable ε Unit := modifyEntry pte (x.pte.setP f)

def setW (pte : Nat) (f : Bool) : Op PageTable ε Unit := modifyEntry pte (x.pte.setRW f)

def setX (pte : Nat) (f : Bool) : Op PageTable ε Unit := modifyEntry pte (x.pte.setNX (!f))

def setAttr (pte : Nat) (f : BitVec 64) : Op PageTable ε Unit := do
  setR x pte (f &&& R ≠ 0#64)
  setW x pte (f &&& W ≠ 0#64)
  setX x pte (f &&& X ≠ 0#64)

/-- `get_pte` allocates nothing here. -/
def getPma (vma : Nat) : Op PageTable PgtError (Option Nat) := do
  match ← attempt (getPteWith (fun _ => fail ()) x vma false) with
  | .error _ => return none
  | .ok pte => do
    let ent ← readEntry pte
    if x.pte.P ent = false then return none else return some (x.pte.base ent)

def vmattr (vma : Nat) (f : BitVec 64) : Op PageTable PgtError Bool := do
  match ← attempt (getPteWith (fun _ => fail ()) x vma false) with
  | .error _ => return false
  | .ok pte => do
    setAttr x pte f
    return true

def vmmapWith (alloc : Fin 4 → Walk Nat) (vma pma : Nat) (attr : BitVec 64) :
    Op PageTable PgtError Unit := do
  if attr &&& R = 0#64 then return
  else match ← attempt (getPteWith alloc x vma true) with
    | .error _ => fail .E_OUTOFMEMORY
    | .ok pte => do
      let ent ← readEntry pte
      if x.pte.P ent then fail .E_UNEXPECTED
      else do
        modifyEntry pte (x.pte.setBase pma)
        setAttr x pte attr

def vmmap (e : PgtEnv) (vma pma : Nat) (attr : BitVec 64) : Op PageTable PgtError Unit :=
  vmmapWith x (allocPgtBlock e) vma pma attr

def vmunmap (vma : Nat) : Op PageTable PgtError Unit := do
  match ← attempt (getPteWith (fun _ => fail ()) x vma false) with
  | .error _ => fail .E_OUTOFMEMORY
  | .ok pte => do
    let ent ← readEntry pte
    if x.pte.P ent = false then fail .E_UNEXPECTED
    else modifyEntry pte fun _ _ => 0

end

/-! ## Loading -/

/-- Sets or clears flags of the blocks. -/
def PageTable.modifyFlags (t : PageTable) (f : BitVec 32 → BitVec 32) : PageTable :=
  { t with mgr := { t.mgr with
      blocks := t.pages.foldl (fun blocks p =>
        Function.update blocks p { blocks p with flags := f (blocks p).flags }) t.mgr.blocks } }

/-- The loop that brings the blocks back, from the `i`-th on. -/
def swapInAll (e : Nat → Env) : List Nat → Nat → Op PageTable ε Bool
  | [], _ => return true
  | p :: ps, i => do
    match ← attempt (onRam (ramSwapIn (e i) p)) with
    | .error _ => return false
    | .ok () => swapInAll e ps (i + 1)

def load (e : Nat → Env) : Op PageTable ε Bool := do
  modify fun t => { t with attr := t.attr ||| PGT_LOADED }
  modify fun t => t.modifyFlags (· ||| BF_LOCKED)
  let t ← get
  swapInAll e t.pages 0

def unload : Op PageTable ε Bool := do
  modify fun t => { t with attr := t.attr &&& ~~~PGT_LOADED }
  modify fun t => t.modifyFlags (· &&& ~~~BF_LOCKED)
  return true

/-! ## Runs of calls -/

/-- A call of the table, or one of the manager by another client. -/
inductive PgtCall where
  | vmmap (vma pma : Nat) (attr : BitVec 64)
  | vmunmap (vma : Nat)
  | vmattr (vma : Nat) (f : BitVec 64)
  | getPma (vma : Nat)
  | manager (c : Call) (e : Env)

/-- A call, what it meets, and what it returns: of a manager's call nothing is recorded. -/
structure PgtEvent where
  call : PgtCall
  env : PgtEnv
  reply : Except PgtError (Option Nat)

def pgtExec (x : X64) (tgt : Target) (e : PgtEnv) : PgtCall → Op PageTable PgtError (Option Nat)
  | .vmmap vma pma attr => do vmmap x e vma pma attr; return none
  | .vmunmap vma => do vmunmap x vma; return none
  | .vmattr vma f => do
    let _ ← vmattr x vma f
    return none
  | .getPma vma => getPma x vma
  | .manager c e => do
    let _ ← attempt (onRam (exec tgt e c))
    return none

def pgtStep (x : X64) (tgt : Target) (t : PageTable) (v : PgtEvent) (u : PageTable) : Prop :=
  pgtExec x tgt v.env v.call t = some (v.reply, u)

/-- A new `PageTable` -/
structure PageTable.New (t : PageTable) : Prop where
  attr : t.attr = 0#64
  pages : t.pages = []

end Vin64.Vm
