import Vin64.Vm.PageMap

/-!
# The life of a page table

Beside its calls a `PageTable` is loaded, unloaded and destroyed; once destroyed it is a new
one again.
-/

namespace Vin64.Vm

open Vin64.Lib Vin64.Lib.Op Vin64.Utils Vin64.Vram

variable {ε : Type}

/-- The loop of `destroy`; what `RamFreeAddress` returns is not looked at. -/
def freeAll : List Nat → Op PageTable ε Unit
  | [] => return ()
  | p :: ps => do
    let _ ← attempt (onRam (ramFreeAddress p))
    freeAll ps

def destroy : Op PageTable ε Unit := do
  let t ← get
  freeAll t.pages
  modify fun t => { t with attr := 0, pages := [] }

/-! ## Runs -/

inductive TableEvent where
  | call (v : PgtEvent)
  /-- `loaded` is what `load` returned. -/
  | load (es : Nat → Env) (loaded : Bool)
  | unload
  | destroy

def tableStep (x : X64) (tgt : Target) (t : PageTable) : TableEvent → PageTable → Prop
  | .call v, u => pgtStep x tgt t v u
  | .load es loaded, u => (load es : Op PageTable PgtError Bool) t = some (.ok loaded, u)
  | .unload, u => (unload : Op PageTable PgtError Bool) t = some (.ok true, u)
  | .destroy, u => (destroy : Op PageTable PgtError Unit) t = some (.ok (), u)

/-- What the calls of `vmmap` mapped and no `vmunmap` removed since, the last event first. -/
def mappedBy : List TableEvent → PageMap
  | [] => fun _ => none
  | .call v :: vs => (mappedBy vs).after v
  | .destroy :: _ => fun _ => none
  | .load _ _ :: vs => mappedBy vs
  | .unload :: vs => mappedBy vs

/-- The event is a `vmmap` that mapped a page whose entry is in the same table as that of
`vma`. -/
def MapsBeside (vma : Nat) : TableEvent → Prop
  | .call ⟨.vmmap vma' _ attr, _, .ok _⟩ => attr &&& R ≠ 0#64 ∧ tablePath vma' = tablePath vma
  | _ => False

/-- Since the table was new, a page beside that of `vma` was mapped. -/
def MappedBeside (vma : Nat) : List TableEvent → Prop
  | [] => False
  | .destroy :: _ => False
  | v :: vs => MapsBeside vma v ∨ MappedBeside vma vs

end Vin64.Vm
