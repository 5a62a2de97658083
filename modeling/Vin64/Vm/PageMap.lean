import Vin64.Vm.PageTable

/-!
# The map behind a page table

To its callers a `PageTable` is a partial map from page numbers to the addresses they are
mapped to.
-/

namespace Vin64.Vm

abbrev PageMap := Nat → Option Nat

namespace PageMap

/-- What a call returns and makes of the map. -/
inductive Step (σ : PageMap) : PgtCall → Except PgtError (Option Nat) → PageMap → Prop
  | unreadable (vma pma : Nat) (attr : BitVec 64) (h : attr &&& R = 0#64) :
      Step σ (.vmmap vma pma attr) (.ok none) σ
  | map (vma pma : Nat) (attr : BitVec 64) (hattr : attr &&& R ≠ 0#64)
      (h : σ (pageNumber vma) = none) : Step σ (.vmmap vma pma attr) (.ok none)
        (Function.update σ (pageNumber vma) (some pma))
  | mapped (vma pma : Nat) (attr : BitVec 64) (hattr : attr &&& R ≠ 0#64)
      (h : σ (pageNumber vma) ≠ none) : Step σ (.vmmap vma pma attr) (.error .E_UNEXPECTED) σ
  | noMemory (vma pma : Nat) (attr : BitVec 64) (hattr : attr &&& R ≠ 0#64)
      (h : σ (pageNumber vma) = none) : Step σ (.vmmap vma pma attr) (.error .E_OUTOFMEMORY) σ
  | unmap (vma : Nat) (h : σ (pageNumber vma) ≠ none) : Step σ (.vmunmap vma) (.ok none)
      (Function.update σ (pageNumber vma) none)
  | unmapped (vma : Nat) (er : PgtError) (h : σ (pageNumber vma) = none) :
      Step σ (.vmunmap vma) (.error er) σ
  | getPma (vma : Nat) : Step σ (.getPma vma) (.ok (σ (pageNumber vma))) σ
  | manager (c : Vram.Call) (e : Env) : Step σ (.manager c e) (.ok none) σ

/-- The map after a call, from what the call returned. -/
def after (σ : PageMap) : PgtEvent → PageMap
  | ⟨.vmmap vma pma attr, _, .ok _⟩ =>
    if attr &&& R = 0#64 then σ else Function.update σ (pageNumber vma) (some pma)
  | ⟨.vmunmap vma, _, .ok _⟩ => Function.update σ (pageNumber vma) none
  | _ => σ

end PageMap

/-- What was last mapped and not unmapped, the last event first. -/
def lastMapped : List PgtEvent → PageMap
  | [] => fun _ => none
  | v :: vs => (lastMapped vs).after v

end Vin64.Vm
