import Mathlib.Algebra.Group.Nat.Defs
import Mathlib.Logic.Function.Basic

/-!
# What `pagetable.h` takes from `x64.h`

That header is not part of the sources.  Of an entry of a table only this is used: it has 8
bytes, a present bit, two more bits and a base, and a field keeps what is stored in it.  An
address has four indices of 9 bits above the 12 bits of its offset.
-/

namespace Vin64.Vm

abbrev Entry := Fin 8 → UInt8

/-- The fields of a kind of entry; an assignment of one leaves the others. -/
structure Format where
  P : Entry → Bool
  base : Entry → Nat
  setP : Bool → Entry → Entry
  setRW : Bool → Entry → Entry
  setNX : Bool → Entry → Entry
  setBase : Nat → Entry → Entry
  /-- The values the base field has room for. -/
  keeps : Nat → Prop
  P_setP : ∀ b w, P (setP b w) = b
  P_setRW : ∀ b w, P (setRW b w) = P w
  P_setNX : ∀ b w, P (setNX b w) = P w
  P_setBase : ∀ v w, P (setBase v w) = P w
  base_setP : ∀ b w, base (setP b w) = base w
  base_setRW : ∀ b w, base (setRW b w) = base w
  base_setNX : ∀ b w, base (setNX b w) = base w
  base_setBase : ∀ v w, keeps v → base (setBase v w) = v
  P_zero : P (fun _ => 0) = false

attribute [simp] Format.P_setP Format.P_setRW Format.P_setNX Format.P_setBase Format.base_setP
  Format.base_setRW Format.base_setNX Format.P_zero

/-- The entries of the four kinds of table; the base of an inner one has room for an address
of 32 bits. -/
structure X64 where
  pml4e : Format
  pdpe : Format
  pde : Format
  pte : Format
  pml4e_keeps : ∀ a < 2 ^ 32, pml4e.keeps a
  pdpe_keeps : ∀ a < 2 ^ 32, pdpe.keeps a
  pde_keeps : ∀ a < 2 ^ 32, pde.keeps a

/-! ## The indices of an address -/

def index (vma shift : Nat) : Fin 512 := ⟨vma / 2 ^ shift % 512, Nat.mod_lt _ (by decide)⟩

def ipml4 (vma : Nat) : Fin 512 := index vma 39
def ipdpe (vma : Nat) : Fin 512 := index vma 30
def ipde (vma : Nat) : Fin 512 := index vma 21
def ipte (vma : Nat) : Fin 512 := index vma 12

/-- The indices that lead to the entry of an address, the last one first. -/
def path (vma : Nat) : List (Fin 512) := [ipte vma, ipde vma, ipdpe vma, ipml4 vma]

/-- The indices that lead to the last table of an address. -/
def tablePath (vma : Nat) : List (Fin 512) := [ipde vma, ipdpe vma, ipml4 vma]

theorem path_eq (vma : Nat) : path vma = ipte vma :: tablePath vma := rfl

/-- Bits 12 to 47 -/
def pageNumber (vma : Nat) : Nat := vma / 4096 % 2 ^ 36

/-- The indices of an address are the digits of its page number. -/
theorem path_eq_iff {v w : Nat} : path v = path w ↔ pageNumber v = pageNumber w := by
  unfold path pageNumber ipml4 ipdpe ipde ipte index
  simp only [List.cons.injEq, Fin.mk.injEq, and_true]
  have hsplit : ∀ n : Nat, n / 2 ^ 21 = n / 4096 / 512 ∧ n / 2 ^ 30 = n / 4096 / 2 ^ 18 ∧
      n / 2 ^ 39 = n / 4096 / 2 ^ 27 := by
    intro n
    omega
  obtain ⟨hv, hv', hv''⟩ := hsplit v
  obtain ⟨hw, hw', hw''⟩ := hsplit w
  rw [hv, hv', hv'', hw, hw', hw'']
  omega

/-! ## The format of the processor -/

/-- Bit 0 is `P`, bit 1 `RW`, bits 12 to 51 the base and bit 63 `NX`. -/
def amd64 : Format where
  P w := (w 0).toNat % 2 = 1
  base w := (w 1).toNat / 16 + (w 2).toNat * 2 ^ 4 + (w 3).toNat * 2 ^ 12 + (w 4).toNat * 2 ^ 20 +
    (w 5).toNat * 2 ^ 28 + (w 6).toNat % 16 * 2 ^ 36
  setP b w := Function.update w 0 (.ofNat ((w 0).toNat / 2 * 2 + b.toNat))
  setRW b w := Function.update w 0 (.ofNat ((w 0).toNat / 4 * 4 + b.toNat * 2 + (w 0).toNat % 2))
  setNX b w := Function.update w 7 (.ofNat (b.toNat * 128 + (w 7).toNat % 128))
  setBase v w
    | 1 => .ofNat (v % 16 * 16 + (w 1).toNat % 16)
    | 2 => .ofNat (v / 2 ^ 4)
    | 3 => .ofNat (v / 2 ^ 12)
    | 4 => .ofNat (v / 2 ^ 20)
    | 5 => .ofNat (v / 2 ^ 28)
    | 6 => .ofNat ((w 6).toNat / 16 * 16 + v / 2 ^ 36 % 16)
    | k => w k
  keeps v := v < 2 ^ 40
  P_setP b w := by cases b <;> simp
  P_setRW b w := by
    have hlt := (w 0).toNat_lt
    cases b <;> simp <;> omega
  P_setNX b w := by simp [Function.update_of_ne]
  P_setBase v w := rfl
  base_setP b w := by simp [Function.update_of_ne]
  base_setRW b w := by simp [Function.update_of_ne]
  base_setNX b w := by simp [Function.update_of_ne]
  base_setBase v w hv := by
    have h1 := (w 1).toNat_lt
    have h6 := (w 6).toNat_lt
    simp
    omega
  P_zero := rfl

def amd64Tables : X64 where
  pml4e := amd64
  pdpe := amd64
  pde := amd64
  pte := amd64
  pml4e_keeps _ h := Nat.lt_trans h (by decide)
  pdpe_keeps _ h := Nat.lt_trans h (by decide)
  pde_keeps _ h := Nat.lt_trans h (by decide)

end Vin64.Vm
