import Vin64.Lib.Ring
import Mathlib.Algebra.Order.Ring.Nat

/-!
# Jumps between translated blocks (`vx64/qemu/translate-all.c`, `exec/exec-all.h`)

A pointer to a block is its index.  The two low bits of a pointer in a list tell which field of the
block goes on, so that the pointer names a field.  `none` is an access through `NULL`.
-/

namespace Vin64.Vx64

open Vin64.Lib

/-- The literals `0` and `1` of `Fin 2` take this instance.  Without it each module proves the one
they take under a name of its own, and one statement is not the same term in two modules. -/
instance neZeroTwo : NeZero (2 : Nat) := ⟨Nat.succ_ne_zero 1⟩

inductive Link where
  | jmpNext (tb : Nat) (n : Fin 2)
  | jmpFirst (tb : Nat)
deriving Repr, DecidableEq

/-- The fields that make up the lists, and where the jumps of each block lead: to another block, or
behind themselves. -/
structure Jumps where
  field : Link → Option Link
  tbNext : Nat → Fin 2 → Option Nat

namespace Jumps

def assign (j : Jumps) (link : Link) (value : Option Link) : Jumps :=
  { j with field := Function.update j.field link value }

/-- `tb_set_jmp_target`, and with `none` `tb_reset_jump` -/
def tbSetJmpTarget (j : Jumps) (tb : Nat) (n : Fin 2) (target : Option Nat) : Jumps :=
  { j with tbNext := Function.update j.tbNext tb (Function.update (j.tbNext tb) n target) }

@[simp] theorem assign_field (j : Jumps) (link : Link) (value : Option Link) :
    (j.assign link value).field = Function.update j.field link value := rfl

@[simp] theorem assign_tbNext (j : Jumps) (link : Link) (value : Option Link) :
    (j.assign link value).tbNext = j.tbNext := rfl

@[simp] theorem tbSetJmpTarget_field (j : Jumps) (tb : Nat) (n : Fin 2) (target : Option Nat) :
    (j.tbSetJmpTarget tb n target).field = j.field := rfl

theorem tbSetJmpTarget_tbNext (j : Jumps) (tb : Nat) (n : Fin 2) (target : Option Nat) (s : Nat)
    (m : Fin 2) : (j.tbSetJmpTarget tb n target).tbNext s m =
      if s = tb ∧ m = n then target else j.tbNext s m := by
  unfold tbSetJmpTarget
  dsimp only
  by_cases hs : s = tb
  · subst hs
    rw [Function.update_self, Function.update_apply]
    exact if_congr ⟨fun hm => ⟨rfl, hm⟩, And.right⟩ rfl rfl
  · rw [Function.update_of_ne hs, if_neg fun hc => hs hc.1]

/-- `tb_link_page`, as far as the jumps go. -/
def tbInit (j : Jumps) (tb : Nat) : Jumps :=
  let j := j.assign (.jmpFirst tb) (some (.jmpFirst tb))
  let j := (j.assign (.jmpNext tb 0) none).assign (.jmpNext tb 1) none
  (j.tbSetJmpTarget tb 0 none).tbSetJmpTarget tb 1 none

/-- `tb_add_jump` -/
def tbAddJump (j : Jumps) (tb : Nat) (n : Fin 2) (tbNext : Nat) : Jumps :=
  if j.field (.jmpNext tb n) = none then
    let j := j.tbSetJmpTarget tb n (some tbNext)
    let j := j.assign (.jmpNext tb n) (j.field (.jmpFirst tbNext))
    j.assign (.jmpFirst tbNext) (some (.jmpNext tb n))
  else j

/-- `tb_jmp_remove`; the list is not longer than `fuel`. -/
def tbJmpRemove (j : Jumps) (fuel tb : Nat) (n : Fin 2) : Option Jumps :=
  if j.field (.jmpNext tb n) = none then some j
  else do
    let ptb ← before j.field (.jmpNext tb n) fuel (.jmpNext tb n)
    let j := j.assign ptb (j.field (.jmpNext tb n))
    some (j.assign (.jmpNext tb n) none)

/-- The last loop of `tb_phys_invalidate`. -/
def resetJumps (j : Jumps) : Nat → Option Link → Option Jumps
  | 0, _ => none
  | _ + 1, none => none
  | _ + 1, some (.jmpFirst _) => some j
  | fuel + 1, some (.jmpNext tb1 n1) =>
    let tb2 := j.field (.jmpNext tb1 n1)
    ((j.tbSetJmpTarget tb1 n1 none).assign (.jmpNext tb1 n1) none).resetJumps fuel tb2

/-- `tb_phys_invalidate`, as far as the jumps go. -/
def tbInvalidate (j : Jumps) (fuel tb : Nat) : Option Jumps := do
  let j ← j.tbJmpRemove fuel tb 0
  let j ← j.tbJmpRemove fuel tb 1
  let j ← j.resetJumps fuel (j.field (.jmpFirst tb))
  some (j.assign (.jmpFirst tb) (some (.jmpFirst tb)))

/-- The block at the head of the list that a pointer is in. -/
def listHead (j : Jumps) : Nat → Option Link → Option Nat
  | 0, _ => none
  | _ + 1, none => none
  | _ + 1, some (.jmpFirst tb) => some tb
  | fuel + 1, some (.jmpNext tb n) => j.listHead fuel (j.field (.jmpNext tb n))

/-- The body of `tb_reset_jump_recursive2`, and the block that the jump led to. -/
def tbResetJump2 (j : Jumps) (fuel tb : Nat) (n : Fin 2) : Option (Jumps × Nat) := do
  let tbNext ← j.listHead fuel (j.field (.jmpNext tb n))
  let ptb ← before j.field (.jmpNext tb n) fuel (.jmpFirst tbNext)
  let j := j.assign ptb (j.field (.jmpNext tb n))
  let j := j.assign (.jmpNext tb n) none
  some (j.tbSetJmpTarget tb n none, tbNext)

/-- `tb_reset_jump_recursive`, for the jumps that are left, of which there are two at first. -/
def tbResetJumpRecursive (j : Jumps) (fuel tb : Nat) : Nat → List (Fin 2) → Option Jumps
  | 0, _ => none
  | _ + 1, [] => some j
  | depth + 1, n :: ns =>
    if j.field (.jmpNext tb n) = none then j.tbResetJumpRecursive fuel tb depth ns
    else do
      let (j, tbNext) ← j.tbResetJump2 fuel tb n
      let j ← j.tbResetJumpRecursive fuel tbNext depth [0, 1]
      j.tbResetJumpRecursive fuel tb depth ns

end Jumps

end Vin64.Vx64
