import Mathlib.Order.Fin.Basic
import Vin64.Lib.Run
import Vin64.Lib.SortedMap
import Vin64.Vram.Manager

/-!
# The handle table (`KsHandleManager` of `rammgr.h`)

`handle_t` is `size_t`, of `w` bits; the keys of the table have 32.  An object is its address.
-/

namespace Vin64.Kernel

open Vin64.Lib Vin64.Vram

def ERROR_INVALID_HANDLE : Nat := 6

/-- `uint32_t`, with its order and its arithmetic modulo 4294967296. -/
abbrev UInt32_t := Fin 4294967296

structure Handle where
  hacc : UInt32_t
  object : Nat
deriving Repr, DecidableEq

abbrev KsHandleManager := SortedMap UInt32_t Handle

variable {w : Nat}

/-- The value the next handle gets: `_handles.rbegin()->first + 4`. -/
def KsHandleManager.next (m : KsHandleManager) : UInt32_t :=
  match m.last with
  | none => 4
  | some e => e.1 + 4

/-- `ph` is the variable the caller passes, with its value; the call does not write it. -/
def KsHandleManager.allocHandle (m : KsHandleManager) (ph : Option (BitVec w)) (ob : Option Nat)
    (hacc : UInt32_t) : Except HRESULT KsHandleManager :=
  match ph, ob with
  | some _, some ob => .ok (m.assign m.next ⟨hacc, ob⟩)
  | _, _ => .error .E_INVALIDARG

/-- `find` takes the low 32 bits of `h`. -/
def KsHandleManager.freeHandle (m : KsHandleManager) (h : BitVec w) :
    Except HRESULT KsHandleManager :=
  if h.toNat % 4 ≠ 0 then .error (.win32 ERROR_INVALID_HANDLE)
  else
    match m.find (Fin.ofNat _ h.toNat) with
    | none => .error (.win32 ERROR_INVALID_HANDLE)
    | some _ => .ok (m.erase (Fin.ofNat _ h.toNat))

inductive HandleCall (w : Nat) where
  | allocHandle (ph : Option (BitVec w)) (ob : Option Nat) (hacc : UInt32_t)
  | freeHandle (h : BitVec w)

def KsHandleManager.call (m : KsHandleManager) : HandleCall w → Except HRESULT KsHandleManager
  | .allocHandle ph ob hacc => m.allocHandle ph ob hacc
  | .freeHandle h => m.freeHandle h

/-- The table a call leaves: a call that fails leaves it as it is. -/
def KsHandleManager.after (m : KsHandleManager) (c : HandleCall w) : KsHandleManager :=
  match m.call c with
  | .ok m' => m'
  | .error _ => m

abbrev KsHandleManager.Step (m : KsHandleManager) (c : HandleCall w) (m' : KsHandleManager) : Prop :=
  m.after c = m'

/-- `m'` is `m` with one more entry, under a handle of its own. -/
def KsHandleManager.Adds (m m' : KsHandleManager) (entry : Handle) : Prop :=
  ∃ hv, hv ≠ 0 ∧ hv.val % 4 = 0 ∧ m.find hv = none ∧ m'.find hv = some entry ∧
    ∀ k, k ≠ hv → m'.find k = m.find k

/-- The key that `freeHandle` looks for. -/
abbrev KsHandleManager.lowBits (h : BitVec w) : UInt32_t := Fin.ofNat _ h.toNat

/-- `h` is the handle of some entry. -/
def KsHandleManager.Live (m : KsHandleManager) (h : BitVec w) : Prop :=
  ∃ k entry, k.val = h.toNat ∧ m.find k = some entry

/-- What is expected of handles: `h` is the caller's variable, for an allocation and then for the
release of what was allocated, and `hv` is any value that is given to `freeHandle`. -/
structure KsHandleManager.HandleLaw (m : KsHandleManager) (h : BitVec w) (ob : Nat)
    (hacc : UInt32_t) (hv : BitVec w) : Prop where
  restores : ∀ m', m.allocHandle (some h) (some ob) hacc = .ok m' → m'.freeHandle h = .ok m
  frees : (∃ m', m.freeHandle hv = .ok m') ↔ m.Live hv
  erases : ∀ m', m.freeHandle hv = .ok m' → ∃ k, k.val = hv.toNat ∧ m' = m.erase k

end Vin64.Kernel
