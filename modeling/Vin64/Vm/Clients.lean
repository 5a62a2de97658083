import Vin64.Vm.Manager
import Vin64.Vram.Calls

/-!
# Several clients of one RAM manager

A client tests the flags of its block before it takes the mutex.  The test is one step and
the body under the mutex another, and the steps of several clients come in any order.
`EnsureRamBlock` takes no mutex: its test, its search and its exchange are steps.
-/

namespace Vin64.Vm

open Vin64.Lib Vin64.Lib.Op Vin64.Utils Vin64.Vram

/-- What a client is about to do after a test. -/
inductive Pending where
  | idle
  | swapOut (pref : Nat)
  | swapIn (pref : Nat)
  | free (pref : Nat)
  | ensureFind (pref : Nat)
  | ensureSwap (pref i : Nat)
deriving Repr, DecidableEq

/-- The steps of a client: a test, a call under the mutex, or what is pending. -/
inductive Act where
  | testSwapOut (pref : Nat) (bForce : Bool)
  | testSwapIn (pref : Nat)
  | testFree (pref : Nat)
  | testEnsure (pref : Nat)
  | alloc (pref : Nat) (flags : BitVec 32)
  | directAccess (pref : Nat)
  | directWrite (pref off : Nat) (p : Nat → UInt8) (cb : Nat)
  | directRead (pref off cb : Nat)
  | resume

structure System where
  mgr : RamManager
  pending : Nat → Pending

structure ClientStep where
  client : Nat
  act : Act
  env : Env

/-- What is pending after a test of the flags; the call ends at the test when it is `idle`. -/
def test (s : RamManager) : Act → Pending
  | .testSwapOut pref bForce =>
    if (s.blocks pref).flags &&& BF_SWAPPED ≠ 0#32 then .idle
    else if (s.blocks pref).flags &&& BF_LOCKED ≠ 0#32 ∧ ¬ bForce then .idle
    else .swapOut pref
  | .testSwapIn pref =>
    if (s.blocks pref).flags &&& BF_SWAPPED = 0#32 then .idle else .swapIn pref
  | .testFree pref => if (s.blocks pref).flags = 0#32 then .idle else .free pref
  | .testEnsure pref =>
    if (s.blocks pref).flags = 0#32 then .idle
    else if (s.blocks pref).flags &&& BF_SWAPPED = 0#32 then .idle
    else .ensureFind pref
  | _ => .idle

def resume (e : Env) : Pending → Ram Pending
  | .idle => return .idle
  | .swapOut pref => do ramSwapOutBody e pref; return .idle
  | .swapIn pref => do ramSwapInBody e pref; return .idle
  | .free pref => do ramFreeBody pref; return .idle
  | .ensureFind pref => do
    let i ← findFreeOrSwappableAddress e.change
    return .ensureSwap pref i
  | .ensureSwap pref i => do swapRamAndPageFile e i (some pref); return .idle

/-- A step on the manager, and what is pending after it. -/
def perform (t : Target) (e : Env) (pending : Pending) : Act → Ram Pending
  | .alloc pref flags => do ramAllocAddress e pref flags; return .idle
  | .directAccess pref => do
    let _ ← ramDirectAccess e pref none
    return .idle
  | .directWrite pref off p cb => do ramDirectWrite t e pref off p cb; return .idle
  | .directRead pref off cb => do
    let _ ← ramDirectRead t e pref off cb
    return .idle
  | .resume => resume e pending
  | a => do
    let s ← get
    return test s a

/-- What is pending after a step; a call that fails is over. -/
def after : Except HRESULT Pending → Pending
  | .ok p => p
  | .error _ => .idle

/-- The client is between calls, or it goes on with its call. -/
def Act.Fits (pending : Pending) (a : Act) : Prop := pending = .idle ∨ a = .resume

/-- A block is freed or allocated by one client at a time. -/
def Act.Alone (pending : Nat → Pending) : Act → Prop
  | .alloc pref _ => ∀ c, pending c ≠ .free pref
  | .testFree pref => ∀ c, pending c ≠ .free pref
  | _ => True

def clientStep (t : Target) (x : System) (v : ClientStep) (y : System) : Prop :=
  v.act.Fits (x.pending v.client) ∧ v.act.Alone x.pending ∧
    ∃ r, perform t v.env (x.pending v.client) v.act x.mgr = some (r, y.mgr) ∧
      y.pending = Function.update x.pending v.client (after r)

end Vin64.Vm
