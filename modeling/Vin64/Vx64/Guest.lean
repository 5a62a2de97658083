import Vin64.Vx64.Machine

/-!
# What guest memory is for

A stack of windows onto the host's memory: an address belongs to the newest window that holds it.
Outside all windows zeros are read, and what is written is lost.
-/

namespace Vin64.Vx64

structure Window where
  mr : Nat
  pa : Nat
  size : Nat
  ptr : Nat
deriving Repr, DecidableEq

def Window.Holds (w : Window) (a : Nat) : Prop := w.pa ≤ a ∧ a < w.pa + w.size

instance Window.decidableHolds (w : Window) (a : Nat) : Decidable (w.Holds a) :=
  inferInstanceAs (Decidable (_ ∧ _))

/-- The newest window comes first. -/
structure Guest where
  windows : List Window
  memory : Nat → BitVec 8

namespace Guest

def windowOf (g : Guest) (a : Nat) : Option Window := g.windows.find? fun w => w.Holds a

def hostOf (g : Guest) (a : Nat) : Option Nat := (g.windowOf a).map fun w => w.ptr + (a - w.pa)

def readByte (g : Guest) (a : Nat) : BitVec 8 := ((g.hostOf a).map g.memory).getD 0

def writeByte (g : Guest) (a : Nat) (v : BitVec 8) : Guest :=
  { g with memory := fun p => if g.hostOf a = some p then v else g.memory p }

def read (g : Guest) (a len : Nat) : List (BitVec 8) :=
  (List.range' a len).map g.readByte

def write (g : Guest) : Nat → List (BitVec 8) → Guest
  | _, [] => g
  | a, v :: bytes => (g.writeByte a v).write (a + 1) bytes

end Guest

/-! ## Runs -/

inductive VxCall where
  | setupRam (mr : Nat) (guestPa : BitVec 64) (size : BitVec 32) (ptr : BitVec 64)
  | removeRam (mr : Nat)
  | read (addr len : Nat)
  | write (addr : Nat) (bytes : List (BitVec 8))

/-- What a call reads. -/
def Machine.call (m : Machine) : VxCall → Option (List (BitVec 8) × Machine)
  | .setupRam mr guestPa size ptr => (m.vx64SetupRam mr guestPa size ptr).map ([], ·)
  | .removeRam mr => (m.vx64RemoveRam mr).map ([], ·)
  | .read addr len => m.addressSpaceRead addr len
  | .write addr bytes => (m.addressSpaceWrite addr bytes).map ([], ·)

def Machine.calls : Machine → List VxCall → Option (List (List (BitVec 8)) × Machine)
  | m, [] => some ([], m)
  | m, call :: calls => do
    let (out, m) ← m.call call
    let (outs, m) ← m.calls calls
    some (out :: outs, m)

def Guest.call (g : Guest) : VxCall → List (BitVec 8) × Guest
  | .setupRam mr guestPa size ptr =>
    ([], { g with windows := ⟨mr, guestPa.toNat, size.toNat, ptr.toNat⟩ :: g.windows })
  | .removeRam mr => ([], { g with windows := g.windows.eraseP (·.mr = mr) })
  | .read addr len => (g.read addr len, g)
  | .write addr bytes => ([], g.write addr bytes)

def Guest.calls : Guest → List VxCall → List (List (BitVec 8)) × Guest
  | g, [] => ([], g)
  | g, call :: calls =>
    let (out, g) := g.call call
    let (outs, g) := g.calls calls
    (out :: outs, g)

/-- Windows are made of whole pages, and guest addresses have 52 bits.  A region is new when it is
set up, and is removed once.  The page map has room for 780 windows at least. -/
def Guest.Admits (g : Guest) : VxCall → Prop
  | .setupRam mr guestPa size ptr =>
    (∀ w ∈ g.windows, w.mr ≠ mr) ∧ guestPa.toNat % 4096 = 0 ∧ size.toNat % 4096 = 0 ∧
      0 < size.toNat ∧ guestPa.toNat + size.toNat ≤ 2 ^ 52 ∧
      ptr.toNat + size.toNat ≤ 18446744073709551616 ∧ g.windows.length < 780
  | .removeRam mr => ∃ w ∈ g.windows, w.mr = mr
  | .read addr len => addr + len ≤ 2 ^ 52
  | .write addr bytes => addr + bytes.length ≤ 2 ^ 52

instance Guest.decidableAdmits (g : Guest) : (call : VxCall) → Decidable (g.Admits call)
  | .setupRam .. => inferInstanceAs (Decidable (_ ∧ _))
  | .removeRam mr => inferInstanceAs (Decidable (∃ w ∈ g.windows, w.mr = mr))
  | .read addr len => inferInstanceAs (Decidable (addr + len ≤ 2 ^ 52))
  | .write addr bytes => inferInstanceAs (Decidable (addr + bytes.length ≤ 2 ^ 52))

/-- Every call of a run is admitted where it is made. -/
def Guest.AdmitsAll : Guest → List VxCall → Prop
  | _, [] => True
  | g, call :: calls => g.Admits call ∧ (g.call call).2.AdmitsAll calls

instance Guest.decidableAdmitsAll :
    (g : Guest) → (calls : List VxCall) → Decidable (g.AdmitsAll calls)
  | _, [] => isTrue trivial
  | g, call :: calls =>
    have := decidableAdmitsAll (g.call call).2 calls
    inferInstanceAs (Decidable (_ ∧ _))

end Vin64.Vx64
