import Mathlib.Logic.Function.Basic
import Vin64.Vram.FileSection

/-!
# Giving a section its file (`KmoSection::create` of `vos/kmo.cpp`)

A file is known by its address.  Nothing in the sources declares `FILE_WRITE_ACCESS`; it has the
value that Windows gives it.
-/

namespace Vin64.Vram

def FILE_WRITE_ACCESS : BitVec 32 := 2
def ERROR_ACCESS_DENIED : Nat := 5

/-- The interface of a file, as far as `create` calls it; `access` and `length` leave the file as
it is. -/
structure FileQueries (φ : Type) where
  access : φ → Except HRESULT (BitVec 32)
  length : φ → Except HRESULT (BitVec 64)
  resize : BitVec 64 → φ → Except HRESULT Unit × φ

/-- What a section knows of its file. -/
structure SectionFields where
  file : Option Nat
  size : BitVec 64
  acc : BitVec 32
deriving Repr, DecidableEq

namespace SectionFields

variable {φ : Type}

/-- The constructor. -/
def new : SectionFields := ⟨none, 0, 0⟩

/-- The size that is asked for; -1 stands for the length of the file. -/
def wanted (size fs : BitVec 64) : BitVec 64 := if size = -1 then fs else size

/-- `create` -/
def create (Q : FileQueries φ) (s : SectionFields) (files : Nat → φ) (f : Nat) (size : BitVec 64)
    (acc : BitVec 32) : Except HRESULT Unit × SectionFields × (Nat → φ) :=
  match Q.access (files f) with
  | .error hr => (.error hr, s, files)
  | .ok facc =>
    let fw := facc &&& FILE_WRITE_ACCESS
    let sw := acc &&& SECTION_MAP_WRITE
    if fw = 0 ∧ sw ≠ 0 then (.error (.win32 ERROR_ACCESS_DENIED), s, files)
    else
      match Q.length (files f) with
      | .error hr => (.error hr, s, files)
      | .ok fs =>
        let size := wanted size fs
        if fw ≠ 0 ∧ fs < size then
          match Q.resize size (files f) with
          | (.error hr, x) => (.error hr, s, Function.update files f x)
          | (.ok (), x) => (.ok (), s, Function.update files f x)
        else (.ok (), s, files)

/-! ## What creating is to do -/

/-- A file that was resized has the new length; one that could not be is as it was. -/
structure Resizes (Q : FileQueries φ) : Prop where
  length : ∀ size x y, Q.resize size x = (.ok (), y) → Q.length y = .ok size
  fails : ∀ size x y hr, Q.resize size x = (.error hr, y) → y = x

/-- The section serves `f` with the size that was asked for. -/
structure Serves (Q : FileQueries φ) (t : SectionFields) (files files' : Nat → φ) (f : Nat)
    (size : BitVec 64) : Prop where
  file : t.file = some f
  sized : ∃ fs, Q.length (files f) = .ok fs ∧ t.size = wanted size fs
  fits : ∃ len, Q.length (files' f) = .ok len ∧ t.size ≤ len
  writable : t.acc &&& SECTION_MAP_WRITE ≠ 0 →
    ∃ facc, Q.access (files f) = .ok facc ∧ facc &&& FILE_WRITE_ACCESS ≠ 0

structure CreateLaw (Q : FileQueries φ) (s : SectionFields) (files : Nat → φ) (f : Nat)
    (size : BitVec 64) (acc : BitVec 32) : Prop where
  serves : ∀ t files', s.create Q files f size acc = (.ok (), t, files') →
    t.Serves Q files files' f size
  unchanged : ∀ hr t files', s.create Q files f size acc = (.error hr, t, files') →
    t = s ∧ files' = files

/-- What makes `create` fail. -/
inductive Refused (Q : FileQueries φ) (x : φ) (size : BitVec 64) (acc : BitVec 32) : Prop
  | access {hr : HRESULT} : Q.access x = .error hr → Refused Q x size acc
  | denied {facc : BitVec 32} : Q.access x = .ok facc → facc &&& FILE_WRITE_ACCESS = 0 →
      acc &&& SECTION_MAP_WRITE ≠ 0 → Refused Q x size acc
  | length {hr : HRESULT} : Q.length x = .error hr → Refused Q x size acc
  | resize {facc : BitVec 32} {fs : BitVec 64} {hr : HRESULT} : Q.access x = .ok facc →
      facc &&& FILE_WRITE_ACCESS ≠ 0 → Q.length x = .ok fs → fs < wanted size fs →
      (Q.resize (wanted size fs) x).1 = .error hr → Refused Q x size acc

/-- The section serves the file already, which is writable or long enough. -/
structure Already (Q : FileQueries φ) (s : SectionFields) (x : φ) (f : Nat) (size : BitVec 64) :
    Prop where
  file : s.file = some f
  sized : ∃ fs, Q.length x = .ok fs ∧ s.size = wanted size fs
  fits : ∀ facc fs, Q.access x = .ok facc → Q.length x = .ok fs →
    facc &&& FILE_WRITE_ACCESS = 0 → wanted size fs ≤ fs
  writable : s.acc &&& SECTION_MAP_WRITE ≠ 0 →
    ∃ facc, Q.access x = .ok facc ∧ facc &&& FILE_WRITE_ACCESS ≠ 0

end SectionFields

end Vin64.Vram
