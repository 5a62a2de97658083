import Mathlib.Algebra.Group.Nat.Defs
import Vin64.Utils.Target

/-!
# Types of values (`xvalue.h`)

The header itself is not part of the repository.  `Header` holds what the code takes from it.
-/

namespace Vin64.Xv

open Vin64.Utils

inductive ValueType where
  | dNull | dInt | dReal | dLocalStr | dUtf8Str | dUniStr | dArray | dObject | dBuffer | dUnknown
deriving Repr, DecidableEq

inductive ValueSize where
  | s8 | s16 | s32 | s64
deriving Repr, DecidableEq

abbrev Byte := BitVec 8

/-- The bytes of an integer of the width. -/
def ValueSize.bytes : ValueSize → Nat
  | .s8 => 1
  | .s16 => 2
  | .s32 => 4
  | .s64 => 8

/-- `type_byte` is one byte; a field of it is `none` when it holds no enumerator. -/
structure Header where
  type : Byte → Option ValueType
  bsiz : Byte → Option ValueSize
  MAX_KEY_LEN : Nat
  target : Target

/-- `value % 2^n` for the `n` bits of `size_t`. -/
def Header.sizeT (x : Header) (n : Nat) : Nat := n % 2 ^ x.target.sizeBits

/-- A value and all that it holds.  The entries of a container are in the order of the keys;
`real` keeps the bits of the number. -/
inductive Val where
  | null
  | int (bsiz : ValueSize) (integer : BitVec 64)
  | real (bits : BitVec 64)
  | localStr (str : List Byte)
  | utf8Str (str : List Byte)
  | uniStr (str : List (BitVec 16))
  | array (elements : List (Nat × Val))
  | object (elements : List (List Byte × Val))
  | buffer (bytes : List Byte)
deriving Repr

/-- `_elements[key] = item` -/
def setElement {κ : Type} (lt : κ → κ → Bool) (key : κ) (item : Val) :
    List (κ × Val) → List (κ × Val)
  | [] => [(key, item)]
  | (k, v) :: elements =>
    if lt key k then (key, item) :: (k, v) :: elements
    else if lt k key then (k, v) :: setElement lt key item elements
    else (key, item) :: elements

/-- The order of `std::string`: the characters are compared as unsigned numbers. -/
def nameLt : List Byte → List Byte → Bool
  | _, [] => false
  | [], _ :: _ => true
  | a :: as, b :: bs => if a.toNat < b.toNat then true
    else if b.toNat < a.toNat then false else nameLt as bs

end Vin64.Xv
