import Vin64.Xv.Types

/-!
# Writing values (`utils/xvwritter.h`)

The result of an operation is what it writes, or `none` where the code returns false.  The output
is a `binstm`, which takes everything.
-/

namespace Vin64.Xv

open Vin64.Utils

/-- `type_byte` with its layout: a byte keeps a type and a width. -/
structure TypeByte where
  type : Byte → Option ValueType
  bsiz : Byte → Option ValueSize
  pack : ValueType → ValueSize → Byte
  type_pack : ∀ typ vs, type (pack typ vs) = some typ
  bsiz_pack : ∀ typ vs, bsiz (pack typ vs) = some vs

/-- The header with this `type_byte`. -/
def TypeByte.header (l : TypeByte) (MAX_KEY_LEN : Nat) (target : Target) : Header :=
  ⟨l.type, l.bsiz, MAX_KEY_LEN, target⟩

/-- A value before it is written, with the width in the type byte of a real. -/
inductive Value where
  | null
  | int (bsiz : ValueSize) (integer : BitVec 64)
  | real (bsiz : ValueSize) (bits : BitVec 64)
  | localStr (str : List Byte)
  | utf8Str (str : List Byte)
  | uniStr (str : List (BitVec 16))
  | array (elements : List (Nat × Value))
  | object (elements : List (List Byte × Value))
  | buffer (bytes : List Byte)
deriving Repr

/-- The low bytes of a number, the lowest first. -/
def toBytes : Nat → Nat → List Byte
  | 0, _ => []
  | size + 1, n => BitVec.ofNat 8 n :: toBytes size (n / 256)

/-- The bytes of characters. -/
def charBytes (size : Nat) (str : List (BitVec (8 * size))) : List Byte :=
  str.flatMap fun c => toBytes size c.toNat

/-- The loop of `write_leb128`, of at most `n` rounds. -/
def leb128 : Nat → Nat → List Byte
  | 0, _ => []
  | n + 1, v =>
    let b := BitVec.ofNat 8 v &&& 0x7F
    let v := v >>> 7
    if v = 0 then [b ||| 0x80] else b :: leb128 n v

/-- `write_leb128`; the code returns the number of bytes. -/
def writeLeb128 (target : Target) (v : Nat) : List Byte := leb128 target.sizeBits v

variable (l : TypeByte) (target : Target)

/-- The type and the count in front of the characters, bytes, elements or fields. -/
def writeCount (typ : ValueType) (n : Nat) : Option (List Byte) :=
  if n < 0x100 then some (l.pack typ .s8 :: toBytes 1 n)
  else if n < 0x10000 then some (l.pack typ .s16 :: toBytes 2 n)
  else none

def writeNull : Option (List Byte) := some []

def writeInt (bsiz : ValueSize) (integer : BitVec 64) : Option (List Byte) :=
  some (l.pack .dInt bsiz :: toBytes bsiz.bytes integer.toNat)

def writeReal (bsiz : ValueSize) (bits : BitVec 64) : Option (List Byte) :=
  some (l.pack .dReal bsiz :: toBytes 8 bits.toNat)

/-- The three ways to write a string; `length` counts the zero behind the characters. -/
def writeStr (typ : ValueType) (size : Nat) (str : List (BitVec (8 * size))) :
    Option (List Byte) := do
  let cch := str.length + 1
  if cch = 0 then none
  else
    let count ← writeCount l typ cch
    return count ++ charBytes size (str ++ [0])

def writeLstr (str : List Byte) : Option (List Byte) := writeStr l .dLocalStr 1 str

def writeUtf8 (str : List Byte) : Option (List Byte) := writeStr l .dUtf8Str 1 str

def writeUnicode (str : List (BitVec 16)) : Option (List Byte) := writeStr l .dUniStr 2 str

/-- `write_buffer`; a count of four bytes is the last resort. -/
def writeBuffer (bytes : List Byte) : Option (List Byte) :=
  let cb := bytes.length
  let count := if cb < 0x100 then l.pack .dBuffer .s8 :: toBytes 1 cb
    else if cb < 0x10000 then l.pack .dBuffer .s16 :: toBytes 2 cb
    else l.pack .dBuffer .s32 :: toBytes 4 cb
  some (count ++ bytes)

/-- The key of `dump_pair` in `write_dict`. -/
def writeKey (name : List Byte) : Option (List Byte) :=
  let l := name.length + 1
  if 255 < l then none else some (toBytes 1 l ++ (name ++ [0]))

mutual

/-- `writter::write` -/
def write : Value → Option (List Byte)
  | .null => writeNull
  | .int bsiz integer => writeInt l bsiz integer
  | .real bsiz bits => writeReal l bsiz bits
  | .localStr str => writeLstr l str
  | .utf8Str str => writeUtf8 l str
  | .uniStr str => writeUnicode l str
  | .array elements => do
    let count ← writeCount l .dArray elements.length
    let dumped ← writeElements elements
    return count ++ dumped
  | .object elements => do
    let count ← writeCount l .dObject elements.length
    let dumped ← writePairs elements
    return count ++ dumped
  | .buffer bytes => writeBuffer l bytes

/-- `enum_it` with the `dump_pair` of `write_array` -/
def writeElements : List (Nat × Value) → Option (List Byte)
  | [] => some []
  | (idx, item) :: elements => do
    let value ← write item
    let dumped ← writeElements elements
    return writeLeb128 target idx ++ (value ++ dumped)

/-- `enum_it` with the `dump_pair` of `write_dict` -/
def writePairs : List (List Byte × Value) → Option (List Byte)
  | [] => some []
  | (name, item) :: elements => do
    let key ← writeKey name
    let value ← write item
    let dumped ← writePairs elements
    return key ++ (value ++ dumped)

end

end Vin64.Xv
