import Mathlib.Algebra.Group.Nat.Defs

/-!
# Murmur hashes of bytes (`utils/murmur.h`)

`MurmurHash1` and `MurmurHash1LowCase` read the `sizeof(T)*cnt` bytes at `pdat`.  They differ
in `lv`, which makes a word or a byte lower case before it is added.
-/

namespace Vin64.Utils.Murmur

abbrev Byte := BitVec 8

def m : BitVec 32 := 0xc6a4a793#32

def r : Nat := 16

/-- `data[i]` -/
def byteAt (data : List Byte) (i : Nat) : Byte := data.getD i 0#8

def le32 (b0 b1 b2 b3 : Byte) : BitVec 32 := b3 ++ b2 ++ b1 ++ b0

def GET_AS_LE32 (data : List Byte) : BitVec 32 :=
  le32 (byteAt data 0) (byteAt data 1) (byteAt data 2) (byteAt data 3)

/-- The loop body of the template `lv` -/
def lvRound (ch : Byte) : Byte :=
  if ch &&& 0x20#8 ≠ 0#8 then ch
  else if 0x41#8 ≤ ch ∧ ch ≤ 0x5A#8 then ch + 0x61#8 - 0x41#8
  else ch

/-- `lv` for a word, byte after byte -/
def lv32 (v : BitVec 32) : BitVec 32 :=
  le32 (lvRound (v.extractLsb' 0 8)) (lvRound (v.extractLsb' 8 8))
    (lvRound (v.extractLsb' 16 8)) (lvRound (v.extractLsb' 24 8))

/-- `lv` for an `unsigned char` -/
def lv8 (v : Byte) : Byte :=
  if v &&& 0x20#8 ≠ 0#8 ∨ v < 0x41#8 ∨ 0x5A#8 < v then v else v + 0x61#8 - 0x41#8

/-- `h *= m; h ^= h >> n;` -/
def mulShift (h : BitVec 32) (n : Nat) : BitVec 32 := h * m ^^^ (h * m) >>> n

/-- The loop over the words; what is left are the last bytes, their number and the hash. -/
def words (lvWord : BitVec 32 → BitVec 32) (data : List Byte) (len : Nat) (h : BitVec 32) :
    List Byte × Nat × BitVec 32 :=
  if 4 ≤ len then
    let k := lvWord (GET_AS_LE32 data)
    words lvWord (data.drop 4) (len - 4) (mulShift (h + k) 16)
  else (data, len, h)
termination_by len

/-- The `switch`, whose cases fall through -/
def lastBytes (lvByte : Byte → Byte) (data : List Byte) (len : Nat) (h : BitVec 32) : BitVec 32 :=
  let h := if len = 3 then h + (lvByte (byteAt data 2)).setWidth 32 <<< 16 else h
  let h := if len = 3 ∨ len = 2 then h + (lvByte (byteAt data 1)).setWidth 32 <<< 8 else h
  if len = 3 ∨ len = 2 ∨ len = 1 then mulShift (h + (lvByte (byteAt data 0)).setWidth 32) r else h

def hash (lvWord : BitVec 32 → BitVec 32) (lvByte : Byte → Byte) (data : List Byte)
    (seed : BitVec 32) : BitVec 32 :=
  let len := data.length % 2 ^ 32
  let h := seed ^^^ (BitVec.ofNat 32 len * m)
  let rest := words lvWord data len h
  let h := lastBytes lvByte rest.1 rest.2.1 rest.2.2
  mulShift (mulShift h 10) 17

def MurmurHash1 (data : List Byte) (seed : BitVec 32) : BitVec 32 :=
  hash (fun k => k) (fun b => b) data seed

def MurmurHash1LowCase (data : List Byte) (seed : BitVec 32) : BitVec 32 :=
  hash lv32 lv8 data seed

/-- The lower case of an ASCII letter; other bytes are left. -/
def asciiLower (b : Byte) : Byte :=
  if 0x41#8 ≤ b ∧ b ≤ 0x5A#8 then b + 0x20#8 else b

end Vin64.Utils.Murmur
