import Vin64.Lib.Op
import Vin64.Xv.Types

/-!
# Reading values (`utils/xvreader.h`)

Addresses are offsets from the start of the buffer.  An operation ends with a value, or with
`failed` where the code returns false, or with `fault` where it reads an address that is not
readable; without a result it does not end.  Beside the cursor the state counts the calls of
`fetch` and records how deep they were nested.
-/

namespace Vin64.Xv

open Vin64.Lib Vin64.Utils

/-- The buffer, and what can be read behind it. -/
structure Buffer where
  bytes : List Byte
  behind : List Byte

structure Reader where
  current : Nat
  calls : Nat
  deepest : Nat
deriving Repr, DecidableEq

inductive Stop where
  | failed
  | fault
deriving Repr, DecidableEq

abbrev ReaderM (α : Type) : Type := Op Reader Stop α

/-- The number with these bytes, the lowest first. -/
def ofBytes : List Byte → Nat
  | [] => 0
  | b :: bytes => b.toNat + 256 * ofBytes bytes

/-- The character of `size` bytes at an address. -/
def charAt (memory : List Byte) (size i : Nat) : Option (BitVec (8 * size)) :=
  if i + size ≤ memory.length then some (BitVec.ofNat _ (ofBytes ((memory.drop i).take size)))
  else none

/-- The characters before the first zero, as `assign` and `strlen` read them. -/
def charsAt (memory : List Byte) (size : Nat) : Nat → Nat → Option (List (BitVec (8 * size)))
  | 0, _ => none
  | fuel + 1, i => do
    let c ← charAt memory size i
    if c = 0 then return []
    let str ← charsAt memory size fuel (i + size)
    return c :: str

namespace Buffer

def memory (src : Buffer) : List Byte := src.bytes ++ src.behind

/-- A character that the code reads through a pointer. -/
def readChar (src : Buffer) (size i : Nat) : ReaderM (BitVec (8 * size)) :=
  match charAt src.memory size i with
  | none => Op.fail .fault
  | some c => pure c

/-- A string that the code reads through a pointer. -/
def readStr (src : Buffer) (size i : Nat) : ReaderM (List (BitVec (8 * size))) :=
  match charsAt src.memory size (src.memory.length + 1) i with
  | none => Op.fail .fault
  | some str => pure str

/-- `bytestream::rest` -/
def rest (src : Buffer) : ReaderM Nat := do
  let s ← Op.get
  return src.bytes.length - s.current

/-- `bytestream::fetch` of an object of `size` bytes. -/
def fetchBytes (src : Buffer) (size : Nat) : ReaderM (List Byte) := do
  let s ← Op.get
  if src.bytes.length < s.current + size then Op.fail .failed
  else
    Op.modify fun s => { s with current := s.current + size }
    return (src.bytes.drop s.current).take size

/-- `bytestream::fetch_ptr`; the result is the address. -/
def fetchPtr (x : Header) (src : Buffer) (size count : Nat) : ReaderM Nat := do
  let bytes := x.sizeT (size * count)
  let rest ← src.rest
  if rest < bytes then Op.fail .failed
  else
    let s ← Op.get
    Op.modify fun s => { s with current := s.current + bytes }
    return s.current

end Buffer

variable (x : Header) (src : Buffer)

/-- `fetch_x` -/
def fetchX (bsiz : Option ValueSize) : ReaderM Nat :=
  match bsiz with
  | none => Op.fail .failed
  | some bsiz => do
    let bytes ← src.fetchBytes bsiz.bytes
    return ofBytes bytes

/-- `fetch_number(typ, ret)`.  `set(int16_t)` stores into its parameter, so that number stays
0. -/
def fetchNumber (bsiz : Option ValueSize) : ReaderM Val :=
  match bsiz with
  | none => Op.fail .failed
  | some .s16 => do
    let _ ← src.fetchBytes 2
    return .int .s16 0
  | some bsiz => do
    let bytes ← src.fetchBytes bsiz.bytes
    return .int bsiz ((BitVec.ofNat (8 * bsiz.bytes) (ofBytes bytes)).signExtend 64)

/-- `fetch_number<double>` -/
def fetchReal : ReaderM Val := do
  let bytes ← src.fetchBytes 8
  return .real (BitVec.ofNat 64 (ofBytes bytes))

/-- The loop of `fetch_leb128`; the result is `i` and `k`. -/
def leb128Loop (bits : Nat) : Nat → Nat → Byte → BitVec bits → ReaderM (Nat × BitVec bits)
  | 0, i, _, k => return (i, k)
  | n + 1, i, b, k => do
    if b &&& 0x80 = 0 then
      let bytes ← src.fetchBytes 1
      let b := BitVec.ofNat 8 (ofBytes bytes)
      let v := (b &&& 0x7F).setWidth bits
      leb128Loop bits n (i + 1) b (k ||| v <<< (i * 7))
    else return (i, k)

/-- `fetch_leb128(k)` with `k` 0 before; it returns 0 when the buffer ends, which every caller
takes for a failure. -/
def fetchLeb128 (rmax : Nat) : ReaderM (Nat × BitVec x.target.sizeBits) :=
  leb128Loop src x.target.sizeBits rmax 0 0 0

/-- `fetch_key`; the result is the address. -/
def fetchKey : ReaderM Nat := do
  let bytes ← src.fetchBytes 1
  let cch := ofBytes bytes
  if cch = 0 then Op.fail .failed
  else
    let data ← src.fetchPtr x 1 cch
    let last ← src.readChar 1 (data + (cch - 1))
    if last ≠ 0 then Op.fail .failed
    else return data

/-- `fetch_str`; `data[cch-1]` is the character before `data` when `cch` is 0. -/
def fetchStr (size : Nat) (bsiz : Option ValueSize) : ReaderM (List (BitVec (8 * size))) := do
  let cch ← fetchX src bsiz
  let cch := x.sizeT cch
  let data ← src.fetchPtr x size cch
  let index := x.sizeT (cch + (2 ^ x.target.sizeBits - 1))
  let last ← src.readChar size (x.sizeT (data + size * index))
  if last ≠ 0 then Op.fail .failed
  else src.readStr size data

/-- `fetch_buf` -/
def fetchBuf (bsiz : Option ValueSize) : ReaderM Val := do
  let ccb ← fetchX src bsiz
  let ccb := x.sizeT ccb
  let rest ← src.rest
  if rest < ccb then Op.fail .failed
  else
    let data ← src.fetchPtr x 1 ccb
    return .buffer ((src.bytes.drop data).take ccb)

/-- The loop of `fetch_array`; `fetch` reads one element. -/
def fetchElements (fetch : ReaderM Val) (elmts : Nat) :
    Nat → Nat → List (Nat × Val) → ReaderM (List (Nat × Val))
  | 0, _, _ => Op.fault
  | fuel + 1, i, elements => do
    if i < elmts then
      let (read, idx) ← fetchLeb128 x src 5
      if read = 0 then Op.fail .failed
      else
        let elmt ← fetch
        let elements := setElement (fun a b => a < b) idx.toNat elmt elements
        fetchElements fetch elmts fuel (x.sizeT (i + 1)) elements
    else return elements

/-- The loop of `fetch_dict`; `fetch` reads one value. -/
def fetchPairs (fetch : ReaderM Val) (pairs : Nat) :
    Nat → Nat → List (List Byte × Val) → ReaderM (List (List Byte × Val))
  | 0, _, _ => Op.fault
  | fuel + 1, i, elements => do
    if i < pairs then
      let key ← fetchKey x src
      let item ← fetch
      let name ← src.readStr 1 key
      if name.length = 0 ∨ x.MAX_KEY_LEN < name.length then Op.fail .failed
      else
        fetchPairs fetch pairs fuel (x.sizeT (i + 1)) (setElement nameLt name item elements)
    else return elements

/-- `fetch_array`, into a value that was null before. -/
def fetchArray (bsiz : Option ValueSize) (fuel : Nat) (fetch : ReaderM Val) : ReaderM Val := do
  let elmts ← fetchX src bsiz
  let elements ← fetchElements x src fetch elmts fuel 0 []
  return .array elements

/-- `fetch_dict`, into a value that was null before. -/
def fetchDict (bsiz : Option ValueSize) (fuel : Nat) (fetch : ReaderM Val) : ReaderM Val := do
  let pairs ← fetchX src bsiz
  let elements ← fetchPairs x src fetch pairs fuel 0 []
  return .object elements

/-- A call of `fetch` at the depth. -/
def enter (depth : Nat) : ReaderM Unit :=
  Op.modify fun s => { s with calls := s.calls + 1, deepest := max s.deepest depth }

/-- The `switch` of `fetch` on the type byte; `fetch` reads what a container holds. -/
def fetchType (vt : Byte) (fuel : Nat) (fetch : ReaderM Val) : ReaderM Val :=
  match x.type vt with
  | some .dNull => return .null
  | some .dInt => fetchNumber src (x.bsiz vt)
  | some .dReal => fetchReal src
  | some .dLocalStr | some .dUtf8Str => do
    let str ← fetchStr x src 1 (x.bsiz vt)
    return .localStr str
  | some .dUniStr => do
    let str ← fetchStr x src 2 (x.bsiz vt)
    return .uniStr str
  | some .dBuffer => fetchBuf x src (x.bsiz vt)
  | some .dArray => fetchArray x src (x.bsiz vt) fuel fetch
  | some .dObject => fetchDict x src (x.bsiz vt) fuel fetch
  | some .dUnknown | none => Op.fail .failed

/-- `reader::fetch` at the depth.  `fuel` is more than the calls below it and the rounds of a
loop. -/
def fetch : Nat → Nat → ReaderM Val
  | 0, _ => Op.fault
  | fuel + 1, depth => do
    enter depth
    let bytes ← src.fetchBytes 1
    fetchType x src (BitVec.ofNat 8 (ofBytes bytes)) fuel (fetch fuel (depth + 1))

/-- `ValueLoad(vp, bp, cb)`; `vp` and `bp` are not null. -/
def valueLoad (fuel : Nat) : ReaderM Val :=
  if src.bytes.length = 0 then Op.fail .failed else fetch x src fuel 1

/-- `reader(bp, cb)` -/
def Reader.start : Reader := ⟨0, 0, 0⟩

end Vin64.Xv
