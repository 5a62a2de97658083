import Mathlib.Algebra.Group.Nat.Defs
import Vin64.Lib.Run

/-!
# The sparse file writer (`tools/vmdllgen/dll2desc/sparsefile.cpp`)

`none` is an access to a block that `erase` removed.  Positions and sizes are `size_t`; files
stay below 4 GB, so only the narrowings to `uint32_t` are spelled out.
-/

namespace Vin64.Tools

open Vin64.Lib

structure Block where
  Offset : Nat
  Data : List UInt8
deriving Repr, DecidableEq

def Block.stop (b : Block) : Nat := b.Offset + b.Data.length

structure SparseFileWritter where
  blocks : List Block
  pos : Nat
  size : Nat
deriving Repr, DecidableEq

/-- `std::vector<char>::resize` -/
def resize (data : List UInt8) (n : Nat) : List UInt8 :=
  data.take n ++ List.replicate (n - data.length) 0

/-- `memcpy` into a vector, inside its bounds. -/
def memcpyAt (data : List UInt8) (off : Nat) (src : List UInt8) : List UInt8 :=
  data.take off ++ src ++ data.drop (off + src.length)

namespace SparseFileWritter

def ctor : SparseFileWritter := ⟨[⟨0, []⟩], 0, 0⟩

def seek (s : SparseFileWritter) (pos : Nat) : SparseFileWritter := { s with pos := pos }

def setEndOfFile (s : SparseFileWritter) : SparseFileWritter := { s with size := s.pos }

/-- The blocks before `previous`, `previous`, and those after it, where `previous` is the block
at `pos` or else the one before. -/
def findPrevious (blocks : List Block) (pos : Nat) : Option (List Block × Block × List Block) :=
  -- lower_bound: the first block that is not below `pos`
  let before := blocks.takeWhile fun b => b.Offset < pos
  let after := blocks.dropWhile fun b => b.Offset < pos
  match before.getLast?, after with
  | none, [] => none
  | none, b :: bs => some ([], b, bs)
  | some p, [] => some (before.dropLast, p, [])
  | some p, b :: bs =>
    if b.Offset = pos then some (before, b, bs) else some (before.dropLast, p, b :: bs)

/-- `next` is appended to `previous`, from where it overlaps. -/
def appendNext (previous next : Block) : Block :=
  let offsetInNext := (previous.stop - next.Offset) % 2 ^ 32
  let oldSize := previous.Data.length % 2 ^ 32
  { previous with
    Data := memcpyAt (resize previous.Data (next.stop - previous.Offset)) oldSize
      ((next.Data.drop offsetInNext).take (next.Data.length - offsetInNext)) }

/-- The loops over the blocks from `previous` on.  A block inside `previous` is erased and then
accessed. -/
def mergeBlocks (previous : Block) : List Block → Option (List Block)
  | [] => some [previous]
  | next :: rest =>
    if next.Offset > previous.stop then (mergeBlocks next rest).map (previous :: ·)
    else if next.stop ≤ previous.stop then none
    else mergeBlocks (appendNext previous next) rest

/-- The data goes into `previous`, which grows when it has to. -/
def overwrite (previous : Block) (pos : Nat) (data : List UInt8) : Block :=
  let offsetInBlock := pos - previous.Offset
  let grown := if previous.Data.length < offsetInBlock + data.length then
    resize previous.Data (offsetInBlock + data.length) else previous.Data
  { previous with Data := memcpyAt grown offsetInBlock data }

def write (s : SparseFileWritter) (data : List UInt8) : Option SparseFileWritter := do
  let (before, previous, after) ← findPrevious s.blocks s.pos
  let (before, previous) :=
    if previous.stop < s.pos then (before ++ [previous], ⟨s.pos, []⟩) else (before, previous)
  let merged ← mergeBlocks (overwrite previous s.pos data) after
  some { s with blocks := before ++ merged, pos := s.pos + data.length }

end SparseFileWritter

inductive FileCall where
  | seek (pos : Nat)
  | write (data : List UInt8)
  | setEndOfFile

def SparseFileWritter.call (s : SparseFileWritter) : FileCall → Option SparseFileWritter
  | .seek pos => some (s.seek pos)
  | .write data => s.write data
  | .setEndOfFile => some s.setEndOfFile

abbrev SparseFileWritter.Step (s : SparseFileWritter) (c : FileCall) (t : SparseFileWritter) : Prop :=
  s.call c = some t

/-! ## The flat file -/

/-- The bytes written, and the position. -/
structure FlatFile where
  bytes : Nat → Option UInt8
  pos : Nat

def FlatFile.call (f : FlatFile) : FileCall → FlatFile
  | .seek pos => { f with pos := pos }
  | .write data =>
    { bytes := fun k => if f.pos ≤ k ∧ k < f.pos + data.length then data[k - f.pos]? else f.bytes k
      pos := f.pos + data.length }
  | .setEndOfFile => f

/-- The file after the calls, the last call first. -/
def flatAfter (calls : List FileCall) : FlatFile :=
  calls.foldr (fun c f => f.call c) ⟨fun _ => none, 0⟩

/-- The byte a block has at a position of the file. -/
def Block.byteAt (b : Block) (k : Nat) : Option UInt8 :=
  if b.Offset ≤ k then b.Data[k - b.Offset]? else none

/-- The byte of the block that covers a position. -/
def content (blocks : List Block) (k : Nat) : Option UInt8 := blocks.findSome? (·.byteAt k)

/-- Sorted, without two blocks that overlap or touch. -/
def Separated (blocks : List Block) : Prop := blocks.Pairwise fun b c => b.stop < c.Offset

/-- The call stays below 4 GB. -/
def SparseFileWritter.Below4GB (s : SparseFileWritter) : FileCall → Prop
  | .write data => s.pos + data.length < 2 ^ 32
  | _ => True

/-- No block after the position ends within the data. -/
def SparseFileWritter.SwallowsNone (s : SparseFileWritter) : FileCall → Prop
  | .write data => ∀ b ∈ s.blocks, s.pos < b.Offset → s.pos + data.length < b.stop
  | _ => True

instance (s : SparseFileWritter) : (c : FileCall) → Decidable (s.Below4GB c)
  | .write _ => inferInstanceAs (Decidable (_ < _))
  | .seek _ | .setEndOfFile => inferInstanceAs (Decidable True)

instance (s : SparseFileWritter) : (c : FileCall) → Decidable (s.SwallowsNone c)
  | .write _ => inferInstanceAs (Decidable (∀ b ∈ s.blocks, _ → _))
  | .seek _ | .setEndOfFile => inferInstanceAs (Decidable True)

end Vin64.Tools
