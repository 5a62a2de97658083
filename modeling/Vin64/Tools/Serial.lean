import Vin64.Tools.SparseFile

/-!
# Writing a sparse file out (`tools/vmdllgen/dll2desc/sparsefile.cpp`)

The stream takes whatever is written.
-/

namespace Vin64.Tools

/-- The bytes of a stream, and where the next ones go. -/
structure OStream where
  bytes : List UInt8
  tellp : Nat

namespace OStream

/-- `seekp( 0, std::ios::beg )` -/
def seekStart (stm : OStream) : OStream := { stm with tellp := 0 }

def write (stm : OStream) (data : List UInt8) : OStream where
  bytes := stm.bytes.take stm.tellp ++ data ++ stm.bytes.drop (stm.tellp + data.length)
  tellp := stm.tellp + data.length

/-- `for(int i = 0; i < sizeToWrite; ++i) stm.write(&zero, 1);` -/
def writeZeros (stm : OStream) : Nat → OStream
  | 0 => stm
  | n + 1 => writeZeros (stm.write [0]) n

end OStream

/-- A `uint32_t` in memory. -/
def u32Bytes (n : Nat) : List UInt8 :=
  [UInt8.ofNat n, UInt8.ofNat (n / 2 ^ 8), UInt8.ofNat (n / 2 ^ 16), UInt8.ofNat (n / 2 ^ 24)]

structure SFHeader where
  Magic : Nat
  FileSize : Nat
  DataBlockCount : Nat
deriving DecidableEq

def SFHeader.bytes (h : SFHeader) : List UInt8 :=
  u32Bytes h.Magic ++ u32Bytes h.FileSize ++ u32Bytes h.DataBlockCount

structure SFDataBlock where
  BlockSize : Nat
  Offset : Nat
  RealOffset : Nat
deriving DecidableEq

def SFDataBlock.bytes (b : SFDataBlock) : List UInt8 :=
  u32Bytes b.BlockSize ++ u32Bytes b.Offset ++ u32Bytes b.RealOffset

/-- `'RAPS'` -/
def magic : Nat := 0x52415053

namespace SparseFileWritter

/-- The loop that writes the table. -/
def writeTable (stm : OStream) (blockDataOffset : Nat) : List Block → OStream
  | [] => stm
  | block :: rest =>
    let dataBlock : SFDataBlock :=
      { BlockSize := block.Data.length % 2 ^ 32
        Offset := block.Offset % 2 ^ 32
        RealOffset := blockDataOffset % 2 ^ 32 }
    writeTable (stm.write dataBlock.bytes) (blockDataOffset + dataBlock.BlockSize) rest

/-- The loop that writes the data. -/
def writeData (stm : OStream) : List Block → OStream
  | [] => stm
  | block :: rest => writeData (stm.write block.Data) rest

def serialToStream (s : SparseFileWritter) (stm : OStream) : OStream :=
  let header : SFHeader :=
    { Magic := magic
      FileSize := s.size % 2 ^ 32
      DataBlockCount := s.blocks.length % 2 ^ 32 }
  -- sizeof(SFHeader) and sizeof(SFDataBlock) are 12
  let stm := writeTable (stm.seekStart.write header.bytes) (12 + header.DataBlockCount * 12)
    s.blocks
  writeData stm s.blocks

/-- `if(stm.tellp() < offset)`, zeros up to it -/
def padTo (stm : OStream) (offset : Nat) : OStream :=
  if stm.tellp < offset then stm.writeZeros ((offset - stm.tellp) % 2 ^ 32) else stm

/-- The loop over the blocks, up to the end of the file. -/
def writeBlocks (size : Nat) (stm : OStream) : List Block → OStream
  | [] => stm
  | block :: rest =>
    if block.Offset ≥ size then stm
    else writeBlocks size ((padTo stm block.Offset).write block.Data) rest

def serialToStreamUnsparse (s : SparseFileWritter) (stm : OStream) : OStream :=
  padTo (writeBlocks s.size stm.seekStart s.blocks) s.size

end SparseFileWritter

/-! ## Reading the container back -/

def u32At (bytes : List UInt8) (off : Nat) : Option Nat :=
  match bytes.drop off with
  | a :: b :: c :: d :: _ =>
    some (a.toNat + b.toNat * 2 ^ 8 + c.toNat * 2 ^ 16 + d.toNat * 2 ^ 24)
  | _ => none

def headerAt (bytes : List UInt8) : Option SFHeader := do
  some ⟨← u32At bytes 0, ← u32At bytes 4, ← u32At bytes 8⟩

def entryAt (bytes : List UInt8) (i : Nat) : Option SFDataBlock := do
  let off := 12 + 12 * i
  some ⟨← u32At bytes off, ← u32At bytes (off + 4), ← u32At bytes (off + 8)⟩

/-- The bytes an entry selects. -/
def SFDataBlock.select (e : SFDataBlock) (bytes : List UInt8) : List UInt8 :=
  (bytes.drop e.RealOffset).take e.BlockSize

/-- A zero-filled file, with the ranges of the table placed one after the other. -/
def decode (bytes : List UInt8) : Option (List UInt8) := do
  let header ← headerAt bytes
  (List.range header.DataBlockCount).foldlM
    (fun file i => (entryAt bytes i).map fun e => memcpyAt file e.Offset (e.select bytes))
    (List.replicate header.FileSize 0)

/-- Sorted by offset, without a byte in two blocks. -/
def Apart (blocks : List Block) : Prop :=
  blocks.Pairwise fun b c => b.Offset ≤ c.Offset ∧ (b.Data = [] ∨ c.Data = [] ∨ b.stop ≤ c.Offset)

/-- The size of the header, the table and the data. -/
def containerSize (blocks : List Block) : Nat :=
  12 + 12 * blocks.length + (blocks.flatMap (·.Data)).length

end Vin64.Tools
