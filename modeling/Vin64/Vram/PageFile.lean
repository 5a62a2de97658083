import Vin64.Vram.Manager

/-!
# The page file and its handle (`vos/vram.cpp`)

`Create` opens the page file, and the handle allows what was asked for then.  The file is an
array of bytes; the buffer of the caller is part of the state.
-/

namespace Vin64.Vram.PageFile

open Vin64.Lib Vin64.Lib.Op

def GENERIC_READ : BitVec 32 := 0x80000000
def GENERIC_WRITE : BitVec 32 := 0x40000000

structure Storage where
  /-- What `CreateFileA` was asked for. -/
  access : BitVec 32
  pos : Nat
  size : Nat
  bytes : Nat → UInt8
  oBlock : Page

abbrev Disk := Op Storage HRESULT

/-- `CreateFileA` with `CREATE_ALWAYS` -/
def createFile (access : BitVec 32) : Storage := ⟨access, 0, 0, fun _ => 0, fun _ => 0⟩

/-- The file that `RamManager::Create` opens. -/
def create : Storage := createFile GENERIC_WRITE

/-- `SetFilePointerEx` from the start of the file; a distance with the sign bit is negative. -/
def setFilePointer (liDist : Nat) : Disk Unit :=
  if liDist < 2 ^ 63 then modify fun s => { s with pos := liDist } else fail .E_FAIL

def codeBlock : Disk Unit := modify fun s => { s with oBlock := codeBlockPage s.oBlock }

/-- `WriteFile` of a page at the file pointer; the number of bytes written. -/
def writeFile : Disk Nat := do
  let s ← get
  if s.access &&& GENERIC_WRITE = 0#32 then fail .E_FAIL
  else do
    modify fun s => { s with
      bytes := blit s.bytes s.pos s.oBlock
      size := max s.size (s.pos + VM_PAGE_SIZE)
      pos := s.pos + VM_PAGE_SIZE }
    return VM_PAGE_SIZE

/-- `ReadFile` of a page at the file pointer; the number of bytes read. -/
def readFile : Disk Nat := do
  let s ← get
  if s.access &&& GENERIC_READ = 0#32 then fail .E_FAIL
  else do
    let dwRead := min VM_PAGE_SIZE (s.size - s.pos)
    modify fun s => { s with
      oBlock := splice dwRead (window s.bytes 4096 s.pos) s.oBlock
      pos := s.pos + dwRead }
    return dwRead

def storeToStorage (index : Nat) : Disk Unit := do
  let uOffset := index <<< VM_PAGE_SHIFT % 2 ^ 64
  setFilePointer uOffset
  codeBlock
  let dwWritten ← writeFile
  if dwWritten ≠ VM_PAGE_SIZE then fail .E_FAIL else return

def loadFromStorage (index : Nat) : Disk Unit := do
  let uOffset := index * VM_PAGE_SIZE % 2 ^ 64
  setFilePointer uOffset
  let dwRead ← readFile
  if dwRead ≠ VM_PAGE_SIZE then fail .E_FAIL
  else codeBlock

/-! ## Stores -/

structure Store where
  index : Nat
  page : Page

/-- A caller stores a page; whatever the result, it goes on. -/
def step (s : Storage) (v : Store) (s' : Storage) : Prop :=
  ∃ r, storeToStorage v.index { s with oBlock := v.page } = some (r, s')

/-- The page last stored at an index; the last store comes first. -/
def lastStored : List Store → Nat → Option Page
  | [], _ => none
  | v :: vs, index => if v.index = index then some v.page else lastStored vs index

/-- Whatever is in the buffer, a load succeeds and leaves the page last stored there. -/
def LoadsBack (vs : List Store) (s : Storage) (index : Nat) : Prop :=
  ∀ page, lastStored vs index = some page →
    ∀ buf, ∃ s', loadFromStorage index { s with oBlock := buf } = some (.ok (), s') ∧
      s'.oBlock = page

end Vin64.Vram.PageFile
