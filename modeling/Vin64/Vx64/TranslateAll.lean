import Vin64.Vx64.Jumps
import Mathlib.Algebra.Order.Ring.Nat

/-!
# Translated code (`vx64/qemu/translate-all.c`, `vx64/qemu/cpu-exec.c`, `exec/exec-all.h`)

A pointer to a translation block is its index in `tbs`.  `none` is a failed assertion, a call of
`cpu_abort`, or an access through a pointer that leads nowhere.  The translator, the addresses of
guest code in RAM and the page tables are inputs.
-/

namespace Vin64.Vx64

/-- A block without its fields in lists. -/
structure TranslationBlock where
  pc : BitVec 64
  csBase : BitVec 64
  flags : BitVec 64
  size : Nat
  icount : Nat
  tcPtr : Nat
  pageAddr0 : Nat
  pageAddr1 : Option Nat
deriving Repr, DecidableEq

/-- Each block of a page comes with which of its pages that is. -/
structure PageDesc where
  firstTb : List (Nat × Fin 2)
  codeWriteCount : Nat
  codeBitmap : Option (Nat → BitVec 8)

structure CodeGen where
  tbs : Nat → TranslationBlock
  jumps : Jumps
  nbTbs : Nat
  codeGenBuffer : Nat
  codeGenBufferSize : Nat
  codeGenBufferMaxSize : Nat
  codeGenMaxBlocks : Nat
  codeGenPtr : Nat
  tbPhysHash : Nat → List Nat
  pages : Nat → Option PageDesc
  tbJmpCache : Nat → Option Nat

/-- What an invalidation leaves: whether the page is unprotected, and whether the block that runs
was modified, so that it is left. -/
structure Invalidated where
  code : CodeGen
  unprotected : Bool
  modified : Bool

/-- What a write leaves: the block that was made for its instruction, if one was, and the pages that
are to be protected for it. -/
structure Written where
  code : CodeGen
  unprotected : Bool
  made : Option Nat
  pages : List Nat

/-- What `cpu_gen_code` makes. -/
structure Generated where
  size : Nat
  icount : Nat
  codeSize : Nat
deriving Repr, DecidableEq

/-- What is looked up. -/
structure CodeKey where
  pc : BitVec 64
  csBase : BitVec 64
  flags : BitVec 64
deriving Repr, DecidableEq

/-! ## Hashes -/

def tbPhysHashFunc (pc : Nat) : Nat := pc / 4 % 32768

def jmpCacheTmp (pc : BitVec 64) : BitVec 64 := pc ^^^ (pc >>> 6)

def tbJmpCacheHashPage (pc : BitVec 64) : Nat := (jmpCacheTmp pc >>> 6 &&& 4032).toNat

def tbJmpCacheHashFunc (pc : BitVec 64) : Nat :=
  ((jmpCacheTmp pc >>> 6 &&& 4032) ||| (jmpCacheTmp pc &&& 63)).toNat

def TranslationBlock.physPc (tb : TranslationBlock) : Nat := tb.pageAddr0 + tb.pc.toNat % 4096

/-- The bytes of RAM that the block has on one of its pages. -/
def TranslationBlock.span (tb : TranslationBlock) (n : Fin 2) : Nat × Nat :=
  if n = 0 then (tb.physPc, tb.physPc + tb.size)
  else (tb.pageAddr1.getD 0, tb.pageAddr1.getD 0 + (tb.pc.toNat + tb.size) % 4096)

/-- The second page of the code, if it has one. -/
def virtPage2 (pc : BitVec 64) (size : Nat) : Option (BitVec 64) :=
  let virt := (pc + BitVec.ofNat 64 size - 1) &&& ~~~4095#64
  if pc &&& ~~~4095#64 ≠ virt then some virt else none

/-! ## Bitmaps -/

/-- `(uint8_t) (0xff << k)` -/
def highBits (k : Nat) : BitVec 8 := 255#8 <<< k

def orByte (tab : Nat → BitVec 8) (i : Nat) (mask : BitVec 8) : Nat → BitVec 8 :=
  Function.update tab i (tab i ||| mask)

/-- `set_bits` -/
def setBits (tab : Nat → BitVec 8) (start len : Nat) : Nat → BitVec 8 :=
  let stop := start + len
  if start / 8 = stop / 8 then
    if start < stop then orByte tab (start / 8) (highBits (start % 8) &&& ~~~highBits (stop % 8))
    else tab
  else
    let tab := orByte tab (start / 8) (highBits (start % 8))
    let tab := (List.range' (start / 8 + 1) (stop / 8 - (start / 8 + 1))).foldl
      (fun tab i => Function.update tab i 255) tab
    if stop / 8 * 8 < stop then orByte tab (stop / 8) (~~~highBits (stop % 8)) else tab

namespace PageDesc

def empty : PageDesc := ⟨[], 0, none⟩

/-- `invalidate_page_bitmap` -/
def invalidateBitmap (p : PageDesc) : PageDesc := { p with codeWriteCount := 0, codeBitmap := none }

/-- `build_page_bitmap` -/
def buildBitmap (p : PageDesc) (tbs : Nat → TranslationBlock) : PageDesc :=
  { p with
    codeBitmap := some (p.firstTb.foldl (fun tab (i, n) =>
      let tb := tbs i
      if n = 0 then
        let tbStart := tb.pc.toNat % 4096
        setBits tab tbStart (min (tbStart + tb.size) 4096 - tbStart)
      else setBits tab 0 ((tb.pc.toNat + tb.size) % 4096)) fun _ => 0) }

/-- Writes to a page are counted until it has a bitmap. -/
def countWrite (p : PageDesc) (tbs : Nat → TranslationBlock) (isCpuWrite : Bool) : PageDesc :=
  if p.codeBitmap.isNone then
    let count := (p.codeWriteCount + 1) % 4294967296
    if 10 ≤ count ∧ isCpuWrite then { p with codeWriteCount := count }.buildBitmap tbs
    else { p with codeWriteCount := count }
  else p

/-- The bits of `len` bytes from `start` on. -/
def hasCode (m : Nat → BitVec 8) (start len : Nat) : Bool :=
  let offset := start % 4096
  (m (offset / 8) >>> (offset % 8)) &&& ((1#8 <<< len) - 1) ≠ 0

end PageDesc

namespace CodeGen

/-- No list of jumps is longer. -/
def maxJumps (c : CodeGen) : Nat := 2 * c.nbTbs + 1

/-- `cpu_unlink_tb`, where `tb` is the current block. -/
def cpuUnlinkTb (c : CodeGen) (tb : Nat) : Option CodeGen :=
  (c.jumps.tbResetJumpRecursive c.maxJumps tb (6 * c.nbTbs + 3) [0, 1]).map fun jumps =>
    { c with jumps := jumps }

/-! ## Invalidation -/

/-- `tb_hash_remove` -/
def tbHashRemove (bucket : List Nat) (tb : Nat) : Option (List Nat) :=
  if tb ∈ bucket then some (bucket.erase tb) else none

/-- `tb_page_remove`, with the bitmap of the page. -/
def tbPageRemove (c : CodeGen) (pageAddr tb : Nat) : Option CodeGen := do
  let p ← c.pages (pageAddr / 4096)
  if p.firstTb.any (·.1 = tb) then
    let p := { p with firstTb := p.firstTb.eraseP (·.1 = tb) }.invalidateBitmap
    some { c with pages := Function.update c.pages (pageAddr / 4096) (some p) }
  else none

/-- The second page of a block, if it has one. -/
def removeSecond (pageAddr : Option Nat) (tb : Nat) (c : CodeGen) : Option CodeGen :=
  match pageAddr with
  | some pageAddr => c.tbPageRemove pageAddr tb
  | none => some c

def jmpCacheWithout (cache : Nat → Option Nat) (h tb : Nat) : Nat → Option Nat :=
  if cache h = some tb then Function.update cache h none else cache

/-- `tb_phys_invalidate`, for no page in particular. -/
def tbPhysInvalidate (c : CodeGen) (i : Nat) : Option CodeGen := do
  let tb := c.tbs i
  let bucket ← tbHashRemove (c.tbPhysHash (tbPhysHashFunc tb.physPc)) i
  let c := { c with tbPhysHash := Function.update c.tbPhysHash (tbPhysHashFunc tb.physPc) bucket }
  let c ← c.tbPageRemove tb.pageAddr0 i
  let c ← c.removeSecond tb.pageAddr1 i
  let c := { c with tbJmpCache := jmpCacheWithout c.tbJmpCache (tbJmpCacheHashFunc tb.pc) i }
  let jumps ← c.jumps.tbInvalidate c.maxJumps i
  some { c with jumps := jumps }

/-- The search of `tb_find_pc`. -/
def findPcLoop (c : CodeGen) (tcPtr : Nat) (mMin mMax : Int) : Nat :=
  if h : mMin ≤ mMax then
    let m := (mMin + mMax) / 2
    let v := (c.tbs m.toNat).tcPtr
    if v = tcPtr then m.toNat
    else if tcPtr < v then c.findPcLoop tcPtr mMin (m - 1)
    else c.findPcLoop tcPtr (m + 1) mMax
  else mMax.toNat
termination_by (mMax + 1 - mMin).toNat
decreasing_by all_goals omega

/-- `tb_find_pc` -/
def tbFindPc (c : CodeGen) (tcPtr : Nat) : Option Nat :=
  if c.nbTbs = 0 then none
  else if tcPtr < c.codeGenBuffer ∨ tcPtr ≥ c.codeGenPtr then none
  else some (c.findPcLoop tcPtr 0 (c.nbTbs - 1))

/-- `tb_flush` -/
def tbFlush (c : CodeGen) : Option CodeGen :=
  if c.codeGenPtr - c.codeGenBuffer > c.codeGenBufferSize then none
  else
    some { c with
      nbTbs := 0
      tbJmpCache := fun _ => none
      tbPhysHash := fun _ => []
      pages := fun i => (c.pages i).map fun p => { p with firstTb := [] }.invalidateBitmap
      codeGenPtr := c.codeGenBuffer }

/-! ## Generation -/

/-- `tb_alloc` -/
def tbAlloc (c : CodeGen) : Option (Nat × CodeGen) :=
  if c.nbTbs ≥ c.codeGenMaxBlocks ∨ c.codeGenPtr - c.codeGenBuffer ≥ c.codeGenBufferMaxSize then
    none
  else some (c.nbTbs, { c with nbTbs := c.nbTbs + 1 })

/-- `page_find_alloc`: 1024 descriptors are allocated at once. -/
def pageFindAlloc (c : CodeGen) (index : Nat) : CodeGen :=
  { c with
    pages := fun i =>
      if i / 1024 = index / 1024 then some ((c.pages i).getD .empty) else c.pages i }

/-- `tb_alloc_page`, and whether the page was not protected yet. -/
def tbAllocPage (c : CodeGen) (i : Nat) (n : Fin 2) (pageAddr : Nat) : CodeGen × Bool :=
  let c := c.pageFindAlloc (pageAddr / 4096)
  let p := (c.pages (pageAddr / 4096)).getD .empty
  ({ c with
    pages := Function.update c.pages (pageAddr / 4096)
      (some { p with firstTb := (i, n) :: p.firstTb }.invalidateBitmap) }, p.firstTb = [])

/-- `tb_link_page`: the pages that are to be protected. -/
def tbLinkPage (c : CodeGen) (i : Nat) : CodeGen × List Nat :=
  let tb := c.tbs i
  let h := tbPhysHashFunc tb.physPc
  let c := { c with
    tbPhysHash := Function.update c.tbPhysHash h (i :: c.tbPhysHash h)
    jumps := c.jumps.tbInit i }
  let (c, first) := c.tbAllocPage i 0 tb.pageAddr0
  let pages := if first then [tb.pageAddr0] else []
  match tb.pageAddr1 with
  | some page =>
    let (c, second) := c.tbAllocPage i 1 page
    (c, pages ++ if second then [page] else [])
  | none => (c, pages)

/-- After a flush `tb_alloc` cannot fail. -/
def tbAllocOrFlush (c : CodeGen) : Option (Nat × CodeGen) :=
  match c.tbAlloc with
  | some r => some r
  | none => c.tbFlush.bind tbAlloc

/-- `tb_gen_code`; the address in RAM of the code at a guest address is `getPageAddrCode`. -/
def tbGenCode (c : CodeGen) (key : CodeKey) (getPageAddrCode : BitVec 64 → Nat) (gen : Generated) :
    Option (Nat × CodeGen × List Nat) := do
  let physPc := getPageAddrCode key.pc
  let (i, c) ← c.tbAllocOrFlush
  let c := { c with
    tbs := Function.update c.tbs i
      { pc := key.pc
        csBase := key.csBase
        flags := key.flags
        size := gen.size
        icount := gen.icount
        tcPtr := c.codeGenPtr
        pageAddr0 := physPc / 4096 * 4096
        pageAddr1 := (virtPage2 key.pc gen.size).map getPageAddrCode } }
  let c := { c with codeGenPtr := (c.codeGenPtr + gen.codeSize + 15) / 16 * 16 }
  let (c, pages) := c.tbLinkPage i
  some (i, c, pages)

/-! ## Writes -/

end CodeGen

/-- When the block that runs was modified, a block with just the instruction that writes is made,
for the state that `cpu_restore_state_from_tb` finds; `cpu_resume_from_signal` is left out. -/
def Invalidated.remake (x : Invalidated) (key : CodeKey) (getPageAddrCode : BitVec 64 → Nat)
    (gen : Generated) : Option Written :=
  if x.modified then
    (x.code.tbGenCode key getPageAddrCode gen).map fun (i, c, pages) =>
      ⟨c, x.unprotected, some i, pages⟩
  else some ⟨x.code, x.unprotected, none, []⟩

namespace CodeGen

/-- The loop of `tb_invalidate_phys_page_range` over the blocks of a page, with the block that runs
and whether it was modified.  `cpu_interrupt` is left out: no interrupt is requested meanwhile. -/
def invalidateLoop (start stop : Nat) :
    List (Nat × Fin 2) → CodeGen → Option Nat → Bool → Option (CodeGen × Bool)
  | [], c, _, modified => some (c, modified)
  | (i, n) :: rest, c, current, modified =>
    let tb := c.tbs i
    if ¬((tb.span n).2 ≤ start ∨ (tb.span n).1 ≥ stop) then
      if current = some i ∧ tb.icount = 1 then do
        let c ← c.tbPhysInvalidate i
        invalidateLoop start stop rest c none modified
      else do
        let c ← c.tbPhysInvalidate i
        invalidateLoop start stop rest c current (modified || current = some i)
    else invalidateLoop start stop rest c current modified

/-- The block that runs in a write access of the CPU, where the host's program counter is
`memIoPc`. -/
def currentTb (c : CodeGen) (memIoPc : Option Nat) : Option Nat :=
  memIoPc.bind fun pc => if pc ≠ 0 then c.tbFindPc pc else none

/-- `tb_invalidate_phys_page_range` up to the test of `current_tb_modified`. -/
def invalidatePhysPage (c : CodeGen) (start stop : Nat) (memIoPc : Option Nat) :
    Option Invalidated :=
  match c.pages (start / 4096) with
  | none => some ⟨c, false, false⟩
  | some p => do
    let current := c.currentTb memIoPc
    let p := p.countWrite c.tbs memIoPc.isSome
    let c := { c with pages := Function.update c.pages (start / 4096) (some p) }
    let (c, modified) ← invalidateLoop start stop p.firstTb c current false
    let p ← c.pages (start / 4096)
    if p.firstTb = [] then
      let c := { c with pages := Function.update c.pages (start / 4096) (some p.invalidateBitmap) }
      some ⟨c, memIoPc.isSome, modified⟩
    else some ⟨c, false, modified⟩

/-- `tb_invalidate_phys_page_range` -/
def tbInvalidatePhysPageRange (c : CodeGen) (start stop : Nat) (memIoPc : Option Nat)
    (key : CodeKey) (getPageAddrCode : BitVec 64 → Nat) (gen : Generated) : Option Written := do
  let x ← c.invalidatePhysPage start stop memIoPc
  x.remake key getPageAddrCode gen

/-- `tb_invalidate_phys_page_fast` up to the same test. -/
def invalidatePhysPageFast (c : CodeGen) (start len memIoPc : Nat) : Option Invalidated :=
  match c.pages (start / 4096) with
  | none => some ⟨c, false, false⟩
  | some p =>
    match p.codeBitmap with
    | some m =>
      if PageDesc.hasCode m start len then c.invalidatePhysPage start (start + len) memIoPc
      else some ⟨c, false, false⟩
    | none => c.invalidatePhysPage start (start + len) memIoPc

/-- `tb_invalidate_phys_page_fast` -/
def tbInvalidatePhysPageFast (c : CodeGen) (start len memIoPc : Nat) (key : CodeKey)
    (getPageAddrCode : BitVec 64 → Nat) (gen : Generated) : Option Written := do
  let x ← c.invalidatePhysPageFast start len memIoPc
  x.remake key getPageAddrCode gen

/-- `tb_invalidate_phys_range`, not from the CPU, so that no block that runs is left. -/
def tbInvalidatePhysRange (c : CodeGen) (start stop : Nat) : Option CodeGen :=
  if h : start < stop then do
    let r ← c.invalidatePhysPage start stop none
    r.code.tbInvalidatePhysRange (start / 4096 * 4096 + 4096) stop
  else some c
termination_by stop - start
decreasing_by omega

/-! ## Lookups -/

/-- The test of `tb_find_slow`. -/
def tbMatches (c : CodeGen) (key : CodeKey) (getPageAddrCode : BitVec 64 → Nat) (i : Nat) : Bool :=
  let tb := c.tbs i
  tb.pc = key.pc ∧ tb.pageAddr0 = getPageAddrCode key.pc / 4096 * 4096 ∧ tb.csBase = key.csBase ∧
    tb.flags = key.flags ∧
    ∀ page ∈ tb.pageAddr1, page = getPageAddrCode ((key.pc &&& ~~~4095#64) + 4096)

/-- `tb_find_slow`; code that is not there is generated. -/
def tbFindSlow (c : CodeGen) (key : CodeKey) (getPageAddrCode : BitVec 64 → Nat) (gen : Generated) :
    Option (Nat × CodeGen × List Nat) := do
  let h := tbPhysHashFunc (getPageAddrCode key.pc)
  let (i, c, pages) ← match (c.tbPhysHash h).find? (c.tbMatches key getPageAddrCode) with
    | some i =>
      let bucket := i :: (c.tbPhysHash h).erase i
      some (i, { c with tbPhysHash := Function.update c.tbPhysHash h bucket }, [])
    | none => c.tbGenCode key getPageAddrCode gen
  some (i, { c with
    tbJmpCache := Function.update c.tbJmpCache (tbJmpCacheHashFunc key.pc) (some i) }, pages)

/-- `tb_find_fast` -/
def tbFindFast (c : CodeGen) (key : CodeKey) (getPageAddrCode : BitVec 64 → Nat) (gen : Generated) :
    Option (Nat × CodeGen × List Nat) :=
  match c.tbJmpCache (tbJmpCacheHashFunc key.pc) with
  | some i =>
    if (c.tbs i).pc ≠ key.pc ∨ (c.tbs i).csBase ≠ key.csBase ∨ (c.tbs i).flags ≠ key.flags then
      c.tbFindSlow key getPageAddrCode gen
    else some (i, c, [])
  | none => c.tbFindSlow key getPageAddrCode gen

/-- `tb_flush_jmp_cache` -/
def tbFlushJmpCache (c : CodeGen) (addr : BitVec 64) : CodeGen :=
  let clear (cache : Nat → Option Nat) (i : Nat) : Nat → Option Nat :=
    fun j => if i ≤ j ∧ j < i + 64 then none else cache j
  { c with
    tbJmpCache := clear (clear c.tbJmpCache (tbJmpCacheHashPage (addr - 4096)))
      (tbJmpCacheHashPage addr) }

end CodeGen

end Vin64.Vx64
