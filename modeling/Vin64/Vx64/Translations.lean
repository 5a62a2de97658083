import Vin64.Vx64.TranslateAll

/-!
# What translated code is for

Each translation is of guest code that lies in RAM, byte for byte.  A translation is found by what
it was made for, as long as the guest's pages are where they were and none of its bytes is written.
-/

namespace Vin64.Vx64

/-- Where the guest's pages are in RAM, both by number. -/
abbrev CodeMapping := BitVec 64 → Nat

/-- `get_page_addr_code` -/
def CodeMapping.codeAddr (mapping : CodeMapping) (addr : BitVec 64) : Nat :=
  mapping (addr >>> 12) * 4096 + addr.toNat % 4096

/-- The address in RAM of a byte of the code. -/
def TranslationBlock.byteAddr (tb : TranslationBlock) (k : Nat) : Option Nat :=
  if tb.pc.toNat % 4096 + k < 4096 then some (tb.pageAddr0 + (tb.pc.toNat % 4096 + k))
  else tb.pageAddr1.map (· + (tb.pc.toNat % 4096 + k - 4096))

/-- Some byte of the code is in the range. -/
def TranslationBlock.Touches (tb : TranslationBlock) (start stop : Nat) : Prop :=
  ∃ k < tb.size, ∃ a ∈ tb.byteAddr k, start ≤ a ∧ a < stop

/-- What the block was made for is still there. -/
structure TranslationBlock.For (tb : TranslationBlock) (key : CodeKey) (mapping : CodeMapping) :
    Prop where
  pc : tb.pc = key.pc
  csBase : tb.csBase = key.csBase
  flags : tb.flags = key.flags
  first : tb.pageAddr0 = mapping (key.pc >>> 12) * 4096
  second : ∀ page ∈ tb.pageAddr1, page = mapping.codeAddr ((key.pc &&& ~~~4095#64) + 4096)

/-- The blocks that are there, of `made` that were made since all were dropped. -/
structure Translations where
  block : Nat → Option TranslationBlock
  made : Nat
  mapping : CodeMapping

inductive CodeCall where
  | find (key : CodeKey) (gen : Generated)
  | generate (key : CodeKey) (gen : Generated)
  | addJump (tb : Nat) (n : Fin 2) (tbNext : Nat)
  | unlink (tb : Nat)
  | invalidate (tb : Nat)
  | writePage (start stop : Nat) (memIoPc : Option Nat) (key : CodeKey) (gen : Generated)
  | writeFast (start len memIoPc : Nat) (key : CodeKey) (gen : Generated)
  | writeRange (start stop : Nat)
  | flush
  | remap (addr : BitVec 64) (page : Nat)
  | remapAll (mapping : CodeMapping)

/-! ## The code -/

/-- The tables, and where the guest's pages are. -/
structure CodeRun where
  code : CodeGen
  mapping : CodeMapping

/-- `tlb_flush` clears the jump cache, `tlb_flush_page` some of it.  A write is given what is made
when the block that runs was modified. -/
def CodeRun.call (r : CodeRun) : CodeCall → Option (Option Nat × CodeRun)
  | .find key gen =>
    (r.code.tbFindFast key r.mapping.codeAddr gen).map fun x => (some x.1, { r with code := x.2.1 })
  | .generate key gen =>
    (r.code.tbGenCode key r.mapping.codeAddr gen).map fun x => (some x.1, { r with code := x.2.1 })
  | .addJump tb n tbNext =>
    some (none, { r with code := { r.code with jumps := r.code.jumps.tbAddJump tb n tbNext } })
  | .unlink tb => (r.code.cpuUnlinkTb tb).map fun c => (none, { r with code := c })
  | .invalidate tb => (r.code.tbPhysInvalidate tb).map fun c => (none, { r with code := c })
  | .writePage start stop memIoPc key gen =>
    (r.code.tbInvalidatePhysPageRange start stop memIoPc key r.mapping.codeAddr gen).map fun x =>
      (x.made, { r with code := x.code })
  | .writeFast start len memIoPc key gen =>
    (r.code.tbInvalidatePhysPageFast start len memIoPc key r.mapping.codeAddr gen).map fun x =>
      (x.made, { r with code := x.code })
  | .writeRange start stop =>
    (r.code.tbInvalidatePhysRange start stop).map fun c => (none, { r with code := c })
  | .flush => r.code.tbFlush.map fun c => (none, { r with code := c })
  | .remap addr page =>
    some (none, ⟨r.code.tbFlushJmpCache addr, Function.update r.mapping (addr >>> 12) page⟩)
  | .remapAll mapping => some (none, ⟨{ r.code with tbJmpCache := fun _ => none }, mapping⟩)

/-- `tlb_protect_code` for some pages; pages that are protected go by number. -/
def tlbProtectCode (pages : List Nat) (watched : Nat → Bool) (k : Nat) : Bool :=
  watched k || pages.any (· / 4096 = k)

/-- `tlb_unprotect_code_phys`, if it is called, and then the pages of the block that is made. -/
def Written.watch (x : Written) (start : Nat) (watched : Nat → Bool) : Nat → Bool :=
  tlbProtectCode x.pages
    (if x.unprotected then Function.update watched (start / 4096) false else watched)

/-- The pages that are protected after a call. -/
def CodeRun.watch (r : CodeRun) (watched : Nat → Bool) : CodeCall → Nat → Bool
  | .find key gen => (r.code.tbFindFast key r.mapping.codeAddr gen).elim watched fun x =>
      tlbProtectCode x.2.2 watched
  | .generate key gen => (r.code.tbGenCode key r.mapping.codeAddr gen).elim watched fun x =>
      tlbProtectCode x.2.2 watched
  | .writePage start stop memIoPc key gen =>
    (r.code.tbInvalidatePhysPageRange start stop memIoPc key r.mapping.codeAddr gen).elim watched
      (·.watch start watched)
  | .writeFast start len memIoPc key gen =>
    (r.code.tbInvalidatePhysPageFast start len memIoPc key r.mapping.codeAddr gen).elim watched
      (·.watch start watched)
  | _ => watched

/-- `tcg_exec_init`, with a buffer of any size. -/
def CodeGen.init (tbs : Nat → TranslationBlock) (jumps : Jumps)
    (buffer bufferSize maxSize maxBlocks : Nat) : CodeGen where
  tbs := tbs
  jumps := jumps
  nbTbs := 0
  codeGenBuffer := buffer
  codeGenBufferSize := bufferSize
  codeGenBufferMaxSize := maxSize
  codeGenMaxBlocks := maxBlocks
  codeGenPtr := buffer
  tbPhysHash := fun _ => []
  pages := fun _ => none
  tbJmpCache := fun _ => none

/-! ## The specification -/

namespace Translations

def init (mapping : CodeMapping) : Translations := ⟨fun _ => none, 0, mapping⟩

/-- All blocks are dropped. -/
def dropAll (s : Translations) : Translations := { s with block := fun _ => none, made := 0 }

/-- A new block, for which there may have been no room. -/
def Makes (s : Translations) (key : CodeKey) (gen : Generated) (i : Nat) (s' : Translations) :
    Prop :=
  ∃ t, (t = s ∨ t = s.dropAll) ∧ i = t.made ∧ ∃ tb : TranslationBlock, tb.For key s.mapping ∧
    tb.size = gen.size ∧ s' = ⟨Function.update t.block i (some tb), t.made + 1, t.mapping⟩

/-- The blocks with a byte in the range are dropped. -/
def Drops (s : Translations) (P : TranslationBlock → Prop) (s' : Translations) : Prop :=
  s'.made = s.made ∧ s'.mapping = s.mapping ∧
    ∀ i tb, s'.block i = some tb ↔ s.block i = some tb ∧ ¬P tb

/-- A write drops blocks.  Then it may make one, for the instruction that writes, but only if it has
dropped one that has other instructions. -/
def Writes (s : Translations) (P : TranslationBlock → Prop) (key : CodeKey) (gen : Generated)
    (r : Option Nat) (s' : Translations) : Prop :=
  ∃ t, s.Drops P t ∧
    (r = none ∧ s' = t ∨ ∃ i, r = some i ∧ t.Makes key gen i s' ∧
      ∃ j tb, s.block j = some tb ∧ P tb ∧ tb.icount ≠ 1)

/-- What a call may return, and what it leaves. -/
def Step (s : Translations) (call : CodeCall) (r : Option Nat) (s' : Translations) : Prop :=
  match call with
  | .find key gen => ∃ i, r = some i ∧
      ((∃ tb, s.block i = some tb ∧ tb.For key s.mapping ∧ s' = s) ∨
        (∀ j tb, s.block j = some tb → ¬tb.For key s.mapping) ∧ s.Makes key gen i s')
  | .generate key gen => ∃ i, r = some i ∧ s.Makes key gen i s'
  | .addJump _ _ _ | .unlink _ => s' = s
  | .invalidate tb => s' = { s with block := Function.update s.block tb none }
  | .writePage start stop _ key gen =>
    s.Writes (fun tb => tb.Touches start (min stop (start / 4096 * 4096 + 4096))) key gen r s'
  | .writeFast start len _ key gen =>
    s.Writes (fun tb => tb.Touches start (start + len)) key gen r s'
  | .writeRange start stop => s.Drops (fun tb => tb.Touches start stop) s'
  | .flush => s' = s.dropAll
  | .remap addr page => s' = { s with mapping := Function.update s.mapping (addr >>> 12) page }
  | .remapAll mapping => s' = { s with mapping := mapping }

/-- Code is of 4096 bytes at most, on two pages that are not the same in RAM, and what is generated
for it fits in the room that is left at the end of the buffer. -/
def Translates (s : Translations) (room : Nat) (key : CodeKey) (gen : Generated) : Prop :=
  0 < gen.size ∧ gen.size ≤ 4096 ∧ 0 < gen.codeSize ∧ gen.codeSize + 15 ≤ room ∧
    ∀ virt ∈ virtPage2 key.pc gen.size, s.mapping (virt >>> 12) ≠ s.mapping (key.pc >>> 12)

/-- What the callers see to. -/
def Admits (s : Translations) (room : Nat) : CodeCall → Prop
  | .find key gen | .generate key gen => s.Translates room key gen
  | .addJump tb _ tbNext => tb < s.made ∧ (s.block tbNext).isSome
  | .unlink tb | .invalidate tb => (s.block tb).isSome
  | .writePage start stop memIoPc key gen =>
    start < stop ∧ (memIoPc.isSome → s.Translates room key gen)
  | .writeFast start len _ key gen =>
    len ∈ [1, 2, 4, 8] ∧ start % len = 0 ∧ s.Translates room key gen
  | .writeRange _ _ | .flush | .remap _ _ | .remapAll _ => True

end Translations

/-- The code and the specification side by side, after admitted calls; both have the same blocks. -/
inductive CodeReaches (room : Nat) (r₀ : CodeRun) (s₀ : Translations) :
    CodeRun → Translations → Prop
  | start : CodeReaches room r₀ s₀ r₀ s₀
  | call {r r' : CodeRun} {s s' : Translations} {out : Option Nat} (call : CodeCall) :
    CodeReaches room r₀ s₀ r s → s.Admits room call → r.call call = some (out, r') →
      s.Step call out s' → (∀ i tb, s'.block i = some tb → r'.code.tbs i = tb) →
        CodeReaches room r₀ s₀ r' s'

/-- Runs that begin without a protected page. -/
inductive WatchedReaches (room : Nat) (r₀ : CodeRun) (s₀ : Translations) :
    CodeRun → Translations → (Nat → Bool) → Prop
  | start : WatchedReaches room r₀ s₀ r₀ s₀ fun _ => false
  | call {r r' : CodeRun} {s s' : Translations} {watched : Nat → Bool} {out : Option Nat}
    (call : CodeCall) : WatchedReaches room r₀ s₀ r s watched → s.Admits room call →
      r.call call = some (out, r') → s.Step call out s' →
      (∀ i tb, s'.block i = some tb → r'.code.tbs i = tb) →
        WatchedReaches room r₀ s₀ r' s' (r.watch watched call)

end Vin64.Vx64
