import Vin64.Vx64.Proofs.TranslateAll

/-!
# Translated code is what it was made from

Blocks are made, looked up, chained and invalidated in any order.  What a lookup returns was made
for what is looked up, and has not been written to since; a block that jumps to another jumps to one
that is still there.
-/

namespace Vin64.Vx64

open Vin64.Lib

variable {c c' : CodeGen} {block : Nat → Option TranslationBlock} {tb : TranslationBlock}
  {Here : TranslationBlock → Prop} {i room : Nat} {key : CodeKey} {gen : Generated}
  {mapping : CodeMapping} {r r' r₀ : CodeRun} {s s' s₀ : Translations}

/-! ## The jump cache -/

theorem hashPage_congr {pc pc' : BitVec 64} (h : pc >>> 12 = pc' >>> 12) :
    tbJmpCacheHashPage pc = tbJmpCacheHashPage pc' := by
  have hbits : ∀ i, 6 ≤ i → pc.getLsbD (6 + i) = pc'.getLsbD (6 + i) := by
    intro i hi
    have hbit := congrArg (fun x : BitVec 64 => x.getLsbD (i - 6)) h
    simp only [BitVec.getLsbD_ushiftRight] at hbit
    rwa [show 12 + (i - 6) = 6 + i by omega] at hbit
  have hmask : ∀ i < 6, (4032#64).getLsbD i = false := by decide
  unfold tbJmpCacheHashPage jmpCacheTmp
  refine congrArg BitVec.toNat (BitVec.eq_of_getLsbD_eq fun i hi => ?_)
  simp only [BitVec.getLsbD_and, BitVec.getLsbD_ushiftRight, BitVec.getLsbD_xor]
  by_cases hlow : i < 6
  · have hzero : BitVec.getLsbD (4032 : BitVec 64) i = false := hmask i hlow
    rw [hzero, Bool.and_false, Bool.and_false]
  · rw [hbits i (by omega), hbits (6 + i) (by omega)]

/-- The bits of a page come before those of an address in it. -/
theorem hashFunc_eq (pc : BitVec 64) :
    ∃ low < 64, tbJmpCacheHashFunc pc = tbJmpCacheHashPage pc + low := by
  refine ⟨(jmpCacheTmp pc &&& 63).toNat, ?_, ?_⟩
  · rw [BitVec.toNat_and]
    exact Nat.and_lt_two_pow _ (show (63 : BitVec 64).toNat < 2 ^ 6 by decide)
  · have hlow : (jmpCacheTmp pc &&& 63).toNat < 2 ^ 6 := by
      rw [BitVec.toNat_and]
      exact Nat.and_lt_two_pow _ (by decide)
    have hhigh : (jmpCacheTmp pc >>> 6 &&& 4032).toNat % 2 ^ 6 = 0 := by
      rw [BitVec.toNat_and, Nat.and_mod_two_pow]
      exact Nat.and_zero _
    unfold tbJmpCacheHashFunc tbJmpCacheHashPage
    rw [BitVec.toNat_or]
    have hsplit : (jmpCacheTmp pc >>> 6 &&& 4032).toNat =
        2 ^ 6 * ((jmpCacheTmp pc >>> 6 &&& 4032).toNat / 2 ^ 6) := by omega
    rw [hsplit]
    exact (Nat.two_pow_add_eq_or_of_lt hlow _).symm

/-- The blocks of a page are in the part of the cache that is cleared for the page. -/
theorem hashFunc_in_page {pc addr : BitVec 64} (h : pc >>> 12 = addr >>> 12) :
    tbJmpCacheHashPage addr ≤ tbJmpCacheHashFunc pc ∧
      tbJmpCacheHashFunc pc < tbJmpCacheHashPage addr + 64 := by
  obtain ⟨low, hlow, heq⟩ := hashFunc_eq pc
  rw [heq, hashPage_congr h]
  omega

theorem shift_eq_iff (x y : BitVec 64) : x >>> 12 = y >>> 12 ↔ x.toNat / 4096 = y.toNat / 4096 := by
  rw [← BitVec.toNat_inj, BitVec.toNat_ushiftRight, BitVec.toNat_ushiftRight,
    Nat.shiftRight_eq_div_pow, Nat.shiftRight_eq_div_pow]

/-- The page before the next page is the page itself. -/
theorem page_of_next {pc addr : BitVec 64} (h : ((pc &&& ~~~4095#64) + 4096) >>> 12 = addr >>> 12) :
    pc >>> 12 = (addr - 4096) >>> 12 := by
  rw [shift_eq_iff, BitVec.toNat_add, toNat_page] at h
  rw [shift_eq_iff, BitVec.toNat_sub]
  have hpage : (4096 : BitVec 64).toNat = 4096 := rfl
  have hpc := pc.isLt
  have haddr := addr.isLt
  rw [hpage] at h ⊢
  omega

/-! ## Lookups -/

/-- The block is where the guest's pages are. -/
def InPlace (mapping : CodeMapping) (tb : TranslationBlock) : Prop :=
  tb.For ⟨tb.pc, tb.csBase, tb.flags⟩ mapping

theorem for_iff : tb.For key mapping ↔
    InPlace mapping tb ∧ tb.pc = key.pc ∧ tb.csBase = key.csBase ∧ tb.flags = key.flags := by
  constructor
  · intro h
    have hfirst := h.first
    have hsecond := h.second
    rw [← h.pc] at hfirst hsecond
    exact ⟨⟨rfl, rfl, rfl, hfirst, hsecond⟩, h.pc, h.csBase, h.flags⟩
  · rintro ⟨h, hpc, hcs, hflags⟩
    have hfirst := h.first
    have hsecond := h.second
    dsimp only at hfirst hsecond
    rw [hpc] at hfirst hsecond
    exact ⟨hpc, hcs, hflags, hfirst, hsecond⟩

/-- The block that was found goes to the front of its bucket. -/
theorem Coded.toFront (h : Coded c block Here) {b : Nat} (hi : i ∈ c.tbPhysHash b) :
    Coded { c with
      tbPhysHash := Function.update c.tbPhysHash b (i :: (c.tbPhysHash b).erase i) } block
      Here := by
  have ht := h.tables
  have hmem : ∀ b' j, j ∈ Function.update c.tbPhysHash b (i :: (c.tbPhysHash b).erase i) b' ↔
      j ∈ c.tbPhysHash b' := by
    intro b' j
    by_cases hb : b' = b
    · subst hb
      rw [Function.update_self]
      exact (List.perm_cons_erase hi).mem_iff.symm
    · rw [Function.update_of_ne hb]
  refine ⟨⟨ht.live, fun b' => ?_, fun b' j => (hmem b' j).trans (ht.hash b' j), ht.noPage,
    ht.pageNodup, ht.page, ht.bitmap⟩, h.chained, h.cache⟩
  by_cases hb : b' = b
  · subst hb
    dsimp only
    rw [Function.update_self]
    exact (List.perm_cons_erase hi).nodup_iff.1 (ht.nodup b')
  · dsimp only
    rw [Function.update_of_ne hb]
    exact ht.nodup b'

theorem Coded.setCache (h : Coded c block Here) (hi : block i = some tb) (hhere : Here tb) :
    Coded { c with tbJmpCache :=
      Function.update c.tbJmpCache (tbJmpCacheHashFunc tb.pc) (some i) } block Here := by
  refine ⟨⟨h.tables.live, h.tables.nodup, h.tables.hash, h.tables.noPage, h.tables.pageNodup,
    h.tables.page, h.tables.bitmap⟩, h.chained, fun b j hj => ?_⟩
  by_cases hb : b = tbJmpCacheHashFunc tb.pc
  · subst hb
    dsimp only at hj
    rw [Function.update_self, Option.some.injEq] at hj
    exact ⟨tb, hj ▸ hi, rfl, hhere⟩
  · dsimp only at hj
    rw [Function.update_of_ne hb] at hj
    exact h.cache b j hj

/-- The test of `tb_find_slow`. -/
theorem tbMatches_iff (htb : c.tbs i = tb) :
    c.tbMatches key mapping.codeAddr i = true ↔ tb.For key mapping := by
  have hlt := Nat.mod_lt key.pc.toNat (show 0 < 4096 by decide)
  have hpage : mapping.codeAddr key.pc / 4096 * 4096 = mapping (key.pc >>> 12) * 4096 := by
    unfold CodeMapping.codeAddr
    omega
  unfold CodeGen.tbMatches
  dsimp only
  rw [htb, decide_eq_true_eq, hpage]
  constructor
  · rintro ⟨hpc, hfirst, hcs, hflags, hsecond⟩
    exact ⟨hpc, hcs, hflags, hfirst, hsecond⟩
  · intro h
    exact ⟨h.pc, h.first, h.csBase, h.flags, h.second⟩

/-- The code does what the specification allows. -/
structure CodeInv (room : Nat) (r : CodeRun) (s : Translations) : Prop where
  coded : Coded r.code s.block (InPlace s.mapping)
  buffer : Buffer room r.code
  made : s.made = r.code.nbTbs
  mapping : r.mapping = s.mapping

/-- `tb_gen_code` -/
theorem CodeInv.generate (h : CodeInv room r s) (htranslates : s.Translates room key gen) :
    ∃ i c' pages s', r.code.tbGenCode key r.mapping.codeAddr gen = some (i, c', pages) ∧
      s.Makes key gen i s' ∧ CodeInv room { r with code := c' } s' ∧
      ∃ tb, s'.block i = some tb ∧ tb.For key s.mapping := by
  obtain ⟨i, c', pages, block₀, tb, hrun, hfrom, hcoded, hbuffer, hnb, hfor, hsize⟩ :=
    h.coded.generate h.buffer htranslates h.mapping.symm
  rw [h.mapping] at hfor
  refine ⟨i, c', pages, ⟨Function.update block₀ i (some tb), i + 1, s.mapping⟩, hrun, ?_,
    ⟨hcoded, hbuffer, hnb.symm, h.mapping⟩, tb, Function.update_self .., hfor⟩
  rcases hfrom with ⟨rfl, rfl⟩ | ⟨rfl, rfl⟩
  · exact ⟨s, Or.inl rfl, h.made.symm, tb, hfor, hsize, by rw [h.made]⟩
  · exact ⟨s.dropAll, Or.inr rfl, rfl, tb, hfor, hsize, rfl⟩

/-- `tb_find_slow` -/
theorem CodeInv.findSlow (h : CodeInv room r s) (htranslates : s.Translates room key gen) :
    ∃ i c' pages s', r.code.tbFindSlow key r.mapping.codeAddr gen = some (i, c', pages) ∧
      s.Step (.find key gen) (some i) s' ∧ CodeInv room { r with code := c' } s' := by
  unfold CodeGen.tbFindSlow
  dsimp only
  cases hfind : (r.code.tbPhysHash (tbPhysHashFunc (r.mapping.codeAddr key.pc))).find?
      (r.code.tbMatches key r.mapping.codeAddr) with
  | some i =>
      have hmem := List.mem_of_find?_eq_some hfind
      obtain ⟨tb, hi, -⟩ := (h.coded.tables.hash _ i).1 hmem
      have hfor := (tbMatches_iff (h.coded.tables.live i tb hi).2.1).1 (List.find?_some hfind)
      rw [h.mapping] at hfor
      have hset := (h.coded.toFront hmem).setCache hi (for_iff.1 hfor).1
      rw [hfor.pc] at hset
      exact ⟨i, _, _, s, rfl, ⟨i, rfl, Or.inl ⟨tb, hi, hfor, rfl⟩⟩,
        ⟨hset, h.buffer.same ⟨rfl, rfl, rfl, rfl, rfl, rfl, rfl⟩, h.made, h.mapping⟩⟩
  | none =>
      obtain ⟨i, c', pages, s', hrun, hmakes, h', tb, hi, hfor⟩ := h.generate htranslates
      have hmapping : s'.mapping = s.mapping := h'.mapping.symm.trans h.mapping
      have hhere := (for_iff.1 hfor).1
      rw [← hmapping] at hhere
      have hset := h'.coded.setCache hi hhere
      rw [hfor.pc] at hset
      refine ⟨i, _, pages, s', ?_, ⟨i, rfl, Or.inr ⟨fun j tb' hj hfor' => ?_, hmakes⟩⟩,
        ⟨hset, h'.buffer.same ⟨rfl, rfl, rfl, rfl, rfl, rfl, rfl⟩, h'.made, h'.mapping⟩⟩
      · dsimp only
        rw [hrun]
        rfl
      · -- a block for the same code would be in the bucket
        have htb := (h.coded.tables.live j tb' hj).2.1
        rw [← h.mapping] at hfor'
        have hphys : tb'.physPc = r.mapping.codeAddr key.pc := by
          unfold TranslationBlock.physPc CodeMapping.codeAddr
          rw [hfor'.first, hfor'.pc]
        have hin := (h.coded.tables.hash _ j).2 ⟨tb', hj, congrArg tbPhysHashFunc hphys⟩
        exact absurd ((tbMatches_iff htb).2 hfor') (List.find?_eq_none.1 hfind j hin)

/-- `tb_find_fast` -/
theorem CodeInv.findFast (h : CodeInv room r s) (htranslates : s.Translates room key gen) :
    ∃ i c' pages s', r.code.tbFindFast key r.mapping.codeAddr gen = some (i, c', pages) ∧
      s.Step (.find key gen) (some i) s' ∧ CodeInv room { r with code := c' } s' := by
  unfold CodeGen.tbFindFast
  cases hcache : r.code.tbJmpCache (tbJmpCacheHashFunc key.pc) with
  | none => exact h.findSlow htranslates
  | some i =>
      dsimp only
      by_cases hother : (r.code.tbs i).pc ≠ key.pc ∨ (r.code.tbs i).csBase ≠ key.csBase ∨
          (r.code.tbs i).flags ≠ key.flags
      · rw [if_pos hother]
        exact h.findSlow htranslates
      · rw [if_neg hother]
        obtain ⟨tb, hi, -, hmapped⟩ := h.coded.cache _ i hcache
        rw [(h.coded.tables.live i tb hi).2.1] at hother
        simp only [not_or, not_not] at hother
        have hfor := for_iff.2 ⟨hmapped, hother⟩
        exact ⟨i, r.code, [], s, rfl, ⟨i, rfl, Or.inl ⟨tb, hi, hfor, rfl⟩⟩, h⟩

/-- A page of the guest is somewhere else, and the cache has no block that was on it. -/
theorem CodeInv.remap (h : CodeInv room r s) (addr : BitVec 64) (page : Nat) :
    CodeInv room ⟨r.code.tbFlushJmpCache addr, Function.update r.mapping (addr >>> 12) page⟩
      { s with mapping := Function.update s.mapping (addr >>> 12) page } := by
  refine ⟨⟨⟨h.coded.tables.live, h.coded.tables.nodup, h.coded.tables.hash, h.coded.tables.noPage,
    h.coded.tables.pageNodup, h.coded.tables.page, h.coded.tables.bitmap⟩, h.coded.chained,
    fun b i hi => ?_⟩, h.buffer.same ⟨rfl, rfl, rfl, rfl, rfl, rfl, rfl⟩, h.made,
    congrArg (fun m => Function.update m (addr >>> 12) page) h.mapping⟩
  simp only [CodeGen.tbFlushJmpCache, ite_eq_iff, reduceCtorEq, and_false, false_or] at hi
  obtain ⟨hthis, hbefore, hcache⟩ := hi
  obtain ⟨tb, hlive, hfun, hmapped⟩ := h.coded.cache b i hcache
  have hpage : tb.pc >>> 12 ≠ addr >>> 12 := by
    intro heq
    have hin := hashFunc_in_page heq
    rw [hfun] at hin
    exact hthis hin
  have hnext : ((tb.pc &&& ~~~4095#64) + 4096) >>> 12 ≠ addr >>> 12 := by
    intro heq
    have hin := hashFunc_in_page (page_of_next heq)
    rw [hfun] at hin
    exact hbefore hin
  refine ⟨tb, hlive, hfun, rfl, rfl, rfl, ?_, fun q hq => ?_⟩
  · dsimp only
    rw [Function.update_of_ne hpage]
    exact hmapped.first
  · have hsecond := hmapped.second q hq
    unfold CodeMapping.codeAddr at hsecond ⊢
    dsimp only at hsecond ⊢
    rw [Function.update_of_ne hnext]
    exact hsecond

/-- What is left when some blocks are dropped. -/
theorem CodeInv.drops (h : CodeInv room r s) {P : TranslationBlock → Prop}
    {block' : Nat → Option TranslationBlock} (hcoded : Coded c' block' (InPlace s.mapping))
    (hsame : r.code.Same c')
    (hdrops : ∀ j tb, block' j = some tb ↔ s.block j = some tb ∧ ¬P tb) :
    s.Drops P { s with block := block' } ∧
      CodeInv room { r with code := c' } { s with block := block' } :=
  ⟨⟨rfl, rfl, hdrops⟩,
    ⟨hcoded, h.buffer.same hsame, h.made.trans hsame.nbTbs.symm, h.mapping⟩⟩

/-- When the block that runs was modified, another is made for the instruction that writes. -/
theorem CodeInv.remade {P : TranslationBlock → Prop} {x : Invalidated} {t : Translations}
    (h : CodeInv room { r with code := x.code } t) (hdrops : s.Drops P t)
    (htranslates : x.modified = true → s.Translates room key gen)
    (hmodified : x.modified = true → ∃ j tb, s.block j = some tb ∧ P tb ∧ tb.icount ≠ 1) :
    ∃ w s', x.remake key r.mapping.codeAddr gen = some w ∧ s.Writes P key gen w.made s' ∧
      CodeInv room { r with code := w.code } s' := by
  unfold Invalidated.remake
  by_cases hx : x.modified = true
  · have ht : t.Translates room key gen := by
      obtain ⟨hpos, hsize, hcode, hroom, hapart⟩ := htranslates hx
      rw [← hdrops.2.1] at hapart
      exact ⟨hpos, hsize, hcode, hroom, hapart⟩
    obtain ⟨i, c', pages, s', hrun, hmakes, h', -⟩ := h.generate ht
    refine ⟨⟨c', x.unprotected, some i, pages⟩, s', ?_,
      ⟨t, hdrops, Or.inr ⟨i, rfl, hmakes, hmodified hx⟩⟩, h'⟩
    rw [if_pos hx, hrun]
    rfl
  · exact ⟨⟨x.code, x.unprotected, none, []⟩, t, if_neg hx, ⟨t, hdrops, Or.inl ⟨rfl, rfl⟩⟩, h⟩

theorem remake_unprotected {getPageAddrCode : BitVec 64 → Nat} {x : Invalidated} {w : Written}
    (h : x.remake key getPageAddrCode gen = some w) : w.unprotected = x.unprotected := by
  unfold Invalidated.remake at h
  split at h
  · obtain ⟨y, -, rfl⟩ := Option.map_eq_some_iff.1 h
    rfl
  · obtain rfl := Option.some.inj h
    rfl

/-! ## Runs -/

/-- What is stored at once is in one byte of a bitmap. -/
theorem aligned_of_len {start len : Nat} (hlen : len ∈ [1, 2, 4, 8]) (haligned : start % len = 0) :
    0 < len ∧ start % 8 + len ≤ 8 := by
  simp only [List.mem_cons, List.not_mem_nil, or_false] at hlen
  rcases hlen with rfl | rfl | rfl | rfl <;> omega

/-- `tb_invalidate_phys_page_fast`, what it drops and what it makes. -/
theorem CodeInv.writeFast {start len pc : Nat} (h : CodeInv room r s)
    (hadmits : s.Admits room (.writeFast start len pc key gen)) :
    ∃ x block' w s', r.code.invalidatePhysPageFast start len pc = some x ∧
      x.remake key r.mapping.codeAddr gen = some w ∧ Coded x.code block' (InPlace s.mapping) ∧
      s.Drops (fun tb => tb.Touches start (start + len)) { s with block := block' } ∧
      s.Step (.writeFast start len pc key gen) w.made s' ∧
      CodeInv room { r with code := w.code } s' := by
  obtain ⟨hlen, haligned, htranslates⟩ := hadmits
  obtain ⟨hpos, hbyte⟩ := aligned_of_len hlen haligned
  obtain ⟨x, block', hrun, hcoded, hsame, hblocks⟩ := h.coded.pageFast pc hpos hbyte
  obtain ⟨hdrops, h'⟩ := h.drops hcoded hsame hblocks
  obtain ⟨w, s', hremake, hwrites, h''⟩ := h'.remade hdrops (fun _ => htranslates)
    (fun hx => by
      obtain ⟨i, tb, -, hi, htouches, hmore⟩ := (h.coded.pageFast_modified hpos hbyte hrun).1 hx
      exact ⟨i, tb, hi, htouches, hmore⟩)
  exact ⟨x, block', w, s', hrun, hremake, hcoded, hdrops, hwrites, h''⟩

/-- An admitted call does what the specification allows, and keeps all that the next one needs. -/
theorem CodeInv.step {call : CodeCall} (h : CodeInv room r s) (hadmits : s.Admits room call) :
    ∃ out r' s', r.call call = some (out, r') ∧ s.Step call out s' ∧ CodeInv room r' s' := by
  cases call with
  | find key gen =>
      obtain ⟨i, c', pages, s', hrun, hstep, h'⟩ := h.findFast hadmits
      refine ⟨some i, _, s', ?_, hstep, h'⟩
      rw [CodeRun.call, hrun]
      rfl
  | generate key gen =>
      obtain ⟨i, c', pages, s', hrun, hmakes, h', -⟩ := h.generate hadmits
      refine ⟨some i, _, s', ?_, ⟨i, rfl, hmakes⟩, h'⟩
      rw [CodeRun.call, hrun]
      rfl
  | addJump tb n tbNext =>
      obtain ⟨htb, hnext⟩ := hadmits
      obtain ⟨next, hi⟩ := Option.isSome_iff_exists.1 hnext
      obtain ⟨lists, hchained⟩ := h.coded.chained
      rw [h.made] at htb
      have hjumps := hchained.addJump (n := n) htb (h.coded.tables.live tbNext next hi).1 hnext
      exact ⟨none, _, s, rfl, rfl, ⟨⟨⟨h.coded.tables.live, h.coded.tables.nodup,
        h.coded.tables.hash, h.coded.tables.noPage, h.coded.tables.pageNodup, h.coded.tables.page,
        h.coded.tables.bitmap⟩, hjumps, h.coded.cache⟩,
        h.buffer.same ⟨rfl, rfl, rfl, rfl, rfl, rfl, rfl⟩, h.made, h.mapping⟩⟩
  | unlink i =>
      have hi : (s.block i).isSome := hadmits
      obtain ⟨lists, hchained⟩ := h.coded.chained
      obtain ⟨jumps, lists', hrun, hchained', -⟩ := hchained.unlink hi
      refine ⟨none, ⟨{ r.code with jumps := jumps }, r.mapping⟩, s, ?_, rfl,
        ⟨⟨⟨h.coded.tables.live, h.coded.tables.nodup, h.coded.tables.hash, h.coded.tables.noPage,
          h.coded.tables.pageNodup, h.coded.tables.page, h.coded.tables.bitmap⟩,
          ⟨lists', hchained'⟩, h.coded.cache⟩,
        h.buffer.same ⟨rfl, rfl, rfl, rfl, rfl, rfl, rfl⟩, h.made, h.mapping⟩⟩
      rw [CodeRun.call, CodeGen.cpuUnlinkTb, CodeGen.maxJumps, hrun]
      rfl
  | invalidate i =>
      obtain ⟨tb, hi⟩ := Option.isSome_iff_exists.1 hadmits
      obtain ⟨c', hrun, hcoded, hsame, -⟩ := h.coded.physInvalidate hi
      refine ⟨none, { r with code := c' }, { s with block := Function.update s.block i none }, ?_,
        rfl, ⟨hcoded, h.buffer.same hsame, h.made.trans hsame.nbTbs.symm, h.mapping⟩⟩
      rw [CodeRun.call, hrun]
      rfl
  | writePage start stop memIoPc key gen =>
      obtain ⟨hlt, htranslates⟩ := hadmits
      obtain ⟨x, block', hrun, hcoded, hsame, hblocks⟩ := h.coded.pageRange hlt memIoPc
      obtain ⟨hdrops, h'⟩ := h.drops hcoded hsame hblocks
      have hmodified := h.coded.pageRange_modified hlt hrun
      obtain ⟨w, s', hremake, hwrites, h''⟩ := h'.remade hdrops
        (fun hx => by
          obtain ⟨i, tb, hcurrent, -⟩ := hmodified.1 hx
          obtain ⟨pc, rfl, -⟩ := Option.bind_eq_some_iff.1 hcurrent
          exact htranslates rfl)
        (fun hx => by
          obtain ⟨i, tb, -, hi, htouches, hmore⟩ := hmodified.1 hx
          exact ⟨i, tb, hi, htouches, hmore⟩)
      refine ⟨w.made, _, s', ?_, hwrites, h''⟩
      rw [CodeRun.call, CodeGen.tbInvalidatePhysPageRange, hrun, Option.bind_eq_bind,
        Option.bind_some, hremake]
      rfl
  | writeFast start len memIoPc key gen =>
      obtain ⟨x, block', w, s', hrun, hremake, -, -, hstep, h'⟩ := h.writeFast hadmits
      refine ⟨w.made, _, s', ?_, hstep, h'⟩
      rw [CodeRun.call, CodeGen.tbInvalidatePhysPageFast, hrun, Option.bind_eq_bind,
        Option.bind_some, hremake]
      rfl
  | writeRange start stop =>
      obtain ⟨c', block', hrun, hcoded, hsame, hdrops⟩ := h.coded.range start stop
      obtain ⟨hstep, h'⟩ := h.drops hcoded hsame hdrops
      refine ⟨none, _, _, ?_, hstep, h'⟩
      rw [CodeRun.call, hrun]
      rfl
  | flush =>
      obtain ⟨c', hrun, hcoded, hbuffer, hzero⟩ := h.buffer.flush (InPlace s.mapping)
      refine ⟨none, { r with code := c' }, s.dropAll, ?_, rfl,
        ⟨hcoded, hbuffer, hzero.symm, h.mapping⟩⟩
      rw [CodeRun.call, hrun]
      rfl
  | remap addr page => exact ⟨none, _, _, rfl, rfl, h.remap addr page⟩
  | remapAll mapping =>
      exact ⟨none, _, _, rfl, rfl, ⟨⟨⟨h.coded.tables.live, h.coded.tables.nodup,
        h.coded.tables.hash, h.coded.tables.noPage, h.coded.tables.pageNodup, h.coded.tables.page,
        h.coded.tables.bitmap⟩, h.coded.chained, fun b i hi => by cases hi⟩,
        h.buffer.same ⟨rfl, rfl, rfl, rfl, rfl, rfl, rfl⟩, h.made, rfl⟩⟩

/-! ## Reachable states -/

theorem Translations.Drops.unique {P : TranslationBlock → Prop} {s₁ s₂ : Translations}
    (h₁ : s.Drops P s₁) (h₂ : s.Drops P s₂) : s₁ = s₂ := by
  obtain ⟨hmade₁, hmapping₁, hblock₁⟩ := h₁
  obtain ⟨hmade₂, hmapping₂, hblock₂⟩ := h₂
  have hblock : s₁.block = s₂.block := by
    funext i
    exact Option.ext fun tb => (hblock₁ i tb).trans (hblock₂ i tb).symm
  calc s₁ = ⟨s₁.block, s₁.made, s₁.mapping⟩ := rfl
    _ = ⟨s₂.block, s₂.made, s₂.mapping⟩ := by
      rw [hblock, hmade₁, hmade₂, hmapping₁, hmapping₂]
    _ = s₂ := rfl

/-- When nothing was made there is nothing to be dropped. -/
theorem CodeInv.dropAll_eq {t : Translations} (h : CodeInv room r s) (hmade : t.made = s.made)
    (hblocks : ∀ i tb, t.block i = some tb → s.block i = some tb) (hzero : t.made = 0) :
    t.dropAll = t := by
  have hblock : t.block = fun _ => none := by
    funext i
    cases hi : t.block i with
    | none => rfl
    | some tb =>
        have hlt := (h.coded.tables.live i tb (hblocks i tb hi)).1
        rw [← h.made, ← hmade, hzero] at hlt
        exact absurd hlt (Nat.not_lt_zero i)
  calc t.dropAll = ⟨fun _ => none, 0, t.mapping⟩ := rfl
    _ = ⟨t.block, t.made, t.mapping⟩ := by rw [hblock, hzero]
    _ = t := rfl

/-- The number of the block that was made tells whether all were dropped. -/
theorem Translations.Makes.unique {tbs : Nat → TranslationBlock} {s₁ s₂ : Translations}
    (hempty : s.made = 0 → s.dropAll = s) (h₁ : s.Makes key gen i s₁) (h₂ : s.Makes key gen i s₂)
    (hblocks₁ : ∀ i tb, s₁.block i = some tb → tbs i = tb)
    (hblocks₂ : ∀ i tb, s₂.block i = some tb → tbs i = tb) : s₁ = s₂ := by
  obtain ⟨t₁, hfrom₁, hi₁, tb₁, -, -, rfl⟩ := h₁
  obtain ⟨t₂, hfrom₂, hi₂, tb₂, -, -, rfl⟩ := h₂
  have htb : tb₁ = tb₂ :=
    (hblocks₁ i tb₁ (Function.update_self ..)).symm.trans
      (hblocks₂ i tb₂ (Function.update_self ..))
  have ht : t₁ = t₂ := by
    rcases hfrom₁ with rfl | rfl <;> rcases hfrom₂ with rfl | rfl
    · rfl
    · exact (hempty (hi₁.symm.trans hi₂)).symm
    · exact hempty (hi₂.symm.trans hi₁)
    · rfl
  rw [htb, ht]

/-- What a call returns and the blocks of the code afterwards tell what it did. -/
theorem CodeInv.step_unique {call : CodeCall} {out : Option Nat} {s₁ s₂ : Translations}
    {tbs : Nat → TranslationBlock} (h : CodeInv room r s) (h₁ : s.Step call out s₁)
    (h₂ : s.Step call out s₂) (hblocks₁ : ∀ i tb, s₁.block i = some tb → tbs i = tb)
    (hblocks₂ : ∀ i tb, s₂.block i = some tb → tbs i = tb) : s₁ = s₂ := by
  have hmakes : ∀ {key gen i}, s.Makes key gen i s₁ → s.Makes key gen i s₂ → s₁ = s₂ :=
    fun hm₁ hm₂ => hm₁.unique (h.dropAll_eq rfl fun _ _ hi => hi) hm₂ hblocks₁ hblocks₂
  have hwrites : ∀ {P key gen}, s.Writes P key gen out s₁ → s.Writes P key gen out s₂ →
      s₁ = s₂ := by
    rintro P key gen ⟨t, hdrops, hor₁⟩ ⟨t₂, hdrops₂, hor₂⟩
    obtain rfl := hdrops.unique hdrops₂
    rcases hor₁ with ⟨rfl, rfl⟩ | ⟨i, rfl, hmakes₁, -⟩ <;>
      rcases hor₂ with ⟨hout, rfl⟩ | ⟨j, hout, hmakes₂, -⟩
    · rfl
    · cases hout
    · cases hout
    · obtain rfl := Option.some.inj hout
      have hempty := h.dropAll_eq hdrops.1 fun i tb hi => ((hdrops.2.2 i tb).1 hi).1
      exact hmakes₁.unique hempty hmakes₂ hblocks₁ hblocks₂
  cases call with
  | find key gen =>
      obtain ⟨i, hi, hor₁⟩ := h₁
      obtain ⟨j, hj, hor₂⟩ := h₂
      obtain rfl := Option.some.inj (hi.symm.trans hj)
      rcases hor₁ with ⟨tb₁, hlive₁, hfor₁, rfl⟩ | ⟨hnone₁, hmakes₁⟩ <;>
        rcases hor₂ with ⟨tb₂, hlive₂, hfor₂, rfl⟩ | ⟨hnone₂, hmakes₂⟩
      · rfl
      · exact absurd hfor₁ (hnone₂ i tb₁ hlive₁)
      · exact absurd hfor₂ (hnone₁ i tb₂ hlive₂)
      · exact hmakes hmakes₁ hmakes₂
  | generate key gen =>
      obtain ⟨i, hi, hmakes₁⟩ := h₁
      obtain ⟨j, hj, hmakes₂⟩ := h₂
      obtain rfl := Option.some.inj (hi.symm.trans hj)
      exact hmakes hmakes₁ hmakes₂
  | writePage start stop memIoPc key gen => exact hwrites h₁ h₂
  | writeFast start len memIoPc key gen => exact hwrites h₁ h₂
  | writeRange start stop => exact Translations.Drops.unique h₁ h₂
  | addJump tb n tbNext => exact Eq.trans h₁ (Eq.symm h₂)
  | unlink tb => exact Eq.trans h₁ (Eq.symm h₂)
  | invalidate tb => exact Eq.trans h₁ (Eq.symm h₂)
  | flush => exact Eq.trans h₁ (Eq.symm h₂)
  | remap addr page => exact Eq.trans h₁ (Eq.symm h₂)
  | remapAll mapping => exact Eq.trans h₁ (Eq.symm h₂)

theorem CodeInv.blocks (h : CodeInv room r s) (i : Nat) (tb : TranslationBlock)
    (hi : s.block i = some tb) : r.code.tbs i = tb :=
  (h.coded.tables.live i tb hi).2.1

theorem CodeInv.reaches (h₀ : CodeInv room r₀ s₀) (h : CodeReaches room r₀ s₀ r s) :
    CodeInv room r s := by
  induction h with
  | start => exact h₀
  | call call _ hadmits hrun hstep hblocks ih =>
      obtain ⟨out', r', s', hrun', hstep', h'⟩ := ih.step hadmits
      rw [hrun, Option.some.injEq, Prod.mk.injEq] at hrun'
      obtain ⟨rfl, rfl⟩ := hrun'
      rw [ih.step_unique hstep hstep' hblocks h'.blocks]
      exact h'

section

variable {tbs : Nat → TranslationBlock} {jumps : Jumps}
  {buffer bufferSize maxSize maxBlocks : Nat}

theorem CodeInv.init (hblocks : 0 < maxBlocks) (hmax : 0 < maxSize)
    (hroom : maxSize + room ≤ bufferSize) :
    CodeInv room ⟨CodeGen.init tbs jumps buffer bufferSize maxSize maxBlocks, mapping⟩
      (Translations.init mapping) := by
  refine ⟨⟨?_, ⟨fun _ => [], ?_⟩, fun b i hi => by cases hi⟩, ?_, rfl, rfl⟩
  · constructor
    · exact fun i tb hi => by cases hi
    · exact fun _ => List.nodup_nil
    · exact fun b i => iff_of_false List.not_mem_nil fun ⟨tb, hi, _⟩ => by cases hi
    · exact fun k hk i tb n hi => by cases hi
    · exact fun k p hp => by cases hp
    · exact fun k p hp => by cases hp
    · exact fun k p m hp => by cases hp
  · have hnone :
        (fun i => ((Translations.init mapping).block i).isSome = true) = fun _ => False := by
      funext i
      exact eq_false fun hc => by cases hc
    rw [hnone]
    exact Chained.nil _ _
  · exact ⟨hblocks, hmax, hroom, Nat.le_refl _, Nat.le_add_right _ _, fun _ => rfl,
      fun hc => absurd hc (Nat.lt_irrefl 0), fun i j _ hj => absurd hj (Nat.not_lt_zero j),
      fun i hi => absurd hi (Nat.not_lt_zero i)⟩

/-- Nothing has been translated. -/
def sampleRun : CodeRun :=
  ⟨.init (fun _ => ⟨0, 0, 0, 0, 0, 0, 0, none⟩) ⟨fun _ => none, fun _ _ => none⟩ 4096 1024 512 8,
    BitVec.toNat⟩

/-- Two instructions in four bytes of the first page. -/
def sampleTb : TranslationBlock := ⟨64, 0, 0, 4, 2, 4096, 0, none⟩

def sampleBlock : Translations :=
  ⟨Function.update (fun _ => none) 0 (some sampleTb), 1, BitVec.toNat⟩

theorem sample_translates :
    (Translations.init BitVec.toNat).Translates 64 ⟨64, 0, 0⟩ ⟨4, 2, 32⟩ := by
  refine ⟨by decide, by decide, by decide, by decide, fun virt hvirt => ?_⟩
  rw [show virtPage2 64 4 = none by decide] at hvirt
  cases hvirt

theorem sample_step : (Translations.init BitVec.toNat).Step (.find ⟨64, 0, 0⟩ ⟨4, 2, 32⟩) (some 0)
    sampleBlock := by
  have hfor : sampleTb.For ⟨64, 0, 0⟩ BitVec.toNat :=
    ⟨rfl, rfl, rfl, rfl, fun page hpage => absurd hpage (Option.not_mem_none page)⟩
  refine ⟨0, rfl, Or.inr ⟨fun j tb hj => ?_, _, Or.inl rfl, rfl, sampleTb, hfor, rfl, rfl⟩⟩
  exact absurd hj (Option.not_mem_none tb)

theorem sampleBlock_eq {i : Nat} {tb : TranslationBlock} (hi : sampleBlock.block i = some tb) :
    i = 0 ∧ tb = sampleTb := by
  by_cases hzero : i = 0
  · subst hzero
    exact ⟨rfl, (Option.some.inj hi).symm⟩
  · unfold sampleBlock at hi
    dsimp only at hi
    rw [Function.update_of_ne hzero] at hi
    cases hi

/-- The tables after `tb_gen_code` of the one block. -/
def sampleCode : CodeGen :=
  ((sampleRun.code.tbFindFast ⟨64, 0, 0⟩ (CodeMapping.codeAddr BitVec.toNat) ⟨4, 2, 32⟩).map
    (·.2.1)).getD sampleRun.code

theorem sample_find : sampleRun.call (.find ⟨64, 0, 0⟩ ⟨4, 2, 32⟩) =
    some (some 0, ⟨sampleCode, BitVec.toNat⟩) := rfl

/-- A store from the first block to itself. -/
theorem sample_write (hcurrent : sampleCode.currentTb (some 4100) = some 0) :
    (sampleCode.tbInvalidatePhysPageFast 66 2 4100 ⟨66, 0, 0⟩ (CodeMapping.codeAddr BitVec.toNat)
      ⟨2, 1, 16⟩).map (fun x => (x.unprotected, x.made)) = some (true, some 1) := by
  unfold CodeGen.tbInvalidatePhysPageFast CodeGen.invalidatePhysPageFast CodeGen.invalidatePhysPage
  rw [hcurrent]
  rfl

/-- The state after `tb_gen_code` of the one block. -/
theorem sample_reaches : ∃ c, CodeReaches 64 sampleRun (Translations.init BitVec.toNat)
    ⟨c, BitVec.toNat⟩ sampleBlock ∧ c.codeGenBuffer = 4096 ∧ c.codeGenPtr = 4128 ∧ c.Holds 0 4100 ∧
      c.jumps.field (.jmpNext 0 0) = none ∧
      ∃ x, c.tbInvalidatePhysPageFast 66 2 4100 ⟨66, 0, 0⟩ (CodeMapping.codeAddr BitVec.toNat)
        ⟨2, 1, 16⟩ = some x ∧ x.unprotected = true ∧ x.made = some 1 := by
  have hreaches : CodeReaches 64 sampleRun (Translations.init BitVec.toNat)
      ⟨sampleCode, BitVec.toNat⟩ sampleBlock := by
    refine .call (.find ⟨64, 0, 0⟩ ⟨4, 2, 32⟩) .start sample_translates sample_find sample_step
      fun i tb hi => ?_
    obtain ⟨rfl, rfl⟩ := sampleBlock_eq hi
    rfl
  have hpc : sampleCode.Holds 0 4100 := by
    refine ⟨?_, ?_, ?_, fun j hj hpos => absurd hj (Nat.not_lt.2 ?_)⟩
    · show 0 < 1
      decide
    · show 4096 ≤ 4100
      decide
    · show 4100 < 4128
      decide
    · show 1 ≤ j
      omega
  have hinv := (CodeInv.init (by decide) (by decide) (by decide)).reaches hreaches
  obtain ⟨x, hx, hpair⟩ :=
    Option.map_eq_some_iff.1 (sample_write (hinv.buffer.currentTb_eq hpc (by decide)))
  obtain ⟨hunprotected, hmade⟩ := Prod.mk.inj hpair
  exact ⟨sampleCode, hreaches, rfl, rfl, hpc, rfl, x, hx, hunprotected, hmade⟩

/-- Then `tb_add_jump` from the block to itself. -/
theorem sample_jump : ∃ c, CodeReaches 64 sampleRun (Translations.init BitVec.toNat)
    ⟨c, BitVec.toNat⟩ sampleBlock ∧ c.jumps.tbNext 0 0 = some 0 := by
  obtain ⟨c, hreaches, -, -, -, hfield, -⟩ := sample_reaches
  have hinv : ∀ i tb, sampleBlock.block i = some tb → c.tbs i = tb :=
    ((CodeInv.init (by decide) (by decide) (by decide)).reaches hreaches).blocks
  refine ⟨{ c with jumps := c.jumps.tbAddJump 0 0 0 },
    .call (.addJump 0 0 0) hreaches ⟨by decide, rfl⟩ rfl rfl hinv, ?_⟩
  dsimp only [Jumps.tbAddJump]
  rw [if_pos hfield]
  rfl

/-- A block does not jump to one that has been invalidated. -/
theorem codeReaches_jump (hblocks : 0 < maxBlocks) (hmax : 0 < maxSize)
    (hroom : maxSize + room ≤ bufferSize)
    (h : CodeReaches room ⟨CodeGen.init tbs jumps buffer bufferSize maxSize maxBlocks, mapping⟩
      (Translations.init mapping) r s) {n : Fin 2} {t : Nat} (hi : (s.block i).isSome)
    (hnext : r.code.jumps.tbNext i n = some t) : (s.block t).isSome := by
  obtain ⟨lists, hchained⟩ := ((CodeInv.init hblocks hmax hroom).reaches h).coded.chained
  exact hchained.listed_of_jump hi hnext

theorem codeReaches_jump_sample : ∃ c : CodeGen, c.jumps.tbNext 0 0 = some 0 ∧
    (sampleBlock.block 0).isSome := by
  obtain ⟨c, hreaches, hnext⟩ := sample_jump
  exact ⟨c, hnext, codeReaches_jump (by decide) (by decide) (by decide) hreaches rfl hnext⟩

/-- After `cpu_unlink_tb` the code comes back from every block that it may be in. -/
theorem codeReaches_unlink (hblocks : 0 < maxBlocks) (hmax : 0 < maxSize)
    (hroom : maxSize + room ≤ bufferSize)
    (h : CodeReaches room ⟨CodeGen.init tbs jumps buffer bufferSize maxSize maxBlocks, mapping⟩
      (Translations.init mapping) r s) (hi : (s.block i).isSome) :
    ∃ c', r.code.cpuUnlinkTb i = some c' ∧
      ∀ t, Relation.ReflTransGen (fun s t => ∃ n, r.code.jumps.tbNext s n = some t) i t →
        ∀ n, c'.jumps.tbNext t n = none := by
  obtain ⟨lists, hchained⟩ := ((CodeInv.init hblocks hmax hroom).reaches h).coded.chained
  obtain ⟨jumps', lists', hrun, -, hreset, hquiet⟩ := hchained.unlink hi
  refine ⟨{ r.code with jumps := jumps' }, ?_, fun t ht => hreset.quiet_of_reaches hquiet ht⟩
  rw [CodeGen.cpuUnlinkTb, CodeGen.maxJumps, hrun]
  rfl

theorem codeReaches_unlink_sample : ∃ c c' : CodeGen, c.jumps.tbNext 0 0 = some 0 ∧
    c.cpuUnlinkTb 0 = some c' ∧
      ∀ t, Relation.ReflTransGen (fun s t => ∃ n, c.jumps.tbNext s n = some t) 0 t →
        ∀ n, c'.jumps.tbNext t n = none := by
  obtain ⟨c, hreaches, hnext⟩ := sample_jump
  obtain ⟨c', hunlink⟩ := codeReaches_unlink (by decide) (by decide) (by decide) hreaches
    (show (sampleBlock.block 0).isSome from rfl)
  exact ⟨c, c', hnext, hunlink⟩

/-- The host's program counter is in the code of one block, which `tb_find_pc` finds. -/
theorem codeReaches_findPc (hblocks : 0 < maxBlocks) (hmax : 0 < maxSize)
    (hroom : maxSize + room ≤ bufferSize)
    (h : CodeReaches room ⟨CodeGen.init tbs jumps buffer bufferSize maxSize maxBlocks, mapping⟩
      (Translations.init mapping) r s) {pc : Nat} (hfrom : r.code.codeGenBuffer ≤ pc)
    (hto : pc < r.code.codeGenPtr) :
    ∃ i, r.code.tbFindPc pc = some i ∧ ∀ j, r.code.Holds j pc ↔ j = i := by
  obtain ⟨i, hrun, hi⟩ := ((CodeInv.init hblocks hmax hroom).reaches h).buffer.findPc hfrom hto
  exact ⟨i, hrun, fun j => ⟨fun hj => hj.unique hi, fun heq => heq ▸ hi⟩⟩

theorem codeReaches_findPc_sample : ∃ c : CodeGen, ∃ i, c.tbFindPc 4100 = some i ∧
    ∀ j, c.Holds j 4100 ↔ j = i := by
  obtain ⟨c, hreaches, hbuffer, hptr, -⟩ := sample_reaches
  refine ⟨c, codeReaches_findPc (by decide) (by decide) (by decide) hreaches ?_ ?_⟩
  · rw [hbuffer]
    decide
  · rw [hptr]
    decide

/-- A store from the code of a block to what the block was made from is noticed, unless the store is
all that the block does. -/
theorem codeReaches_modified (hblocks : 0 < maxBlocks) (hmax : 0 < maxSize)
    (hroom : maxSize + room ≤ bufferSize)
    (h : CodeReaches room ⟨CodeGen.init tbs jumps buffer bufferSize maxSize maxBlocks, mapping⟩
      (Translations.init mapping) r s) {start len pc : Nat} (hi : s.block i = some tb)
    (hpc : r.code.Holds i pc) (hzero : pc ≠ 0) (hlen : len ∈ [1, 2, 4, 8])
    (haligned : start % len = 0) :
    ∃ x, r.code.invalidatePhysPageFast start len pc = some x ∧
      (x.modified = true ↔ tb.Touches start (start + len) ∧ tb.icount ≠ 1) := by
  have hinv := (CodeInv.init hblocks hmax hroom).reaches h
  obtain ⟨hpos, hbyte⟩ := aligned_of_len hlen haligned
  obtain ⟨x, -, hrun, -⟩ := hinv.coded.pageFast pc hpos hbyte
  refine ⟨x, hrun, ?_⟩
  rw [hinv.coded.pageFast_modified hpos hbyte hrun, hinv.buffer.currentTb_eq hpc hzero]
  constructor
  · rintro ⟨j, tb', hj, hj', htouches, hmore⟩
    obtain rfl := Option.some.inj hj
    obtain rfl := Option.some.inj (hi.symm.trans hj')
    exact ⟨htouches, hmore⟩
  · rintro ⟨htouches, hmore⟩
    exact ⟨i, tb, rfl, hi, htouches, hmore⟩

theorem codeReaches_modified_sample : ∃ (c : CodeGen) (x : Invalidated),
    c.invalidatePhysPageFast 66 2 4100 = some x ∧
      (x.modified = true ↔ sampleTb.Touches 66 68 ∧ sampleTb.icount ≠ 1) := by
  obtain ⟨c, hreaches, -, -, hpc, -⟩ := sample_reaches
  exact ⟨c, codeReaches_modified (by decide) (by decide) (by decide) hreaches rfl hpc (by decide)
    (by decide) (by decide)⟩

/-- A store takes the protection off a page when no block has code on the page any more.  Only the
block that is made for the store itself may be there afterwards. -/
theorem codeReaches_unprotected (hblocks : 0 < maxBlocks) (hmax : 0 < maxSize)
    (hroom : maxSize + room ≤ bufferSize)
    (h : CodeReaches room ⟨CodeGen.init tbs jumps buffer bufferSize maxSize maxBlocks, mapping⟩
      (Translations.init mapping) r s) {start len pc : Nat}
    (hadmits : s.Admits room (.writeFast start len pc key gen)) {x : Written}
    (hrun : r.code.tbInvalidatePhysPageFast start len pc key r.mapping.codeAddr gen = some x)
    (hx : x.unprotected = true) :
    ∃ s', s.Step (.writeFast start len pc key gen) x.made s' ∧ ∀ i tb, s'.block i = some tb →
      tb.Touches (start / 4096 * 4096) (start / 4096 * 4096 + 4096) → x.made = some i := by
  have hinv := (CodeInv.init hblocks hmax hroom).reaches h
  obtain ⟨x₀, hfast, hremake⟩ := Option.bind_eq_some_iff.1 hrun
  obtain ⟨x₁, block', w, s', hfast', hremake', hcoded, hdrops, hwrites, -⟩ :=
    hinv.writeFast hadmits
  obtain rfl := Option.some.inj (hfast.symm.trans hfast')
  obtain rfl := Option.some.inj (hremake.symm.trans hremake')
  -- no block is left on the page when the protection is taken off
  have hnone : ∀ i tb, block' i = some tb →
      ¬tb.Touches (start / 4096 * 4096) (start / 4096 * 4096 + 4096) := by
    rw [remake_unprotected hremake] at hx
    obtain ⟨p, hp, hempty⟩ :=
      hinv.coded.pageFast_unprotected (aligned_of_len hadmits.1 hadmits.2.1).2 hfast hx
    exact fun i tb hi => hcoded.not_touches_of_empty hp hempty hi
  refine ⟨s', hwrites, fun i tb hi htouches => ?_⟩
  obtain ⟨t, hdrops', ⟨-, rfl⟩ | ⟨j, hmade, ⟨u, hfrom, rfl, tb', -, -, rfl⟩, -⟩⟩ := hwrites
  · obtain rfl := hdrops.unique hdrops'
    exact absurd htouches (hnone i tb hi)
  · obtain rfl := hdrops.unique hdrops'
    by_cases hij : i = u.made
    · rw [hmade, hij]
    · dsimp only at hi
      rw [Function.update_of_ne hij] at hi
      rcases hfrom with rfl | rfl
      · exact absurd htouches (hnone i tb hi)
      · cases hi

theorem codeReaches_unprotected_sample : ∃ s',
    sampleBlock.Step (.writeFast 66 2 4100 ⟨66, 0, 0⟩ ⟨2, 1, 16⟩) (some 1) s' ∧
      ∀ i tb, s'.block i = some tb → tb.Touches 0 4096 → some 1 = some i := by
  obtain ⟨c, hreaches, -, -, -, -, x, hrun, hx, hmade⟩ := sample_reaches
  have htranslates : sampleBlock.Translates 64 ⟨66, 0, 0⟩ ⟨2, 1, 16⟩ := by
    refine ⟨by decide, by decide, by decide, by decide, fun virt hvirt => ?_⟩
    rw [show virtPage2 66 2 = none by decide] at hvirt
    cases hvirt
  rw [← hmade]
  exact codeReaches_unprotected (by decide) (by decide) (by decide) hreaches
    ⟨by decide, by decide, htranslates⟩ hrun hx

end

end Vin64.Vx64
