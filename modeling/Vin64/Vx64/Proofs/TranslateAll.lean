import Vin64.Vx64.Proofs.Jumps
import Vin64.Vx64.Proofs.PageBitmap
import Vin64.Lib.LowBits

/-!
# The tables of translated code

A block that is there is in one bucket of the hash table, and in the list of each page that it has
code on; no other block is.
-/

namespace Vin64.Vx64

open Vin64.Lib

variable {c c' : CodeGen} {block : Nat → Option TranslationBlock} {tb : TranslationBlock}
  {i j k start stop : Nat} {n : Fin 2} {p : PageDesc} {lists : Nat → List Link}

/-! ## Blocks -/

/-- The number of a page that the block has code on. -/
def TranslationBlock.page (tb : TranslationBlock) (n : Fin 2) : Option Nat :=
  if n = 0 then some (tb.pageAddr0 / 4096) else tb.pageAddr1.map (· / 4096)

/-- A block of guest code on one page, or on two that are not the same. -/
structure TranslationBlock.Proper (tb : TranslationBlock) : Prop where
  pos : 0 < tb.size
  size : tb.size ≤ 4096
  first : tb.pageAddr0 % 4096 = 0
  one : tb.pageAddr1 = none → tb.pc.toNat % 4096 + tb.size ≤ 4096
  two : ∀ page ∈ tb.pageAddr1, page % 4096 = 0 ∧ page ≠ tb.pageAddr0 ∧
    4096 < tb.pc.toNat % 4096 + tb.size

theorem TranslationBlock.Proper.page_inj (h : tb.Proper) {m : Fin 2} (hn : tb.page n = some k)
    (hm : tb.page m = some k) : n = m := by
  have hfirst := h.first
  cases hq : tb.pageAddr1 with
  | none =>
      match n, m with
      | 0, 0 => rfl
      | 1, 1 => rfl
      | 0, 1 => simp [TranslationBlock.page, hq] at hm
      | 1, 0 => simp [TranslationBlock.page, hq] at hn
  | some q =>
      obtain ⟨hmod, hne, -⟩ := h.two q hq
      match n, m with
      | 0, 0 => rfl
      | 1, 1 => rfl
      | 0, 1 =>
          simp [TranslationBlock.page, hq] at hn hm
          omega
      | 1, 0 =>
          simp [TranslationBlock.page, hq] at hn hm
          omega

/-- A byte of the code is on a page of the block. -/
theorem TranslationBlock.Proper.byteAddr_page (h : tb.Proper) {a : Nat} (hk : k < tb.size)
    (ha : tb.byteAddr k = some a) : ∃ n, tb.page n = some (a / 4096) := by
  have hfirst := h.first
  have hsize := h.size
  unfold TranslationBlock.byteAddr at ha
  by_cases hon : tb.pc.toNat % 4096 + k < 4096
  · rw [if_pos hon, Option.some.injEq] at ha
    refine ⟨0, congrArg some ?_⟩
    omega
  · rw [if_neg hon] at ha
    obtain ⟨q, hq, rfl⟩ := Option.map_eq_some_iff.1 ha
    obtain ⟨hmod, -⟩ := h.two q hq
    refine ⟨1, ?_⟩
    simp only [TranslationBlock.page, hq, Option.map_some]
    rw [if_neg (by decide), Option.some.injEq]
    omega

/-- A block is invalidated where it has a byte in the range, on the page of the range. -/
theorem TranslationBlock.Proper.touches_iff (h : tb.Proper)
    (hpage : tb.page n = some (start / 4096)) (hlt : start < stop) :
    tb.Touches start (min stop (start / 4096 * 4096 + 4096)) ↔
      ¬((tb.span n).2 ≤ start ∨ (tb.span n).1 ≥ stop) := by
  have hfirst := h.first
  have hsize := h.size
  have hpos := h.pos
  unfold TranslationBlock.Touches
  match n with
  | 0 =>
      simp only [TranslationBlock.page, if_true, Option.some.injEq] at hpage
      simp only [TranslationBlock.span, if_true, TranslationBlock.physPc]
      constructor
      · rintro ⟨k, hk, a, ha, hge, hlt⟩
        unfold TranslationBlock.byteAddr at ha
        by_cases hon : tb.pc.toNat % 4096 + k < 4096
        · rw [if_pos hon] at ha
          have heq := Option.some.inj ha
          omega
        · rw [if_neg hon] at ha
          obtain ⟨q, hq, rfl⟩ := Option.map_eq_some_iff.1 ha
          obtain ⟨hmod, hne, -⟩ := h.two q hq
          omega
      · intro hmeets
        obtain ⟨a, ha, hfrom, heq⟩ : ∃ a, start ≤ a ∧ tb.pageAddr0 + tb.pc.toNat % 4096 ≤ a ∧
            (a = start ∨ a = tb.pageAddr0 + tb.pc.toNat % 4096) :=
          ⟨max start (tb.pageAddr0 + tb.pc.toNat % 4096), Nat.le_max_left .., Nat.le_max_right ..,
            by omega⟩
        refine ⟨a - (tb.pageAddr0 + tb.pc.toNat % 4096), by omega, a, ?_, ha, by omega⟩
        unfold TranslationBlock.byteAddr
        rw [if_pos (by omega), Option.mem_some_iff]
        omega
  | 1 =>
      simp only [TranslationBlock.page, if_neg (show ¬(1 : Fin 2) = 0 by decide)] at hpage
      obtain ⟨q, hq, heq⟩ := Option.map_eq_some_iff.1 hpage
      obtain ⟨hmod, hne, hlong⟩ := h.two q hq
      simp only [TranslationBlock.span, if_neg (show ¬(1 : Fin 2) = 0 by decide), hq,
        Option.getD_some]
      have htail : (tb.pc.toNat + tb.size) % 4096 = tb.pc.toNat % 4096 + tb.size - 4096 := by omega
      rw [htail]
      constructor
      · rintro ⟨k, hk, a, ha, hge, hlt⟩
        unfold TranslationBlock.byteAddr at ha
        by_cases hon : tb.pc.toNat % 4096 + k < 4096
        · rw [if_pos hon] at ha
          have heq := Option.some.inj ha
          omega
        · rw [if_neg hon, hq] at ha
          have heq := Option.some.inj ha
          dsimp only at heq
          omega
      · intro hmeets
        obtain ⟨a, ha, hfrom, heq⟩ : ∃ a, start ≤ a ∧ q ≤ a ∧ (a = start ∨ a = q) :=
          ⟨max start q, Nat.le_max_left .., Nat.le_max_right .., by omega⟩
        refine ⟨a - q + (4096 - tb.pc.toNat % 4096), by omega, a, ?_, ha, by omega⟩
        unfold TranslationBlock.byteAddr
        rw [if_neg (by omega), hq, Option.map_some, Option.mem_some_iff]
        omega

/-- A block without code on the page of the range. -/
theorem TranslationBlock.Proper.not_touches (h : tb.Proper)
    (hpage : ∀ n, tb.page n ≠ some (start / 4096)) :
    ¬tb.Touches start (min stop (start / 4096 * 4096 + 4096)) := by
  rintro ⟨k, hk, a, ha, hge, hlt⟩
  obtain ⟨n, hn⟩ := h.byteAddr_page hk ha
  refine hpage n (hn.trans (congrArg some ?_))
  omega

/-! ## Tables -/

structure Tables (c : CodeGen) (block : Nat → Option TranslationBlock) : Prop where
  live : ∀ i tb, block i = some tb → i < c.nbTbs ∧ c.tbs i = tb ∧ tb.Proper
  nodup : ∀ h, (c.tbPhysHash h).Nodup
  hash : ∀ h i, i ∈ c.tbPhysHash h ↔ ∃ tb, block i = some tb ∧ tbPhysHashFunc tb.physPc = h
  noPage : ∀ k, c.pages k = none → ∀ i tb n, block i = some tb → tb.page n ≠ some k
  pageNodup : ∀ k p, c.pages k = some p → (p.firstTb.map Prod.fst).Nodup
  page : ∀ k p, c.pages k = some p → ∀ i n, (i, n) ∈ p.firstTb ↔
    ∃ tb, block i = some tb ∧ tb.page n = some k
  bitmap : ∀ k p m, c.pages k = some p → p.codeBitmap = some m → ∀ x < 4096,
    (codeBit m x = true ↔ ∃ b ∈ p.firstTb, (c.tbs b.1).HasBit b.2 x)

theorem mem_eraseP_fst {l : List (Nat × Fin 2)} (hl : (l.map Prod.fst).Nodup) (x : Nat × Fin 2) :
    x ∈ l.eraseP (·.1 = i) ↔ x ∈ l ∧ x.1 ≠ i := by
  induction l with
  | nil => simp
  | cons y l ih =>
      obtain ⟨hnot, hl⟩ := List.nodup_cons.1 hl
      by_cases hy : y.1 = i
      · rw [List.eraseP_cons, decide_eq_true hy, cond_true]
        constructor
        · intro hx
          refine ⟨List.mem_cons_of_mem _ hx, fun hxi => hnot ?_⟩
          exact List.mem_map.2 ⟨x, hx, hxi.trans hy.symm⟩
        · rintro ⟨hx, hne⟩
          rcases List.mem_cons.1 hx with rfl | hx
          · exact absurd hy hne
          · exact hx
      · rw [List.eraseP_cons, decide_eq_false hy, cond_false, List.mem_cons, List.mem_cons, ih hl,
          or_and_right]
        refine or_congr_left ⟨fun heq => ⟨heq, heq ▸ hy⟩, And.left⟩

/-- The block is taken off the list. -/
def PageDesc.without (p : PageDesc) (i : Nat) : PageDesc :=
  { p with firstTb := p.firstTb.eraseP (·.1 = i) }.invalidateBitmap

/-- What does not change while blocks are invalidated. -/
structure CodeGen.Same (c c' : CodeGen) : Prop where
  tbs : c'.tbs = c.tbs
  nbTbs : c'.nbTbs = c.nbTbs
  buffer : c'.codeGenBuffer = c.codeGenBuffer
  bufferSize : c'.codeGenBufferSize = c.codeGenBufferSize
  maxSize : c'.codeGenBufferMaxSize = c.codeGenBufferMaxSize
  maxBlocks : c'.codeGenMaxBlocks = c.codeGenMaxBlocks
  ptr : c'.codeGenPtr = c.codeGenPtr

theorem CodeGen.Same.refl (c : CodeGen) : c.Same c := ⟨rfl, rfl, rfl, rfl, rfl, rfl, rfl⟩

theorem CodeGen.Same.trans {c₁ : CodeGen} (h : c.Same c₁) (h' : c₁.Same c') : c.Same c' :=
  ⟨h'.tbs.trans h.tbs, h'.nbTbs.trans h.nbTbs, h'.buffer.trans h.buffer,
    h'.bufferSize.trans h.bufferSize, h'.maxSize.trans h.maxSize, h'.maxBlocks.trans h.maxBlocks,
    h'.ptr.trans h.ptr⟩

namespace Tables

theorem page_some (h : Tables c block) (hi : block i = some tb) (hn : tb.page n = some k) :
    ∃ p, c.pages k = some p ∧ (i, n) ∈ p.firstTb := by
  cases hp : c.pages k with
  | none => exact absurd hn (h.noPage k hp i tb n hi)
  | some p => exact ⟨p, rfl, (h.page k p hp i n).2 ⟨tb, hi, hn⟩⟩

/-- `tb_page_remove` finds the block on its pages. -/
theorem pageRemove {pageAddr : Nat} (hp : c.pages (pageAddr / 4096) = some p)
    (hmem : (i, n) ∈ p.firstTb) : c.tbPageRemove pageAddr i = some
      { c with pages := Function.update c.pages (pageAddr / 4096) (some (p.without i)) } := by
  have hany : p.firstTb.any (·.1 = i) = true :=
    List.any_eq_true.2 ⟨(i, n), hmem, decide_eq_true rfl⟩
  rw [CodeGen.tbPageRemove, hp]
  simp only [Option.bind_eq_bind, Option.bind_some]
  rw [if_pos hany]
  rfl

/-- The pages after the block has been taken off all of its lists. -/
theorem pagesRemoved (h : Tables c block) (hi : block i = some tb) (hpages : c'.pages = c.pages) :
    ∃ pages, (c'.tbPageRemove tb.pageAddr0 i).bind (CodeGen.removeSecond tb.pageAddr1 i) =
        some { c' with pages := pages } ∧
      (∀ k, (∃ n, tb.page n = some k) → pages k = (c.pages k).map (·.without i)) ∧
      ∀ k, (∀ n, tb.page n ≠ some k) → pages k = c.pages k := by
  have hproper := (h.live i tb hi).2.2
  obtain ⟨p, hp, hmem⟩ := h.page_some (n := 0) hi rfl
  rw [pageRemove ((congrFun hpages _).trans hp) hmem, Option.bind_some, hpages]
  cases hq : tb.pageAddr1 with
  | none =>
      refine ⟨_, rfl, fun k hk => ?_, fun k hk => ?_⟩
      · obtain ⟨n, hn⟩ := hk
        have hk : k = tb.pageAddr0 / 4096 := by
          match n with
          | 0 => exact (Option.some.inj hn).symm
          | 1 => simp [TranslationBlock.page, hq] at hn
        subst hk
        rw [Function.update_self, hp]
        rfl
      · exact Function.update_of_ne (fun heq => hk 0 (congrArg some heq.symm)) ..
  | some q =>
      have hone : tb.page 1 = some (q / 4096) := by simp [TranslationBlock.page, hq]
      obtain ⟨p', hp', hmem'⟩ := h.page_some hi hone
      have hne : q / 4096 ≠ tb.pageAddr0 / 4096 := fun heq =>
        absurd (hproper.page_inj (hone.trans (congrArg some heq)) (m := 0) rfl) (by decide)
      refine ⟨_, pageRemove (p := p') (n := 1) ?_ hmem', fun k hk => ?_, fun k hk => ?_⟩
      · exact (Function.update_of_ne hne ..).trans hp'
      · obtain ⟨n, hn⟩ := hk
        match n with
        | 0 =>
            obtain rfl := Option.some.inj hn
            rw [hp]
            exact (Function.update_of_ne hne.symm ..).trans (Function.update_self ..)
        | 1 =>
            obtain rfl := Option.some.inj (hone.symm.trans hn)
            rw [Function.update_self, hp']
            rfl
      · have hfirst : k ≠ tb.pageAddr0 / 4096 := fun heq => hk 0 (congrArg some heq.symm)
        have hsecond : k ≠ q / 4096 := fun heq => hk 1 (hone.trans (congrArg some heq.symm))
        exact (Function.update_of_ne hsecond ..).trans (Function.update_of_ne hfirst ..)

/-- The tables without the block. -/
theorem removed (h : Tables c block) (hi : block i = some tb) (hsame : c.Same c')
    (hhash : c'.tbPhysHash = Function.update c.tbPhysHash (tbPhysHashFunc tb.physPc)
      ((c.tbPhysHash (tbPhysHashFunc tb.physPc)).erase i))
    (hon : ∀ k, (∃ n, tb.page n = some k) → c'.pages k = (c.pages k).map (·.without i))
    (hoff : ∀ k, (∀ n, tb.page n ≠ some k) → c'.pages k = c.pages k) :
    Tables c' (Function.update block i none) := by
  have hblock : ∀ j tb', Function.update block i none j = some tb' ↔
      j ≠ i ∧ block j = some tb' := by
    intro j tb'
    by_cases hj : j = i
    · subst hj
      rw [Function.update_self]
      exact ⟨fun hc => absurd hc (by simp), fun hc => absurd rfl hc.1⟩
    · rw [Function.update_of_ne hj]
      exact (and_iff_right hj).symm
  have hpage : ∀ k p', c'.pages k = some p' → ∃ p, c.pages k = some p ∧
      (p'.firstTb.map Prod.fst).Nodup ∧ (∀ x, x ∈ p'.firstTb ↔ x ∈ p.firstTb ∧ x.1 ≠ i) ∧
      (p' = p ∨ p'.codeBitmap = none) := by
    intro k p' hp'
    by_cases hk : ∃ n, tb.page n = some k
    · rw [hon k hk] at hp'
      obtain ⟨p, hp, rfl⟩ := Option.map_eq_some_iff.1 hp'
      have hnodup := h.pageNodup k p hp
      exact ⟨p, hp, hnodup.sublist (List.eraseP_sublist.map _), mem_eraseP_fst hnodup, Or.inr rfl⟩
    · rw [hoff k fun n hn => hk ⟨n, hn⟩] at hp'
      refine ⟨p', hp', h.pageNodup k p' hp', fun x => ⟨fun hx => ⟨hx, fun hxi => ?_⟩, And.left⟩,
        Or.inl rfl⟩
      obtain ⟨tb', hj, hn⟩ := (h.page k p' hp' x.1 x.2).1 hx
      rw [hxi, hi, Option.some.injEq] at hj
      exact hk ⟨x.2, hj ▸ hn⟩
  constructor
  · intro j tb' hj
    rw [hsame.nbTbs, hsame.tbs]
    exact h.live j tb' ((hblock j tb').1 hj).2
  · intro b
    rw [hhash]
    by_cases hb : b = tbPhysHashFunc tb.physPc
    · subst hb
      rw [Function.update_self]
      exact (h.nodup _).erase i
    · rw [Function.update_of_ne hb]
      exact h.nodup b
  · intro b j
    simp only [hblock]
    rw [hhash]
    by_cases hb : b = tbPhysHashFunc tb.physPc
    · subst hb
      rw [Function.update_self, (h.nodup _).mem_erase_iff, h.hash]
      constructor
      · rintro ⟨hne, tb', hj, hfun⟩
        exact ⟨tb', ⟨hne, hj⟩, hfun⟩
      · rintro ⟨tb', ⟨hne, hj⟩, hfun⟩
        exact ⟨hne, tb', hj, hfun⟩
    · rw [Function.update_of_ne hb, h.hash]
      constructor
      · rintro ⟨tb', hj, hfun⟩
        refine ⟨tb', ⟨fun hji => hb ?_, hj⟩, hfun⟩
        rw [hji, hi, Option.some.injEq] at hj
        rw [hj, hfun]
      · rintro ⟨tb', ⟨-, hj⟩, hfun⟩
        exact ⟨tb', hj, hfun⟩
  · intro k hk j tb' n hj hn
    obtain ⟨hne, hj⟩ := (hblock j tb').1 hj
    obtain ⟨p, hp, hmem⟩ := h.page_some hj hn
    by_cases hon' : ∃ n, tb.page n = some k
    · rw [hon k hon', hp] at hk
      cases hk
    · rw [hoff k fun n hn => hon' ⟨n, hn⟩, hp] at hk
      cases hk
  · intro k p' hp'
    obtain ⟨p, hp, hnodup, -⟩ := hpage k p' hp'
    exact hnodup
  · intro k p' hp' j n
    obtain ⟨p, hp, -, hmem, -⟩ := hpage k p' hp'
    simp only [hblock]
    rw [hmem, h.page k p hp]
    constructor
    · rintro ⟨⟨tb', hj, hn⟩, hne⟩
      exact ⟨tb', ⟨hne, hj⟩, hn⟩
    · rintro ⟨tb', ⟨hne, hj⟩, hn⟩
      exact ⟨⟨tb', hj, hn⟩, hne⟩
  · intro k p' m hp' hm
    obtain ⟨p, hp, -, hmem, hor⟩ := hpage k p' hp'
    rcases hor with rfl | hnone
    · rw [hsame.tbs]
      exact h.bitmap k p' m hp hm
    · rw [hnone] at hm
      cases hm

end Tables

/-! ## Invalidation -/

/-- All that the tables keep; what is in the jump cache meets `Here`. -/
structure Coded (c : CodeGen) (block : Nat → Option TranslationBlock)
    (Here : TranslationBlock → Prop) : Prop where
  tables : Tables c block
  chained : ∃ lists, Chained c.jumps c.nbTbs (fun i => (block i).isSome) (fun i => (block i).isSome)
    lists
  cache : ∀ h i, c.tbJmpCache h = some i →
    ∃ tb, block i = some tb ∧ tbJmpCacheHashFunc tb.pc = h ∧ Here tb

variable {Here : TranslationBlock → Prop}

theorem isSome_update_none (block : Nat → Option TranslationBlock) (i : Nat) :
    (fun j => ((Function.update block i none j).isSome : Prop)) =
      fun j => ((block j).isSome : Prop) ∧ j ≠ i := by
  funext j
  by_cases hj : j = i
  · subst hj
    rw [Function.update_self]
    simp
  · rw [Function.update_of_ne hj]
    simp [hj]

theorem jmpCacheWithout_some {cache : Nat → Option Nat} {b b' : Nat}
    (h : CodeGen.jmpCacheWithout cache b' i b = some j) :
    cache b = some j ∧ ¬(b = b' ∧ j = i) := by
  unfold CodeGen.jmpCacheWithout at h
  by_cases hc : cache b' = some i
  · rw [if_pos hc] at h
    by_cases hb : b = b'
    · rw [hb, Function.update_self] at h
      cases h
    · rw [Function.update_of_ne hb] at h
      exact ⟨h, fun hboth => hb hboth.1⟩
  · rw [if_neg hc] at h
    refine ⟨h, ?_⟩
    rintro ⟨rfl, rfl⟩
    exact hc h

/-- `tb_phys_invalidate` takes a block out of everything that it is in. -/
theorem Coded.physInvalidate (h : Coded c block Here) (hi : block i = some tb) :
    ∃ c', c.tbPhysInvalidate i = some c' ∧ Coded c' (Function.update block i none) Here ∧
      c.Same c' ∧ ∀ k, c.pages k ≠ none → c'.pages k ≠ none := by
  obtain ⟨hlt, htb, hproper⟩ := h.tables.live i tb hi
  obtain ⟨lists, hchained⟩ := h.chained
  obtain ⟨jumps, lists', hjumps, hchained'⟩ := hchained.invalidate hlt
  have hbucket : i ∈ c.tbPhysHash (tbPhysHashFunc tb.physPc) :=
    (h.tables.hash _ i).2 ⟨tb, hi, rfl⟩
  have hkept : ({ c with
      tbPhysHash := Function.update c.tbPhysHash (tbPhysHashFunc tb.physPc)
        ((c.tbPhysHash (tbPhysHashFunc tb.physPc)).erase i) } : CodeGen).pages = c.pages := rfl
  obtain ⟨pages, hremove, hon, hoff⟩ := h.tables.pagesRemoved hi hkept
  obtain ⟨c₂, hsecond, hthird⟩ := Option.bind_eq_some_iff.1 hremove
  refine ⟨{ c with
    tbPhysHash := Function.update c.tbPhysHash (tbPhysHashFunc tb.physPc)
      ((c.tbPhysHash (tbPhysHashFunc tb.physPc)).erase i)
    pages := pages
    tbJmpCache := CodeGen.jmpCacheWithout c.tbJmpCache (tbJmpCacheHashFunc tb.pc) i
    jumps := jumps }, ?_, ⟨?_, ?_, ?_⟩, ⟨rfl, rfl, rfl, rfl, rfl, rfl, rfl⟩, ?_⟩
  · rw [CodeGen.tbPhysInvalidate, htb, CodeGen.tbHashRemove, if_pos hbucket]
    simp only [Option.bind_eq_bind, Option.bind_some, hsecond, hthird, CodeGen.maxJumps, hjumps]
  · exact h.tables.removed hi ⟨rfl, rfl, rfl, rfl, rfl, rfl, rfl⟩ rfl hon hoff
  · refine ⟨lists', ?_⟩
    rw [isSome_update_none]
    exact hchained'
  · intro b j hj
    have hkept := jmpCacheWithout_some hj
    obtain ⟨tb', hj', hfun, hhere⟩ := h.cache b j hkept.1
    have hne : j ≠ i := by
      rintro rfl
      rw [hi, Option.some.injEq] at hj'
      exact hkept.2 ⟨hj' ▸ hfun.symm, rfl⟩
    exact ⟨tb', (Function.update_of_ne hne ..).trans hj', hfun, hhere⟩
  · intro k hk
    show pages k ≠ none
    by_cases hon' : ∃ n, tb.page n = some k
    · rw [hon k hon']
      exact fun hc => hk (Option.map_eq_none_iff.1 hc)
    · rw [hoff k fun n hn => hon' ⟨n, hn⟩]
      exact hk

/-- The bytes that the block has on one of its pages meet the range. -/
def TranslationBlock.Meets (tb : TranslationBlock) (n : Fin 2) (start stop : Nat) : Prop :=
  ¬((tb.span n).2 ≤ start ∨ (tb.span n).1 ≥ stop)

/-- The loop over the list of a page invalidates the blocks that meet the range. -/
theorem Coded.invalidateLoop {l : List (Nat × Fin 2)} (h : Coded c block Here) (start stop : Nat)
    (current : Option Nat) (modified : Bool) (hl : (l.map Prod.fst).Nodup)
    (hlive : ∀ x ∈ l, ∃ tb, block x.1 = some tb) :
    ∃ c' modified' block', CodeGen.invalidateLoop start stop l c current modified =
        some (c', modified') ∧ Coded c' block' Here ∧ c.Same c' ∧
      (∀ k, c.pages k ≠ none → c'.pages k ≠ none) ∧
      ∀ j tb, block' j = some tb ↔
        block j = some tb ∧ ∀ n, (j, n) ∈ l → ¬tb.Meets n start stop := by
  induction l generalizing c block current modified with
  | nil =>
      refine ⟨c, modified, block, rfl, h, CodeGen.Same.refl c, fun k hk => hk, fun j tb => ?_⟩
      exact (and_iff_left fun n hn => absurd hn List.not_mem_nil).symm
  | cons x l ih =>
      obtain ⟨i, n⟩ := x
      obtain ⟨hnot, hl⟩ := List.nodup_cons.1 hl
      obtain ⟨tb, hi⟩ := hlive (i, n) List.mem_cons_self
      have htb := (h.tables.live i tb hi).2.1
      have honly : ∀ m, (i, m) ∈ (i, n) :: l → m = n := by
        intro m hm
        rcases List.mem_cons.1 hm with heq | hm
        · exact congrArg Prod.snd heq
        · exact absurd (List.mem_map.2 ⟨(i, m), hm, rfl⟩) hnot
      have hcons : ∀ j m, j ≠ i → ((j, m) ∈ (i, n) :: l ↔ (j, m) ∈ l) := by
        intro j m hj
        rw [List.mem_cons, or_iff_right fun heq => hj (congrArg Prod.fst heq)]
      rw [CodeGen.invalidateLoop, htb]
      by_cases hmeets : tb.Meets n start stop
      · obtain ⟨c₁, hrun, h₁, hsame, hpages⟩ := h.physInvalidate hi
        have hlive₁ : ∀ x ∈ l, ∃ tb, Function.update block i none x.1 = some tb := by
          intro x hx
          have hne : x.1 ≠ i := fun heq => hnot (List.mem_map.2 ⟨x, hx, heq⟩)
          rw [Function.update_of_ne hne]
          exact hlive x (List.mem_cons_of_mem _ hx)
        have hafter : ∀ (block' : Nat → Option TranslationBlock), (∀ j tb, block' j = some tb ↔
            Function.update block i none j = some tb ∧
              ∀ n, (j, n) ∈ l → ¬tb.Meets n start stop) → ∀ j tb', block' j = some tb' ↔
              block j = some tb' ∧ ∀ m, (j, m) ∈ (i, n) :: l → ¬tb'.Meets m start stop := by
          intro block' hblock' j tb'
          rw [hblock']
          by_cases hj : j = i
          · subst hj
            rw [Function.update_self]
            constructor
            · exact fun hc => absurd hc.1 (by simp)
            · rintro ⟨hj, hnone⟩
              rw [hi, Option.some.injEq] at hj
              exact absurd (hj ▸ hmeets) (hnone n List.mem_cons_self)
          · rw [Function.update_of_ne hj]
            simp only [hcons j _ hj]
        by_cases hcurrent : current = some i ∧ tb.icount = 1
        · obtain ⟨c', modified', block', hrest, h', hsame', hpages', hblock'⟩ :=
            ih h₁ none modified hl hlive₁
          refine ⟨c', modified', block', (if_pos hmeets).trans ?_, h', hsame.trans hsame',
            fun k hk => hpages' k (hpages k hk), hafter block' hblock'⟩
          rw [if_pos hcurrent, show c.tbPhysInvalidate i = some c₁ from hrun]
          exact hrest
        · obtain ⟨c', modified', block', hrest, h', hsame', hpages', hblock'⟩ :=
            ih h₁ current (modified || decide (current = some i)) hl hlive₁
          refine ⟨c', modified', block', (if_pos hmeets).trans ?_, h', hsame.trans hsame',
            fun k hk => hpages' k (hpages k hk), hafter block' hblock'⟩
          rw [if_neg hcurrent, show c.tbPhysInvalidate i = some c₁ from hrun]
          exact hrest
      · obtain ⟨c', modified', block', hrest, h', hsame, hpages, hblock'⟩ :=
          ih h current modified hl
            (fun x hx => hlive x (List.mem_cons_of_mem _ hx))
        refine ⟨c', modified', block', (if_neg hmeets).trans hrest, h', hsame, hpages,
          fun j tb' => ?_⟩
        rw [hblock']
        by_cases hj : j = i
        · subst hj
          constructor
          · rintro ⟨hj, -⟩
            refine ⟨hj, fun m hm => ?_⟩
            rw [hi, Option.some.injEq] at hj
            rw [honly m hm, ← hj]
            exact hmeets
          · rintro ⟨hj, hall⟩
            exact ⟨hj, fun m hm => hall m (List.mem_cons_of_mem _ hm)⟩
        · simp only [hcons j _ hj]

/-- Whether the loop found that the block that runs was modified; one of a single instruction is
done when it writes. -/
theorem invalidateLoop_modified {l : List (Nat × Fin 2)} {current : Option Nat}
    {modified modified' : Bool} (h : Coded c block Here) (hl : (l.map Prod.fst).Nodup)
    (hlive : ∀ x ∈ l, ∃ tb, block x.1 = some tb)
    (hrun : CodeGen.invalidateLoop start stop l c current modified = some (c', modified')) :
    modified' = true ↔ modified = true ∨ ∃ i n, current = some i ∧ (i, n) ∈ l ∧
      (c.tbs i).Meets n start stop ∧ (c.tbs i).icount ≠ 1 := by
  induction l generalizing c block current modified with
  | nil =>
      rw [CodeGen.invalidateLoop, Option.some.injEq, Prod.mk.injEq] at hrun
      rw [← hrun.2]
      refine (or_iff_left ?_).symm
      rintro ⟨i, n, -, hmem, -⟩
      exact absurd hmem List.not_mem_nil
  | cons x l ih =>
      obtain ⟨i, n⟩ := x
      obtain ⟨hnot, hl⟩ := List.nodup_cons.1 hl
      obtain ⟨tb, hi⟩ := hlive (i, n) List.mem_cons_self
      rw [CodeGen.invalidateLoop] at hrun
      by_cases hmeets : (c.tbs i).Meets n start stop
      · obtain ⟨c₁, hone, h₁, hsame, -⟩ := h.physInvalidate hi
        have hlive₁ : ∀ x ∈ l, ∃ tb, Function.update block i none x.1 = some tb := by
          intro x hx
          have hne : x.1 ≠ i := fun heq => hnot (List.mem_map.2 ⟨x, hx, heq⟩)
          rw [Function.update_of_ne hne]
          exact hlive x (List.mem_cons_of_mem _ hx)
        have hrun := (if_pos hmeets).symm.trans hrun
        by_cases hcurrent : current = some i ∧ (c.tbs i).icount = 1
        · rw [if_pos hcurrent, show c.tbPhysInvalidate i = some c₁ from hone] at hrun
          rw [ih h₁ hl hlive₁ hrun]
          refine or_congr_right (iff_of_false ?_ ?_)
          · rintro ⟨j, m, hnone, -⟩
            cases hnone
          · rintro ⟨j, m, hj, -, -, hmore⟩
            obtain rfl := Option.some.inj (hcurrent.1.symm.trans hj)
            exact hmore hcurrent.2
        · rw [if_neg hcurrent, show c.tbPhysInvalidate i = some c₁ from hone] at hrun
          rw [ih h₁ hl hlive₁ hrun, hsame.tbs, Bool.or_eq_true, decide_eq_true_eq, or_assoc]
          refine or_congr_right ?_
          constructor
          · rintro (hcur | ⟨j, m, hj, hm, hrest⟩)
            · exact ⟨i, n, hcur, List.mem_cons_self, hmeets, fun hc => hcurrent ⟨hcur, hc⟩⟩
            · exact ⟨j, m, hj, List.mem_cons_of_mem _ hm, hrest⟩
          · rintro ⟨j, m, hj, hm, hrest⟩
            rcases List.mem_cons.1 hm with heq | hm
            · exact Or.inl (hj.trans (congrArg some (congrArg Prod.fst heq)))
            · exact Or.inr ⟨j, m, hj, hm, hrest⟩
      · have hrun := (if_neg hmeets).symm.trans hrun
        rw [ih h hl (fun x hx => hlive x (List.mem_cons_of_mem _ hx)) hrun]
        refine or_congr_right ?_
        constructor
        · rintro ⟨j, m, hj, hm, hrest⟩
          exact ⟨j, m, hj, List.mem_cons_of_mem _ hm, hrest⟩
        · rintro ⟨j, m, hj, hm, hthis, hrest⟩
          rcases List.mem_cons.1 hm with heq | hm
          · obtain ⟨rfl, rfl⟩ := Prod.mk.inj heq
            exact absurd hthis hmeets
          · exact ⟨j, m, hj, hm, hthis, hrest⟩

/-! ## Ranges -/

/-- A page that keeps its list, and that has no bitmap but a right one. -/
theorem Coded.setPage (h : Coded c block Here) {p' : PageDesc} (hp : c.pages k = some p)
    (hfirst : p'.firstTb = p.firstTb)
    (hbitmap : ∀ m, p'.codeBitmap = some m → p.codeBitmap = some m ∨
      ∀ x, codeBit m x = true ↔ ∃ b ∈ p.firstTb, (c.tbs b.1).HasBit b.2 x) :
    Coded { c with pages := Function.update c.pages k (some p') } block Here := by
  have hold : ∀ k' q, Function.update c.pages k (some p') k' = some q → ∃ q', c.pages k' = some q' ∧
      q.firstTb = q'.firstTb ∧ ∀ m, q.codeBitmap = some m → q'.codeBitmap = some m ∨
        ∀ x, codeBit m x = true ↔ ∃ b ∈ q'.firstTb, (c.tbs b.1).HasBit b.2 x := by
    intro k' q hq
    by_cases hk : k' = k
    · subst hk
      rw [Function.update_self, Option.some.injEq] at hq
      subst hq
      exact ⟨p, hp, hfirst, hbitmap⟩
    · rw [Function.update_of_ne hk] at hq
      exact ⟨q, hq, rfl, fun m hm => Or.inl hm⟩
  have ht := h.tables
  refine ⟨⟨ht.live, ht.nodup, ht.hash, ?_, ?_, ?_, ?_⟩, h.chained, h.cache⟩
  · intro k' hk' i tb n hi
    by_cases hk : k' = k
    · subst hk
      dsimp only at hk'
      rw [Function.update_self] at hk'
      cases hk'
    · dsimp only at hk'
      rw [Function.update_of_ne hk] at hk'
      exact ht.noPage k' hk' i tb n hi
  · intro k' q hq
    obtain ⟨q', hq', heq, -⟩ := hold k' q hq
    rw [heq]
    exact ht.pageNodup k' q' hq'
  · intro k' q hq i n
    obtain ⟨q', hq', heq, -⟩ := hold k' q hq
    rw [heq]
    exact ht.page k' q' hq' i n
  · intro k' q m hq hm x hx
    obtain ⟨q', hq', heq, hor⟩ := hold k' q hq
    rw [heq]
    rcases hor m hm with hm' | hall
    · exact ht.bitmap k' q' m hq' hm' x hx
    · exact hall x

theorem countWrite_spec (p : PageDesc) (tbs : Nat → TranslationBlock) (isCpuWrite : Bool) :
    (p.countWrite tbs isCpuWrite).firstTb = p.firstTb ∧
      ∀ m, (p.countWrite tbs isCpuWrite).codeBitmap = some m → p.codeBitmap = some m ∨
        ∀ x, codeBit m x = true ↔ ∃ b ∈ p.firstTb, (tbs b.1).HasBit b.2 x := by
  unfold PageDesc.countWrite
  by_cases hnone : p.codeBitmap.isNone
  · rw [if_pos hnone]
    dsimp only
    split
    · obtain ⟨m, heq, hbits⟩ := buildBitmap_spec
        { p with codeWriteCount := (p.codeWriteCount + 1) % 4294967296 } tbs
      rw [heq]
      refine ⟨rfl, fun m' hm' => Or.inr ?_⟩
      obtain rfl := Option.some.inj hm'
      exact hbits
    · exact ⟨rfl, fun m hm => Or.inl hm⟩
  · rw [if_neg hnone]
    exact ⟨rfl, fun m hm => Or.inl hm⟩

/-- `tb_invalidate_phys_page_range` takes out the blocks with a byte in the range, on its page. -/
theorem Coded.pageRange (h : Coded c block Here) (hlt : start < stop) (memIoPc : Option Nat) :
    ∃ r block', c.invalidatePhysPage start stop memIoPc = some r ∧
      Coded r.code block' Here ∧ c.Same r.code ∧
      ∀ j tb, block' j = some tb ↔ block j = some tb ∧
        ¬tb.Touches start (min stop (start / 4096 * 4096 + 4096)) := by
  unfold CodeGen.invalidatePhysPage
  cases hp : c.pages (start / 4096) with
  | none =>
      refine ⟨⟨c, false, false⟩, block, rfl, h, CodeGen.Same.refl c, fun j tb => ?_⟩
      refine (and_iff_left_of_imp fun hj => ?_).symm
      exact (h.tables.live j tb hj).2.2.not_touches fun n => h.tables.noPage _ hp j tb n hj
  | some p =>
      obtain ⟨hfirst, hbitmap⟩ := countWrite_spec p c.tbs memIoPc.isSome
      have h₁ := h.setPage hp hfirst hbitmap
      have hnodup := h.tables.pageNodup _ p hp
      have hlist := h.tables.page _ p hp
      obtain ⟨c', modified, block', hrun, h', hsame, hpages, hblock'⟩ :=
        h₁.invalidateLoop start stop (c.currentTb memIoPc) false
          (l := (p.countWrite c.tbs memIoPc.isSome).firstTb) (hfirst ▸ hnodup)
          (fun x hx => by
            rw [hfirst] at hx
            obtain ⟨tb, hi, -⟩ := (hlist x.1 x.2).1 hx
            exact ⟨tb, hi⟩)
      have hsome : c'.pages (start / 4096) ≠ none := hpages _ (by
        dsimp only
        rw [Function.update_self]
        exact Option.some_ne_none _)
      obtain ⟨p', hp'⟩ := Option.ne_none_iff_exists'.1 hsome
      have hdrops : ∀ j tb, block' j = some tb ↔ block j = some tb ∧
          ¬tb.Touches start (min stop (start / 4096 * 4096 + 4096)) := by
        intro j tb
        rw [hblock', hfirst]
        refine and_congr_right fun hj => ?_
        have hproper := (h.tables.live j tb hj).2.2
        by_cases hon : ∃ n, tb.page n = some (start / 4096)
        · obtain ⟨n, hn⟩ := hon
          rw [hproper.touches_iff hn hlt]
          constructor
          · exact fun hall => hall n ((hlist j n).2 ⟨tb, hj, hn⟩)
          · intro hnot m hm
            obtain ⟨tb', hj', hm'⟩ := (hlist j m).1 hm
            rw [hj, Option.some.injEq] at hj'
            subst hj'
            exact hproper.page_inj hm' hn ▸ hnot
        · refine iff_of_true (fun n hn => ?_) (hproper.not_touches fun n hn => hon ⟨n, hn⟩)
          obtain ⟨tb', hj', hn'⟩ := (hlist j n).1 hn
          rw [hj, Option.some.injEq] at hj'
          exact absurd ⟨n, hj' ▸ hn'⟩ hon
      dsimp only
      simp only [Option.bind_eq_bind, hrun, Option.bind_some, hp']
      split
      · exact ⟨_, block', rfl, h'.setPage hp' rfl (fun m hm => Or.inl (by cases hm)),
          ⟨hsame.tbs, hsame.nbTbs, hsame.buffer, hsame.bufferSize, hsame.maxSize, hsame.maxBlocks,
            hsame.ptr⟩, hdrops⟩
      · exact ⟨_, block', rfl, h',
          ⟨hsame.tbs, hsame.nbTbs, hsame.buffer, hsame.bufferSize, hsame.maxSize, hsame.maxBlocks,
            hsame.ptr⟩, hdrops⟩

/-- A byte of the code is a bit of its page. -/
theorem TranslationBlock.Proper.hasBit (h : tb.Proper) {a : Nat} (hk : k < tb.size)
    (ha : tb.byteAddr k = some a) (hn : tb.page n = some (a / 4096)) : tb.HasBit n (a % 4096) := by
  have hfirst := h.first
  have hsize := h.size
  unfold TranslationBlock.byteAddr at ha
  unfold TranslationBlock.HasBit
  by_cases hon : tb.pc.toNat % 4096 + k < 4096
  · rw [if_pos hon, Option.some.injEq] at ha
    have hzero : n = 0 := h.page_inj hn (congrArg some (by omega))
    rw [if_pos hzero]
    omega
  · rw [if_neg hon] at ha
    obtain ⟨q, hq, rfl⟩ := Option.map_eq_some_iff.1 ha
    obtain ⟨hmod, -, hlong⟩ := h.two q hq
    have hone : n = 1 := by
      refine h.page_inj hn ?_
      simp only [TranslationBlock.page, hq, Option.map_some]
      rw [if_neg (by decide), Option.some.injEq]
      omega
    rw [if_neg (by rw [hone]; decide)]
    omega

/-- Where no bit of the bitmap is set there is no code. -/
theorem Coded.not_touches_of_bitmap {len : Nat} {m : Nat → BitVec 8} (h : Coded c block Here)
    (hp : c.pages (start / 4096) = some p) (hm : p.codeBitmap = some m)
    (hlen : start % 8 + len ≤ 8) (hcode : ¬PageDesc.hasCode m start len) (j : Nat)
    (tb : TranslationBlock) (hj : block j = some tb) : ¬tb.Touches start (start + len) := by
  obtain ⟨-, htb, hproper⟩ := h.tables.live j tb hj
  rintro ⟨k, hk, a, ha, hge, hlt⟩
  obtain ⟨n, hn⟩ := hproper.byteAddr_page hk ha
  have hpage : a / 4096 = start / 4096 := by omega
  have hmem := (h.tables.page _ p hp j n).2 ⟨tb, hj, hn.trans (congrArg some hpage)⟩
  have hbit := hproper.hasBit hk ha hn
  refine hcode ((hasCode_iff m hlen).2 ⟨a - start, by omega, ?_⟩)
  have hplace : start % 4096 + (a - start) = a % 4096 := by omega
  rw [hplace]
  exact (h.tables.bitmap _ p m hp hm _ (Nat.mod_lt _ (by decide))).2
    ⟨(j, n), hmem, htb.symm ▸ hbit⟩

/-- With the bitmap or without it, `tb_invalidate_phys_page_fast` takes out the blocks with a byte
in the range. -/
theorem Coded.pageFast {len : Nat} (h : Coded c block Here) (memIoPc : Nat) (hpos : 0 < len)
    (hlen : start % 8 + len ≤ 8) :
    ∃ r block', c.invalidatePhysPageFast start len memIoPc = some r ∧
      Coded r.code block' Here ∧ c.Same r.code ∧
      ∀ j tb, block' j = some tb ↔ block j = some tb ∧ ¬tb.Touches start (start + len) := by
  have hmin : min (start + len) (start / 4096 * 4096 + 4096) = start + len := by omega
  obtain ⟨r, block', hrun, h', hsame, hdrops⟩ :=
    h.pageRange (Nat.lt_add_of_pos_right hpos : start < start + len) (some memIoPc)
  rw [hmin] at hdrops
  unfold CodeGen.invalidatePhysPageFast
  cases hp : c.pages (start / 4096) with
  | none =>
      refine ⟨⟨c, false, false⟩, block, rfl, h, CodeGen.Same.refl c, fun j tb => ?_⟩
      refine (and_iff_left_of_imp fun hj => ?_).symm
      have hnot : ¬tb.Touches start (min (start + len) (start / 4096 * 4096 + 4096)) :=
        (h.tables.live j tb hj).2.2.not_touches fun n => h.tables.noPage _ hp j tb n hj
      rwa [hmin] at hnot
  | some p =>
      cases hm : p.codeBitmap with
      | none =>
          refine ⟨r, block', ?_, h', hsame, hdrops⟩
          dsimp only
          rw [hm]
          exact hrun
      | some m =>
          by_cases hcode : PageDesc.hasCode m start len
          · refine ⟨r, block', ?_, h', hsame, hdrops⟩
            dsimp only
            rw [hm]
            exact (if_pos hcode).trans hrun
          · refine ⟨⟨c, false, false⟩, block, ?_, h, CodeGen.Same.refl c, fun j tb => ?_⟩
            · dsimp only
              rw [hm]
              exact if_neg hcode
            · exact (and_iff_left_of_imp (h.not_touches_of_bitmap hp hm hlen hcode j tb)).symm

/-- A page is no longer protected when the list of its blocks is empty. -/
theorem pageRange_unprotected {memIoPc : Option Nat} {x : Invalidated}
    (hrun : c.invalidatePhysPage start stop memIoPc = some x)
    (hx : x.unprotected = true) : ∃ p, x.code.pages (start / 4096) = some p ∧ p.firstTb = [] := by
  unfold CodeGen.invalidatePhysPage at hrun
  cases hp : c.pages (start / 4096) with
  | none =>
      rw [hp] at hrun
      obtain rfl := Option.some.inj hrun
      exact absurd hx Bool.false_ne_true
  | some p =>
      rw [hp] at hrun
      obtain ⟨⟨c', modified⟩, -, hrest⟩ := Option.bind_eq_some_iff.1 hrun
      obtain ⟨p', hp', hend⟩ := Option.bind_eq_some_iff.1 hrest
      dsimp only at hend
      by_cases hempty : p'.firstTb = []
      · rw [if_pos hempty, Option.some.injEq] at hend
        subst hend
        exact ⟨p'.invalidateBitmap, Function.update_self .., hempty⟩
      · rw [if_neg hempty, Option.some.injEq] at hend
        subst hend
        exact absurd hx Bool.false_ne_true

/-- Whether the block that runs was modified. -/
theorem Coded.pageRange_modified {memIoPc : Option Nat} {x : Invalidated} (h : Coded c block Here)
    (hlt : start < stop) (hrun : c.invalidatePhysPage start stop memIoPc = some x) :
    x.modified = true ↔ ∃ i tb, c.currentTb memIoPc = some i ∧ block i = some tb ∧
      tb.Touches start (min stop (start / 4096 * 4096 + 4096)) ∧ tb.icount ≠ 1 := by
  unfold CodeGen.invalidatePhysPage at hrun
  cases hp : c.pages (start / 4096) with
  | none =>
      rw [hp] at hrun
      obtain rfl := Option.some.inj hrun
      refine iff_of_false Bool.false_ne_true ?_
      rintro ⟨i, tb, -, hi, htouches, -⟩
      exact (h.tables.live i tb hi).2.2.not_touches (fun n => h.tables.noPage _ hp i tb n hi)
        htouches
  | some p =>
      rw [hp] at hrun
      obtain ⟨hfirst, hbitmap⟩ := countWrite_spec p c.tbs memIoPc.isSome
      have h₁ := h.setPage hp hfirst hbitmap
      have hlist := h.tables.page _ p hp
      obtain ⟨⟨c', modified⟩, hloop, hrest⟩ := Option.bind_eq_some_iff.1 hrun
      have hmodified := invalidateLoop_modified h₁ (hfirst ▸ h.tables.pageNodup _ p hp)
        (fun y hy => by
          rw [hfirst] at hy
          obtain ⟨tb', hj, -⟩ := (hlist y.1 y.2).1 hy
          exact ⟨tb', hj⟩) hloop
      have hx : x.modified = modified := by
        obtain ⟨p', hp', hend⟩ := Option.bind_eq_some_iff.1 hrest
        dsimp only at hend
        split at hend <;> exact (Option.some.inj hend) ▸ rfl
      rw [hx, hmodified]
      constructor
      · rintro (hc | ⟨i, n, hcurrent, hmem, hmeets, hmore⟩)
        · cases hc
        · rw [hfirst] at hmem
          obtain ⟨tb, hi, hn⟩ := (hlist i n).1 hmem
          obtain ⟨-, htb, hproper⟩ := h.tables.live i tb hi
          dsimp only at hmeets hmore
          rw [htb] at hmeets hmore
          exact ⟨i, tb, hcurrent, hi, (hproper.touches_iff hn hlt).2 hmeets, hmore⟩
      · rintro ⟨i, tb, hcurrent, hi, htouches, hmore⟩
        obtain ⟨-, htb, hproper⟩ := h.tables.live i tb hi
        obtain ⟨n, hn⟩ : ∃ n, tb.page n = some (start / 4096) := by
          refine Classical.byContradiction fun hno => ?_
          exact hproper.not_touches (fun n hn => hno ⟨n, hn⟩) htouches
        refine Or.inr ⟨i, n, hcurrent, ?_, ?_, ?_⟩
        · rw [hfirst]
          exact (hlist i n).2 ⟨tb, hi, hn⟩
        · dsimp only
          rw [htb]
          exact (hproper.touches_iff hn hlt).1 htouches
        · dsimp only
          rw [htb]
          exact hmore

/-- `tb_invalidate_phys_page_fast` is `tb_invalidate_phys_page_range`, or there is nothing to do. -/
theorem Coded.pageFast_cases {len memIoPc : Nat} {x : Invalidated} (h : Coded c block Here)
    (hlen : start % 8 + len ≤ 8)
    (hrun : c.invalidatePhysPageFast start len memIoPc = some x) :
    c.invalidatePhysPage start (start + len) (some memIoPc) = some x ∨
      x = ⟨c, false, false⟩ ∧
        ∀ j tb, block j = some tb → ¬tb.Touches start (start + len) := by
  unfold CodeGen.invalidatePhysPageFast at hrun
  cases hp : c.pages (start / 4096) with
  | none =>
      rw [hp] at hrun
      refine Or.inr ⟨(Option.some.inj hrun).symm, fun j tb hj => ?_⟩
      have hmin : min (start + len) (start / 4096 * 4096 + 4096) = start + len := by omega
      have hnot : ¬tb.Touches start (min (start + len) (start / 4096 * 4096 + 4096)) :=
        (h.tables.live j tb hj).2.2.not_touches fun n => h.tables.noPage _ hp j tb n hj
      rwa [hmin] at hnot
  | some p =>
      rw [hp] at hrun
      dsimp only at hrun
      cases hm : p.codeBitmap with
      | none =>
          rw [hm] at hrun
          exact Or.inl hrun
      | some m =>
          rw [hm] at hrun
          dsimp only at hrun
          by_cases hcode : PageDesc.hasCode m start len
          · rw [if_pos hcode] at hrun
            exact Or.inl hrun
          · rw [if_neg hcode] at hrun
            exact Or.inr ⟨(Option.some.inj hrun).symm, h.not_touches_of_bitmap hp hm hlen hcode⟩

theorem Coded.pageFast_unprotected {len memIoPc : Nat} {x : Invalidated} (h : Coded c block Here)
    (hlen : start % 8 + len ≤ 8) (hrun : c.invalidatePhysPageFast start len memIoPc = some x)
    (hx : x.unprotected = true) : ∃ p, x.code.pages (start / 4096) = some p ∧ p.firstTb = [] := by
  rcases h.pageFast_cases hlen hrun with hrange | ⟨rfl, -⟩
  · exact pageRange_unprotected hrange hx
  · exact absurd hx Bool.false_ne_true

/-- No block has code on a page whose list is empty. -/
theorem Coded.not_touches_of_empty (h : Coded c block Here) (hp : c.pages k = some p)
    (hempty : p.firstTb = []) (hi : block i = some tb) :
    ¬tb.Touches (k * 4096) (k * 4096 + 4096) := by
  rintro ⟨j, hj, a, ha, hge, hlt⟩
  obtain ⟨n, hn⟩ := (h.tables.live i tb hi).2.2.byteAddr_page hj ha
  have hpage : a / 4096 = k := by omega
  have hmem := (h.tables.page _ p hp i n).2 ⟨tb, hi, hn.trans (congrArg some hpage)⟩
  rw [hempty] at hmem
  exact absurd hmem List.not_mem_nil

/-- The same of `tb_invalidate_phys_page_fast`. -/
theorem Coded.pageFast_modified {len memIoPc : Nat} {x : Invalidated} (h : Coded c block Here)
    (hpos : 0 < len) (hlen : start % 8 + len ≤ 8)
    (hrun : c.invalidatePhysPageFast start len memIoPc = some x) :
    x.modified = true ↔ ∃ i tb, c.currentTb (some memIoPc) = some i ∧ block i = some tb ∧
      tb.Touches start (start + len) ∧ tb.icount ≠ 1 := by
  rcases h.pageFast_cases hlen hrun with hrange | ⟨rfl, hnot⟩
  · have hmin : min (start + len) (start / 4096 * 4096 + 4096) = start + len := by omega
    have hmodified := h.pageRange_modified (Nat.lt_add_of_pos_right hpos) hrange
    rwa [hmin] at hmodified
  · refine iff_of_false Bool.false_ne_true ?_
    rintro ⟨i, tb, -, hi, htouches, -⟩
    exact hnot i tb hi htouches

/-- `tb_invalidate_phys_range` goes through the pages of the range. -/
theorem Coded.range (h : Coded c block Here) (start stop : Nat) :
    ∃ c' block', c.tbInvalidatePhysRange start stop = some c' ∧ Coded c' block' Here ∧ c.Same c' ∧
      ∀ j tb, block' j = some tb ↔ block j = some tb ∧ ¬tb.Touches start stop := by
  induction hlen : stop - start using Nat.strongRecOn generalizing c block start with
  | ind len ih =>
      rw [CodeGen.tbInvalidatePhysRange]
      by_cases hlt : start < stop
      · obtain ⟨r, block₁, hrun, h₁, hsame₁, hdrops₁⟩ := h.pageRange hlt none
        obtain ⟨c', block', hrest, h', hsame', hdrops'⟩ :=
          ih (stop - (start / 4096 * 4096 + 4096)) (by omega) h₁ (start / 4096 * 4096 + 4096) rfl
        refine ⟨c', block', ?_, h', hsame₁.trans hsame', fun j tb => ?_⟩
        · rw [dif_pos hlt]
          exact Option.bind_eq_some_iff.2 ⟨r, hrun, hrest⟩
        · have hsplit : tb.Touches start stop ↔
              tb.Touches start (min stop (start / 4096 * 4096 + 4096)) ∨
                tb.Touches (start / 4096 * 4096 + 4096) stop := by
            constructor
            · rintro ⟨k, hk, a, ha, hge, hlt⟩
              by_cases hon : a < start / 4096 * 4096 + 4096
              · exact Or.inl ⟨k, hk, a, ha, hge, by omega⟩
              · exact Or.inr ⟨k, hk, a, ha, by omega, hlt⟩
            · rintro (⟨k, hk, a, ha, hge, hlt⟩ | ⟨k, hk, a, ha, hge, hlt⟩)
              · exact ⟨k, hk, a, ha, hge, by omega⟩
              · exact ⟨k, hk, a, ha, by omega, hlt⟩
          rw [hdrops', hdrops₁, and_assoc, hsplit, not_or]
      · refine ⟨c, block, dif_neg hlt, h, CodeGen.Same.refl c, fun j tb => ?_⟩
        refine (and_iff_left ?_).symm
        rintro ⟨k, hk, a, ha, hge, hlt⟩
        omega

/-! ## Generation -/

/-- The buffer has its blocks one after another, and room for one more. -/
structure Buffer (room : Nat) (c : CodeGen) : Prop where
  blocks : 0 < c.codeGenMaxBlocks
  max : 0 < c.codeGenBufferMaxSize
  room : c.codeGenBufferMaxSize + room ≤ c.codeGenBufferSize
  ptr : c.codeGenBuffer ≤ c.codeGenPtr
  size : c.codeGenPtr ≤ c.codeGenBuffer + c.codeGenBufferSize
  empty : c.nbTbs = 0 → c.codeGenPtr = c.codeGenBuffer
  first : 0 < c.nbTbs → (c.tbs 0).tcPtr = c.codeGenBuffer
  sorted : ∀ i j, i < j → j < c.nbTbs → (c.tbs i).tcPtr < (c.tbs j).tcPtr
  last : ∀ i < c.nbTbs, (c.tbs i).tcPtr < c.codeGenPtr

theorem Buffer.same {room : Nat} (h : Buffer room c) (hsame : c.Same c') : Buffer room c' := by
  constructor
  · rw [hsame.maxBlocks]
    exact h.blocks
  · rw [hsame.maxSize]
    exact h.max
  · rw [hsame.maxSize, hsame.bufferSize]
    exact h.room
  · rw [hsame.buffer, hsame.ptr]
    exact h.ptr
  · rw [hsame.buffer, hsame.ptr, hsame.bufferSize]
    exact h.size
  · rw [hsame.nbTbs, hsame.buffer, hsame.ptr]
    exact h.empty
  · rw [hsame.nbTbs, hsame.buffer, hsame.tbs]
    exact h.first
  · rw [hsame.nbTbs, hsame.tbs]
    exact h.sorted
  · rw [hsame.nbTbs, hsame.ptr, hsame.tbs]
    exact h.last

/-- The host's program counter is in what was generated for the block. -/
def CodeGen.Holds (c : CodeGen) (i pc : Nat) : Prop :=
  i < c.nbTbs ∧ (c.tbs i).tcPtr ≤ pc ∧ pc < c.codeGenPtr ∧
    ∀ j < c.nbTbs, i < j → pc < (c.tbs j).tcPtr

/-- The blocks before `mMin` start at the address or before it, the blocks after `mMax` do not. -/
theorem findPcLoop_spec {pc : Nat}
    (hsorted : ∀ i j, i < j → j < c.nbTbs → (c.tbs i).tcPtr < (c.tbs j).tcPtr)
    (hsome : 0 < c.nbTbs) (hfirst : (c.tbs 0).tcPtr ≤ pc) (mMin mMax : Int) (hmin : 0 ≤ mMin)
    (hmax : mMax < c.nbTbs) (hle : mMin ≤ mMax + 1)
    (hbelow : ∀ i : Nat, (i : Int) < mMin → (c.tbs i).tcPtr ≤ pc)
    (habove : ∀ i : Nat, mMax < i → i < c.nbTbs → pc < (c.tbs i).tcPtr) :
    ∃ i < c.nbTbs, c.findPcLoop pc mMin mMax = i ∧ (c.tbs i).tcPtr ≤ pc ∧
      ∀ j < c.nbTbs, i < j → pc < (c.tbs j).tcPtr := by
  induction hlen : (mMax + 1 - mMin).toNat using Nat.strongRecOn generalizing mMin mMax with
  | ind len ih =>
      rw [CodeGen.findPcLoop]
      by_cases hmore : mMin ≤ mMax
      · obtain ⟨m, hm⟩ : ∃ m : Nat, (m : Int) = (mMin + mMax) / 2 :=
          ⟨((mMin + mMax) / 2).toNat, by omega⟩
        rw [dif_pos hmore]
        dsimp only
        rw [← hm, Int.toNat_natCast]
        by_cases hthis : (c.tbs m).tcPtr = pc
        · rw [if_pos hthis]
          exact ⟨m, by omega, rfl, Nat.le_of_eq hthis, fun j hj hmj => hthis ▸ hsorted m j hmj hj⟩
        · rw [if_neg hthis]
          by_cases hbefore : pc < (c.tbs m).tcPtr
          · rw [if_pos hbefore]
            refine ih _ ?_ mMin (m - 1) hmin (by omega) (by omega) hbelow (fun j hj hlt => ?_) rfl
            · omega
            · rcases Nat.lt_or_eq_of_le (show m ≤ j by omega) with hmj | rfl
              · exact Nat.lt_trans hbefore (hsorted m j hmj hlt)
              · exact hbefore
          · rw [if_neg hbefore]
            refine ih _ ?_ (m + 1) mMax (by omega) hmax (by omega) (fun j hj => ?_) habove rfl
            · omega
            · rcases Nat.lt_or_eq_of_le (show j ≤ m by omega) with hjm | rfl
              · have hlt := hsorted j m hjm (by omega)
                omega
              · exact Nat.le_of_not_lt hbefore
      · rw [dif_neg hmore]
        -- nothing is before the first block
        have hnonneg : 0 ≤ mMax := by
          refine Classical.byContradiction fun hneg => ?_
          have hlt := habove 0 (by omega) hsome
          omega
        exact ⟨mMax.toNat, by omega, rfl, hbelow _ (by omega),
          fun j hj hlt => habove j (by omega) hj⟩

/-- `tb_find_pc` -/
theorem Buffer.findPc {room pc : Nat} (h : Buffer room c) (hfrom : c.codeGenBuffer ≤ pc)
    (hto : pc < c.codeGenPtr) : ∃ i, c.tbFindPc pc = some i ∧ c.Holds i pc := by
  have hsome : 0 < c.nbTbs := by
    refine Nat.pos_of_ne_zero fun hzero => ?_
    have hempty := h.empty hzero
    omega
  have hfirst : (c.tbs 0).tcPtr ≤ pc := by
    rw [h.first hsome]
    exact hfrom
  obtain ⟨i, hi, hrun, hle, hafter⟩ := findPcLoop_spec h.sorted hsome hfirst 0 (c.nbTbs - 1)
    (by omega) (by omega) (by omega) (fun j hj => absurd hj (by omega))
    (fun j hj hlt => absurd hj (by omega))
  refine ⟨i, ?_, hi, hle, hto, hafter⟩
  rw [CodeGen.tbFindPc, if_neg (Nat.ne_of_gt hsome), if_neg (by omega), hrun]

theorem CodeGen.Holds.unique {pc : Nat} (hi : c.Holds i pc) (hj : c.Holds j pc) : i = j := by
  obtain ⟨hi, hfrom, -, hnext⟩ := hi
  obtain ⟨hj, hfrom', -, hnext'⟩ := hj
  rcases Nat.lt_trichotomy i j with hlt | heq | hgt
  · have hafter := hnext j hj hlt
    omega
  · exact heq
  · have hafter := hnext' i hi hgt
    omega

theorem Buffer.le_tcPtr {room : Nat} (h : Buffer room c) (hi : i < c.nbTbs) :
    c.codeGenBuffer ≤ (c.tbs i).tcPtr := by
  rw [← h.first (Nat.zero_lt_of_lt hi)]
  rcases Nat.eq_zero_or_pos i with rfl | hpos
  · exact Nat.le_refl _
  · exact Nat.le_of_lt (h.sorted 0 i hpos hi)

theorem Buffer.findPc_eq {room pc : Nat} (h : Buffer room c) (hpc : c.Holds i pc) :
    c.tbFindPc pc = some i := by
  obtain ⟨j, hrun, hj⟩ := h.findPc (Nat.le_trans (h.le_tcPtr hpc.1) hpc.2.1) hpc.2.2.1
  rw [hrun, hj.unique hpc]

theorem Buffer.currentTb_eq {room pc : Nat} (h : Buffer room c) (hpc : c.Holds i pc)
    (hzero : pc ≠ 0) : c.currentTb (some pc) = some i :=
  (if_pos hzero).trans (h.findPc_eq hpc)

/-- After `tb_flush` there is nothing. -/
theorem Buffer.flush {room : Nat} (hbuffer : Buffer room c) (Here : TranslationBlock → Prop) :
    ∃ c', c.tbFlush = some c' ∧ Coded c' (fun _ => none) Here ∧ Buffer room c' ∧ c'.nbTbs = 0 := by
  have hsize := hbuffer.size
  refine ⟨_, if_neg (by omega), ⟨?_, ⟨fun _ => [], ?_⟩, ?_⟩, ?_, rfl⟩
  · constructor
    · exact fun i tb hi => absurd hi (by simp)
    · exact fun _ => List.nodup_nil
    · exact fun b i => iff_of_false List.not_mem_nil (by simp)
    · exact fun k hk i tb n hi => absurd hi (by simp)
    · intro k p' hp'
      obtain ⟨p, hp, rfl⟩ := Option.map_eq_some_iff.1 hp'
      exact List.nodup_nil
    · intro k p' hp' i n
      obtain ⟨p, hp, rfl⟩ := Option.map_eq_some_iff.1 hp'
      exact iff_of_false List.not_mem_nil (by simp)
    · intro k p' m hp' hm
      obtain ⟨p, hp, rfl⟩ := Option.map_eq_some_iff.1 hp'
      cases hm
  · simpa using Chained.nil c.jumps fun _ => []
  · exact fun b i hi => absurd hi (by simp)
  · exact ⟨hbuffer.blocks, hbuffer.max, hbuffer.room, Nat.le_refl _, Nat.le_add_right _ _,
      fun _ => rfl, fun hc => absurd hc (Nat.lt_irrefl 0),
      fun i j _ hj => absurd hj (Nat.not_lt_zero j), fun i hi => absurd hi (Nat.not_lt_zero i)⟩

theorem toNat_page (x : BitVec 64) : (x &&& ~~~4095#64).toNat = x.toNat / 4096 * 4096 :=
  toNat_and_not_low x 12

/-- Code that does not fit on its page goes on at the start of the next one. -/
theorem virtPage2_spec (pc : BitVec 64) {size : Nat} (hpos : 0 < size) (hsize : size ≤ 4096) :
    (virtPage2 pc size = none → pc.toNat % 4096 + size ≤ 4096) ∧
      ∀ virt ∈ virtPage2 pc size, virt = (pc &&& ~~~4095#64) + 4096 ∧
        4096 < pc.toNat % 4096 + size := by
  have hend : (pc + BitVec.ofNat 64 size - 1).toNat = (pc.toNat + (size - 1)) % 2 ^ 64 := by
    rw [BitVec.toNat_sub, BitVec.toNat_add, BitVec.toNat_ofNat]
    have hone : (1 : BitVec 64).toNat = 1 := rfl
    rw [hone]
    omega
  have hpc := pc.isLt
  have hvirt := toNat_page (pc + BitVec.ofNat 64 size - 1)
  rw [hend] at hvirt
  have hpage := toNat_page pc
  unfold virtPage2
  dsimp only
  by_cases hcross : pc.toNat % 4096 + size ≤ 4096
  · have heq : pc &&& ~~~4095#64 = (pc + BitVec.ofNat 64 size - 1) &&& ~~~4095#64 := by
      refine BitVec.eq_of_toNat_eq ?_
      rw [hvirt, hpage]
      omega
    rw [if_neg (not_not_intro heq)]
    exact ⟨fun _ => hcross, fun virt hv => absurd hv (by simp)⟩
  · have hne : pc &&& ~~~4095#64 ≠ (pc + BitVec.ofNat 64 size - 1) &&& ~~~4095#64 := by
      intro heq
      have hnat := congrArg BitVec.toNat heq
      rw [hvirt, hpage] at hnat
      omega
    rw [if_pos hne]
    refine ⟨fun hc => absurd hc (by simp), fun virt hv => ⟨?_, by omega⟩⟩
    obtain rfl := Option.mem_some_iff.1 hv
    refine BitVec.eq_of_toNat_eq ?_
    rw [hvirt, BitVec.toNat_add, hpage, show (4096 : BitVec 64).toNat = 4096 from rfl]
    omega

/-- `tb_alloc_page` puts the block first on the list of a page. -/
theorem tbAllocPage_spec (c : CodeGen) (i : Nat) (n : Fin 2) (pageAddr : Nat) :
    ∃ pages, (c.tbAllocPage i n pageAddr).1 = { c with pages := pages } ∧
      (∀ k ≠ pageAddr / 4096, pages k = c.pages k ∨ c.pages k = none ∧ pages k = some .empty) ∧
      ∃ p', pages (pageAddr / 4096) = some p' ∧ p'.codeBitmap = none ∧
        p'.firstTb = (i, n) :: ((c.pages (pageAddr / 4096)).getD .empty).firstTb := by
  refine ⟨_, rfl, fun k hk => ?_, ?_⟩
  · dsimp only [CodeGen.pageFindAlloc]
    rw [Function.update_of_ne hk]
    by_cases hleaf : k / 1024 = pageAddr / 4096 / 1024
    · rw [if_pos hleaf]
      cases hp : c.pages k with
      | none => exact Or.inr ⟨rfl, rfl⟩
      | some p => exact Or.inl rfl
    · rw [if_neg hleaf]
      exact Or.inl rfl
  · refine ⟨_, Function.update_self .., rfl, ?_⟩
    simp [CodeGen.pageFindAlloc, PageDesc.invalidateBitmap]

/-- `tb_link_page` puts the block first on the lists of its pages. -/
theorem tbLinkPage_spec (htb : c.tbs i = tb) (hproper : tb.Proper) :
    ∃ pages, (c.tbLinkPage i).1 = { c with
        tbPhysHash := Function.update c.tbPhysHash (tbPhysHashFunc tb.physPc)
          (i :: c.tbPhysHash (tbPhysHashFunc tb.physPc))
        jumps := c.jumps.tbInit i
        pages := pages } ∧
      (∀ k, (∀ n, tb.page n ≠ some k) → pages k = c.pages k ∨
        c.pages k = none ∧ pages k = some .empty) ∧
      ∀ k n, tb.page n = some k → ∃ p', pages k = some p' ∧ p'.codeBitmap = none ∧
        p'.firstTb = (i, n) :: ((c.pages k).getD .empty).firstTb := by
  unfold CodeGen.tbLinkPage
  dsimp only
  rw [htb]
  obtain ⟨pages, hfirst, hoff, p', hp', hnone, hlist⟩ := tbAllocPage_spec { c with
    tbPhysHash := Function.update c.tbPhysHash (tbPhysHashFunc tb.physPc)
      (i :: c.tbPhysHash (tbPhysHashFunc tb.physPc))
    jumps := c.jumps.tbInit i } i 0 tb.pageAddr0
  cases hq : tb.pageAddr1 with
  | none =>
      refine ⟨pages, hfirst, fun k hk => hoff k fun heq => hk 0 (congrArg some heq.symm),
        fun k n hn => ?_⟩
      match n with
      | 0 =>
          obtain rfl := Option.some.inj hn
          exact ⟨p', hp', hnone, hlist⟩
      | 1 => simp [TranslationBlock.page, hq] at hn
  | some q =>
      have hone : tb.page 1 = some (q / 4096) := by simp [TranslationBlock.page, hq]
      have hne : q / 4096 ≠ tb.pageAddr0 / 4096 := fun heq =>
        absurd (hproper.page_inj (hone.trans (congrArg some heq)) (m := 0) rfl) (by decide)
      obtain ⟨pages₂, hsecond, hoff₂, p₂, hp₂, hnone₂, hlist₂⟩ := tbAllocPage_spec { c with
        tbPhysHash := Function.update c.tbPhysHash (tbPhysHashFunc tb.physPc)
          (i :: c.tbPhysHash (tbPhysHashFunc tb.physPc))
        jumps := c.jumps.tbInit i
        pages := pages } i 1 q
      refine ⟨pages₂, ?_, fun k hk => ?_, fun k n hn => ?_⟩
      · dsimp only
        rw [hfirst]
        exact hsecond
      · have hk₁ := hoff k fun heq => hk 0 (congrArg some heq.symm)
        have hk₂ := hoff₂ k fun heq => hk 1 (hone.trans (congrArg some heq.symm))
        dsimp only at hk₁ hk₂
        rcases hk₂ with heq | ⟨hno, hempty⟩
        · rw [heq]
          exact hk₁
        · rcases hk₁ with heq | ⟨hno', hempty'⟩
          · exact Or.inr ⟨heq ▸ hno, hempty⟩
          · rw [hempty'] at hno
            cases hno
      · match n with
        | 0 =>
            obtain rfl := Option.some.inj hn
            refine ⟨p', ?_, hnone, hlist⟩
            have hk₂ := hoff₂ _ hne.symm
            dsimp only at hk₂
            rcases hk₂ with heq | ⟨hno, -⟩
            · exact heq.trans hp'
            · rw [hp'] at hno
              cases hno
        | 1 =>
            obtain rfl := Option.some.inj (hone.symm.trans hn)
            refine ⟨p₂, hp₂, hnone₂, ?_⟩
            rw [hlist₂]
            have hk₁ := hoff _ hne
            dsimp only at hk₁ ⊢
            rcases hk₁ with heq | ⟨hno, hempty⟩
            · rw [heq]
            · rw [hno, hempty]
              rfl

/-- The tables with another block. -/
theorem Tables.added (h : Tables c block) (hproper : tb.Proper) (hnb : c'.nbTbs = c.nbTbs + 1)
    (htbs : c'.tbs = Function.update c.tbs c.nbTbs tb)
    (hhash : c'.tbPhysHash = Function.update c.tbPhysHash (tbPhysHashFunc tb.physPc)
      (c.nbTbs :: c.tbPhysHash (tbPhysHashFunc tb.physPc)))
    (hoff : ∀ k, (∀ n, tb.page n ≠ some k) → c'.pages k = c.pages k ∨
      c.pages k = none ∧ c'.pages k = some .empty)
    (hon : ∀ k n, tb.page n = some k → ∃ p', c'.pages k = some p' ∧ p'.codeBitmap = none ∧
      p'.firstTb = (c.nbTbs, n) :: ((c.pages k).getD .empty).firstTb) :
    Tables c' (Function.update block c.nbTbs (some tb)) := by
  have hfresh : ∀ j tb', block j = some tb' → j ≠ c.nbTbs := fun j tb' hj =>
    Nat.ne_of_lt (h.live j tb' hj).1
  have hblock : ∀ j tb', Function.update block c.nbTbs (some tb) j = some tb' ↔
      j = c.nbTbs ∧ tb' = tb ∨ block j = some tb' := by
    intro j tb'
    by_cases hj : j = c.nbTbs
    · subst hj
      rw [Function.update_self, Option.some.injEq]
      constructor
      · exact fun heq => Or.inl ⟨rfl, heq.symm⟩
      · rintro (⟨-, heq⟩ | hold)
        · exact heq.symm
        · exact absurd rfl (hfresh _ _ hold)
    · rw [Function.update_of_ne hj]
      exact (or_iff_right fun hc => hj hc.1).symm
  have hkept : ∀ j tb', block j = some tb' → c'.tbs j = c.tbs j := fun j tb' hj => by
    rw [htbs, Function.update_of_ne (hfresh j tb' hj)]
  -- the list of a page, with the new block in front where it belongs
  have hlist : ∀ k p', c'.pages k = some p' → (p'.firstTb.map Prod.fst).Nodup ∧
      (∀ j n, (j, n) ∈ p'.firstTb ↔ j = c.nbTbs ∧ tb.page n = some k ∨
        ∃ tb', block j = some tb' ∧ tb'.page n = some k) ∧
      (p'.codeBitmap = none ∨ c.pages k = some p') := by
    intro k p' hp'
    have hold : ∀ j n, (j, n) ∈ ((c.pages k).getD .empty).firstTb ↔
        ∃ tb', block j = some tb' ∧ tb'.page n = some k := by
      intro j n
      cases hp : c.pages k with
      | none =>
          refine iff_of_false List.not_mem_nil ?_
          rintro ⟨tb', hj, hn⟩
          exact h.noPage k hp j tb' n hj hn
      | some p => exact h.page k p hp j n
    have hnodup : (((c.pages k).getD .empty).firstTb.map Prod.fst).Nodup := by
      cases hp : c.pages k with
      | none => exact List.nodup_nil
      | some p => exact h.pageNodup k p hp
    by_cases hk : ∃ n, tb.page n = some k
    · obtain ⟨n, hn⟩ := hk
      obtain ⟨q, hq, hnone, hfirst⟩ := hon k n hn
      obtain rfl := Option.some.inj (hq.symm.trans hp')
      refine ⟨?_, fun j m => ?_, Or.inl hnone⟩
      · rw [hfirst, List.map_cons, List.nodup_cons]
        refine ⟨fun hmem => ?_, hnodup⟩
        obtain ⟨x, hx, heq⟩ := List.mem_map.1 hmem
        obtain ⟨tb', hj, -⟩ := (hold x.1 x.2).1 hx
        exact hfresh _ _ hj heq
      · rw [hfirst, List.mem_cons, hold, Prod.mk.injEq]
        refine or_congr_left (and_congr_right fun _ => ?_)
        exact ⟨fun heq => heq ▸ hn, fun hm => hproper.page_inj hm hn⟩
    · have hnever : ∀ n, tb.page n ≠ some k := fun n hn => hk ⟨n, hn⟩
      have hsame : p' = (c.pages k).getD .empty ∧ (p'.codeBitmap = none ∨ c.pages k = some p') := by
        rcases hoff k hnever with heq | ⟨hno, hempty⟩
        · rw [heq] at hp'
          rw [hp']
          exact ⟨rfl, Or.inr rfl⟩
        · rw [hempty, Option.some.injEq] at hp'
          rw [hno, ← hp']
          exact ⟨rfl, Or.inl rfl⟩
      refine ⟨hsame.1 ▸ hnodup, fun j n => ?_, hsame.2⟩
      rw [hsame.1, hold]
      exact (or_iff_right fun hc => hnever n hc.2).symm
  constructor
  · intro j tb' hj
    rcases (hblock j tb').1 hj with ⟨rfl, rfl⟩ | hold
    · rw [hnb, htbs, Function.update_self]
      exact ⟨Nat.lt_succ_self _, rfl, hproper⟩
    · obtain ⟨hlt, heq, hproper'⟩ := h.live j tb' hold
      rw [hnb, hkept j tb' hold]
      exact ⟨Nat.lt_succ_of_lt hlt, heq, hproper'⟩
  · intro b
    rw [hhash]
    by_cases hb : b = tbPhysHashFunc tb.physPc
    · subst hb
      rw [Function.update_self]
      refine List.nodup_cons.2 ⟨fun hmem => ?_, h.nodup _⟩
      obtain ⟨tb', hj, -⟩ := (h.hash _ _).1 hmem
      exact hfresh _ _ hj rfl
    · rw [Function.update_of_ne hb]
      exact h.nodup b
  · intro b j
    simp only [hblock]
    rw [hhash]
    by_cases hb : b = tbPhysHashFunc tb.physPc
    · subst hb
      rw [Function.update_self, List.mem_cons, h.hash]
      constructor
      · rintro (rfl | ⟨tb', hj, hfun⟩)
        · exact ⟨tb, Or.inl ⟨rfl, rfl⟩, rfl⟩
        · exact ⟨tb', Or.inr hj, hfun⟩
      · rintro ⟨tb', ⟨rfl, rfl⟩ | hj, hfun⟩
        · exact Or.inl rfl
        · exact Or.inr ⟨tb', hj, hfun⟩
    · rw [Function.update_of_ne hb, h.hash]
      constructor
      · rintro ⟨tb', hj, hfun⟩
        exact ⟨tb', Or.inr hj, hfun⟩
      · rintro ⟨tb', ⟨rfl, rfl⟩ | hj, hfun⟩
        · exact absurd hfun.symm hb
        · exact ⟨tb', hj, hfun⟩
  · intro k hk j tb' n hj hn
    rcases (hblock j tb').1 hj with ⟨rfl, rfl⟩ | hold
    · obtain ⟨p', hp', -⟩ := hon k n hn
      rw [hk] at hp'
      cases hp'
    · obtain ⟨p, hp, -⟩ := h.page_some hold hn
      by_cases hon' : ∃ m, tb.page m = some k
      · obtain ⟨m, hm⟩ := hon'
        obtain ⟨p', hp', -⟩ := hon k m hm
        rw [hk] at hp'
        cases hp'
      · rcases hoff k fun m hm => hon' ⟨m, hm⟩ with heq | ⟨hno, -⟩
        · rw [heq, hp] at hk
          cases hk
        · rw [hp] at hno
          cases hno
  · intro k p' hp'
    exact (hlist k p' hp').1
  · intro k p' hp' j n
    rw [(hlist k p' hp').2.1]
    simp only [hblock]
    constructor
    · rintro (⟨rfl, hn⟩ | ⟨tb', hj, hn⟩)
      · exact ⟨tb, Or.inl ⟨rfl, rfl⟩, hn⟩
      · exact ⟨tb', Or.inr hj, hn⟩
    · rintro ⟨tb', ⟨rfl, rfl⟩ | hj, hn⟩
      · exact Or.inl ⟨rfl, hn⟩
      · exact Or.inr ⟨tb', hj, hn⟩
  · intro k p' m hp' hm x hx
    rcases (hlist k p' hp').2.2 with hnone | hp
    · rw [hnone] at hm
      cases hm
    · rw [h.bitmap k p' m hp hm x hx]
      refine exists_congr fun b => and_congr_right fun hb => ?_
      obtain ⟨tb', hj, -⟩ := (h.page k p' hp b.1 b.2).1 hb
      rw [hkept b.1 tb' hj]

theorem isSome_update_some (block : Nat → Option TranslationBlock) (i : Nat)
    (tb : TranslationBlock) :
    (fun j => ((Function.update block i (some tb) j).isSome : Prop)) =
      fun j => ((block j).isSome : Prop) ∨ j = i := by
  funext j
  by_cases hj : j = i
  · subst hj
    rw [Function.update_self]
    simp
  · rw [Function.update_of_ne hj]
    simp [hj]

/-- The block that `tb_gen_code` makes. -/
def generated (key : CodeKey) (getPageAddrCode : BitVec 64 → Nat) (gen : Generated) (tcPtr : Nat) :
    TranslationBlock where
  pc := key.pc
  csBase := key.csBase
  flags := key.flags
  size := gen.size
  icount := gen.icount
  tcPtr := tcPtr
  pageAddr0 := getPageAddrCode key.pc / 4096 * 4096
  pageAddr1 := (virtPage2 key.pc gen.size).map getPageAddrCode

variable {key : CodeKey} {gen : Generated} {mapping : CodeMapping} {room : Nat} {s : Translations}

theorem generated_pageAddr0 (tcPtr : Nat) :
    (generated key mapping.codeAddr gen tcPtr).pageAddr0 = mapping (key.pc >>> 12) * 4096 := by
  have hlt := Nat.mod_lt key.pc.toNat (show 0 < 4096 by decide)
  show mapping.codeAddr key.pc / 4096 * 4096 = mapping (key.pc >>> 12) * 4096
  unfold CodeMapping.codeAddr
  omega

theorem generated_for (key : CodeKey) (mapping : CodeMapping) (hpos : 0 < gen.size)
    (hsize : gen.size ≤ 4096) (tcPtr : Nat) :
    (generated key mapping.codeAddr gen tcPtr).For key mapping := by
  refine ⟨rfl, rfl, rfl, generated_pageAddr0 tcPtr, fun page hpage => ?_⟩
  obtain ⟨virt, hvirt, rfl⟩ := Option.map_eq_some_iff.1 hpage
  exact congrArg mapping.codeAddr ((virtPage2_spec key.pc hpos hsize).2 virt hvirt).1

theorem generated_proper (h : s.Translates room key gen) (hmapping : s.mapping = mapping)
    (tcPtr : Nat) : (generated key mapping.codeAddr gen tcPtr).Proper := by
  obtain ⟨hpos, hsize, -, -, hother⟩ := h
  obtain ⟨hone, htwo⟩ := virtPage2_spec key.pc hpos hsize
  refine ⟨hpos, hsize, Nat.mul_mod_left _ _, fun hnone => hone (Option.map_eq_none_iff.1 hnone),
    fun page hpage => ?_⟩
  obtain ⟨virt, hvirt, rfl⟩ := Option.map_eq_some_iff.1 hpage
  obtain ⟨heq, hlong⟩ := htwo virt hvirt
  have hstart : virt.toNat % 4096 = 0 := by
    have hpage := toNat_page key.pc
    rw [heq, BitVec.toNat_add, hpage, show (4096 : BitVec 64).toNat = 4096 from rfl]
    omega
  have hne := hother virt hvirt
  rw [hmapping] at hne
  refine ⟨?_, ?_, hlong⟩
  · unfold CodeMapping.codeAddr
    omega
  · rw [generated_pageAddr0]
    unfold CodeMapping.codeAddr
    omega

/-- The block has been made, and is on no list yet. -/
def CodeGen.placed (c : CodeGen) (tb : TranslationBlock) (codeSize : Nat) : CodeGen :=
  { c with
    nbTbs := c.nbTbs + 1
    tbs := Function.update c.tbs c.nbTbs tb
    codeGenPtr := (c.codeGenPtr + codeSize + 15) / 16 * 16 }

/-- A new block in the room that there is. -/
theorem Coded.make (h : Coded c block Here) (hbuffer : Buffer room c)
    (hmax : c.codeGenPtr - c.codeGenBuffer < c.codeGenBufferMaxSize)
    (htranslates : s.Translates room key gen) (hmapping : s.mapping = mapping)
    (hc : c' = ((c.placed (generated key mapping.codeAddr gen c.codeGenPtr)
      gen.codeSize).tbLinkPage c.nbTbs).1) :
    Coded c' (Function.update block c.nbTbs
        (some (generated key mapping.codeAddr gen c.codeGenPtr))) Here ∧
      Buffer room c' ∧ c'.nbTbs = c.nbTbs + 1 := by
  have hproper := generated_proper htranslates hmapping c.codeGenPtr
  obtain ⟨-, -, hcode, hroom, -⟩ := htranslates
  obtain ⟨pages, hlink, hoff, hon⟩ := tbLinkPage_spec
    (c := c.placed (generated key mapping.codeAddr gen c.codeGenPtr) gen.codeSize) (i := c.nbTbs)
    (Function.update_self ..) hproper
  rw [hlink] at hc
  unfold CodeGen.placed at hc
  subst hc
  obtain ⟨lists, hchained⟩ := h.chained
  refine ⟨⟨?_, ⟨Function.update lists c.nbTbs [], ?_⟩, ?_⟩, ?_, rfl⟩
  · exact h.tables.added hproper rfl rfl rfl hoff hon
  · rw [isSome_update_some]
    exact hchained.init
  · intro b j hj
    obtain ⟨tb, hlive, hfun, hhere⟩ := h.cache b j hj
    have hne : j ≠ c.nbTbs := Nat.ne_of_lt (h.tables.live j tb hlive).1
    exact ⟨tb, (Function.update_of_ne hne ..).trans hlive, hfun, hhere⟩
  · have hptr := hbuffer.ptr
    have hfit := hbuffer.room
    have htbs : ∀ i < c.nbTbs, Function.update c.tbs c.nbTbs
        (generated key mapping.codeAddr gen c.codeGenPtr) i = c.tbs i := fun i hi =>
      Function.update_of_ne (Nat.ne_of_lt hi) ..
    constructor
    · exact hbuffer.blocks
    · exact hbuffer.max
    · exact hbuffer.room
    · dsimp only
      omega
    · dsimp only
      omega
    · exact fun hc => absurd hc (Nat.succ_ne_zero _)
    · intro _
      by_cases hzero : c.nbTbs = 0
      · dsimp only
        rw [hzero, Function.update_self]
        exact hbuffer.empty hzero
      · exact (congrArg _ (htbs 0 (Nat.pos_of_ne_zero hzero))).trans
          (hbuffer.first (Nat.pos_of_ne_zero hzero))
    · intro i j hij hj
      dsimp only at hj ⊢
      rw [htbs i (by omega)]
      by_cases hlast : j = c.nbTbs
      · subst hlast
        rw [Function.update_self]
        exact hbuffer.last i hij
      · rw [htbs j (by omega)]
        exact hbuffer.sorted i j hij (by omega)
    · intro i hi
      dsimp only at hi ⊢
      by_cases hlast : i = c.nbTbs
      · subst hlast
        rw [Function.update_self]
        show c.codeGenPtr < _
        omega
      · rw [htbs i (by omega)]
        have hlt := hbuffer.last i (by omega)
        omega

/-- `tb_gen_code` makes a block, after a flush if there is no room. -/
theorem Coded.generate (h : Coded c block Here) (hbuffer : Buffer room c)
    (htranslates : s.Translates room key gen) (hmapping : s.mapping = mapping) :
    ∃ i c' pages block₀ tb, c.tbGenCode key mapping.codeAddr gen = some (i, c', pages) ∧
      (block₀ = block ∧ i = c.nbTbs ∨ block₀ = (fun _ => none) ∧ i = 0) ∧
      Coded c' (Function.update block₀ i (some tb)) Here ∧ Buffer room c' ∧ c'.nbTbs = i + 1 ∧
      tb.For key mapping ∧ tb.size = gen.size := by
  have hfor := generated_for key mapping htranslates.1 htranslates.2.1
  by_cases halloc : c.nbTbs ≥ c.codeGenMaxBlocks ∨
      c.codeGenPtr - c.codeGenBuffer ≥ c.codeGenBufferMaxSize
  · obtain ⟨c₀, hflush, h₀, hbuffer₀, hzero⟩ := hbuffer.flush Here
    have hblocks := hbuffer₀.blocks
    have hmax := hbuffer₀.max
    have hempty := hbuffer₀.empty hzero
    have hroom : ¬(c₀.nbTbs ≥ c₀.codeGenMaxBlocks ∨
        c₀.codeGenPtr - c₀.codeGenBuffer ≥ c₀.codeGenBufferMaxSize) := by omega
    obtain ⟨h', hbuffer', hnb⟩ := h₀.make hbuffer₀ (by omega) htranslates hmapping rfl
    refine ⟨c₀.nbTbs, _, ((c₀.placed (generated key mapping.codeAddr gen c₀.codeGenPtr)
      gen.codeSize).tbLinkPage c₀.nbTbs).2, _, _, ?_, Or.inr ⟨rfl, hzero⟩, h', hbuffer', hnb,
      hfor _, rfl⟩
    rw [CodeGen.tbGenCode, CodeGen.tbAllocOrFlush, CodeGen.tbAlloc, if_pos halloc, hflush]
    simp only [Option.bind_some, CodeGen.tbAlloc, if_neg hroom]
    rfl
  · obtain ⟨h', hbuffer', hnb⟩ := h.make hbuffer (by omega) htranslates hmapping rfl
    refine ⟨c.nbTbs, _, ((c.placed (generated key mapping.codeAddr gen c.codeGenPtr)
      gen.codeSize).tbLinkPage c.nbTbs).2, _, _, ?_, Or.inl ⟨rfl, rfl⟩, h', hbuffer', hnb,
      hfor _, rfl⟩
    rw [CodeGen.tbGenCode, CodeGen.tbAllocOrFlush, CodeGen.tbAlloc, if_neg halloc]
    rfl

end Vin64.Vx64
