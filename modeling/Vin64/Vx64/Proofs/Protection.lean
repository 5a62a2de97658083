import Vin64.Vx64.Proofs.Translations

/-!
# Pages of translated code are protected

A store to a page goes by the tables only while the page is protected.  `tb_alloc_page` protects a
page with its first block and relies on it for the others; a page that loses its last block by a
store is not protected any more.
-/

namespace Vin64.Vx64

variable {c c' : CodeGen} {i k room start stop : Nat} {tb : TranslationBlock} {key : CodeKey}
  {gen : Generated} {mapping : CodeMapping} {r r' r₀ : CodeRun} {s s' s₀ : Translations}
  {watched : Nat → Bool}

theorem WatchedReaches.codeReaches (h : WatchedReaches room r₀ s₀ r s watched) :
    CodeReaches room r₀ s₀ r s := by
  induction h with
  | start => exact .start
  | call call _ hadmits hrun hstep hblocks ih => exact ih.call call hadmits hrun hstep hblocks

/-! ## Pages with blocks -/

/-- Some block is on the list of the page. -/
def CodeGen.Busy (c : CodeGen) (k : Nat) : Prop := ∃ p, c.pages k = some p ∧ p.firstTb ≠ []

theorem busy_of_pageRemove {pageAddr : Nat} (h : c.tbPageRemove pageAddr i = some c')
    (hk : c'.Busy k) : c.Busy k := by
  obtain ⟨p, hp, hrest⟩ := Option.bind_eq_some_iff.1 h
  dsimp only at hrest
  by_cases hmem : p.firstTb.any (·.1 = i)
  · rw [if_pos hmem] at hrest
    obtain rfl := Option.some.inj hrest
    obtain ⟨p', hp', hne⟩ := hk
    dsimp only at hp'
    by_cases heq : k = pageAddr / 4096
    · subst heq
      rw [Function.update_self, Option.some.injEq] at hp'
      refine ⟨p, hp, fun hempty => hne ?_⟩
      rw [← hp']
      show p.firstTb.eraseP _ = []
      rw [hempty]
      rfl
    · rw [Function.update_of_ne heq] at hp'
      exact ⟨p', hp', hne⟩
  · rw [if_neg hmem] at hrest
    cases hrest

theorem busy_of_physInvalidate (h : c.tbPhysInvalidate i = some c') (hk : c'.Busy k) :
    c.Busy k := by
  obtain ⟨bucket, -, h⟩ := Option.bind_eq_some_iff.1 h
  obtain ⟨c₁, hfirst, h⟩ := Option.bind_eq_some_iff.1 h
  obtain ⟨c₂, hsecond, h⟩ := Option.bind_eq_some_iff.1 h
  obtain ⟨jumps, -, h⟩ := Option.bind_eq_some_iff.1 h
  obtain rfl := Option.some.inj h
  have hone : c₁.Busy k := by
    unfold CodeGen.removeSecond at hsecond
    cases hq : (c.tbs i).pageAddr1 with
    | none =>
        rw [hq] at hsecond
        obtain rfl := Option.some.inj hsecond
        exact hk
    | some q =>
        rw [hq] at hsecond
        exact busy_of_pageRemove hsecond hk
  have hkept := busy_of_pageRemove hfirst hone
  exact hkept

theorem busy_of_invalidateLoop {l : List (Nat × Fin 2)} {current : Option Nat}
    {modified modified' : Bool}
    (h : CodeGen.invalidateLoop start stop l c current modified = some (c', modified'))
    (hk : c'.Busy k) : c.Busy k := by
  induction l generalizing c current modified with
  | nil =>
      obtain ⟨rfl, -⟩ := Prod.mk.inj (Option.some.inj h)
      exact hk
  | cons x l ih =>
      obtain ⟨i, n⟩ := x
      rw [CodeGen.invalidateLoop] at h
      split at h
      · split at h
        · obtain ⟨c₁, hone, hrest⟩ := Option.bind_eq_some_iff.1 h
          exact busy_of_physInvalidate hone (ih hrest)
        · obtain ⟨c₁, hone, hrest⟩ := Option.bind_eq_some_iff.1 h
          exact busy_of_physInvalidate hone (ih hrest)
      · exact ih h

/-- A write leaves no block on a page where there was none, nor on one that it unprotects. -/
theorem busy_of_pageRange {memIoPc : Option Nat} {x : Invalidated}
    (h : c.invalidatePhysPage start stop memIoPc = some x) (hk : x.code.Busy k) :
    c.Busy k ∧ (x.unprotected = true → k ≠ start / 4096) := by
  refine ⟨?_, fun hx heq => ?_⟩
  · unfold CodeGen.invalidatePhysPage at h
    cases hp : c.pages (start / 4096) with
    | none =>
        rw [hp] at h
        obtain rfl := Option.some.inj h
        exact hk
    | some p =>
        rw [hp] at h
        obtain ⟨⟨c₁, modified⟩, hloop, hrest⟩ := Option.bind_eq_some_iff.1 h
        obtain ⟨p', hp', hend⟩ := Option.bind_eq_some_iff.1 hrest
        have hone : c₁.Busy k := by
          dsimp only at hend
          by_cases hempty : p'.firstTb = []
          · rw [if_pos hempty, Option.some.injEq] at hend
            subst hend
            obtain ⟨q, hq, hne⟩ := hk
            dsimp only at hq
            by_cases heq : k = start / 4096
            · subst heq
              rw [Function.update_self, Option.some.injEq] at hq
              exact absurd (hq ▸ hempty) hne
            · rw [Function.update_of_ne heq] at hq
              exact ⟨q, hq, hne⟩
          · rw [if_neg hempty, Option.some.injEq] at hend
            subst hend
            exact hk
        obtain ⟨q, hq, hne⟩ := busy_of_invalidateLoop hloop hone
        dsimp only at hq
        by_cases heq : k = start / 4096
        · subst heq
          rw [Function.update_self, Option.some.injEq] at hq
          refine ⟨p, hp, ?_⟩
          rw [← (countWrite_spec p c.tbs memIoPc.isSome).1, hq]
          exact hne
        · rw [Function.update_of_ne heq] at hq
          exact ⟨q, hq, hne⟩
  · obtain ⟨p, hp, hempty⟩ := pageRange_unprotected h hx
    obtain ⟨q, hq, hne⟩ := hk
    rw [heq, hp, Option.some.injEq] at hq
    exact hne (hq ▸ hempty)

theorem busy_of_pageFast {len memIoPc : Nat} {x : Invalidated}
    (h : c.invalidatePhysPageFast start len memIoPc = some x) (hk : x.code.Busy k) :
    c.Busy k ∧ (x.unprotected = true → k ≠ start / 4096) := by
  unfold CodeGen.invalidatePhysPageFast at h
  split at h
  · obtain rfl := Option.some.inj h
    exact ⟨hk, fun hx => absurd hx Bool.false_ne_true⟩
  · split at h
    · split at h
      · exact busy_of_pageRange h hk
      · obtain rfl := Option.some.inj h
        exact ⟨hk, fun hx => absurd hx Bool.false_ne_true⟩
    · exact busy_of_pageRange h hk

theorem busy_of_range (h : c.tbInvalidatePhysRange start stop = some c') (hk : c'.Busy k) :
    c.Busy k := by
  induction hlen : stop - start using Nat.strongRecOn generalizing c start with
  | ind len ih =>
      rw [CodeGen.tbInvalidatePhysRange] at h
      by_cases hlt : start < stop
      · rw [dif_pos hlt] at h
        obtain ⟨x, hone, hrest⟩ := Option.bind_eq_some_iff.1 h
        exact (busy_of_pageRange hone (ih _ (by omega) hrest rfl)).1
      · rw [dif_neg hlt] at h
        obtain rfl := Option.some.inj h
        exact hk

theorem busy_of_flush (h : c.tbFlush = some c') : ¬c'.Busy k := by
  unfold CodeGen.tbFlush at h
  split at h
  · cases h
  · obtain rfl := Option.some.inj h
    rintro ⟨p', hp', hne⟩
    obtain ⟨p, -, rfl⟩ := Option.map_eq_some_iff.1 hp'
    exact hne rfl

/-- `tb_alloc_page` tells when the page had no block yet. -/
theorem busy_of_allocPage {n : Fin 2} {pageAddr : Nat}
    (hk : (c.tbAllocPage i n pageAddr).1.Busy k) :
    c.Busy k ∨ k = pageAddr / 4096 ∧ (c.tbAllocPage i n pageAddr).2 = true := by
  have hfind : (c.pageFindAlloc (pageAddr / 4096)).Busy k → c.Busy k := by
    rintro ⟨p, hp, hne⟩
    dsimp only [CodeGen.pageFindAlloc] at hp
    split at hp
    · cases hold : c.pages k with
      | none =>
          rw [hold, Option.some.injEq] at hp
          exact absurd (hp ▸ rfl) hne
      | some q =>
          rw [hold, Option.some.injEq] at hp
          obtain rfl : q = p := hp
          exact ⟨q, hold, hne⟩
    · exact ⟨p, hp, hne⟩
  obtain ⟨p, hp, hne⟩ := hk
  dsimp only [CodeGen.tbAllocPage] at hp
  by_cases heq : k = pageAddr / 4096
  · subst heq
    by_cases hempty : (((c.pageFindAlloc (pageAddr / 4096)).pages (pageAddr / 4096)).getD
        .empty).firstTb = []
    · exact Or.inr ⟨rfl, decide_eq_true hempty⟩
    · refine Or.inl (hfind ?_)
      cases hold : (c.pageFindAlloc (pageAddr / 4096)).pages (pageAddr / 4096) with
      | none =>
          rw [hold] at hempty
          exact absurd rfl hempty
      | some q =>
          rw [hold] at hempty
          exact ⟨q, hold, hempty⟩
  · rw [Function.update_of_ne heq] at hp
    exact Or.inl (hfind ⟨p, hp, hne⟩)

/-- `tb_link_page` tells which pages had no block yet. -/
theorem busy_of_linkPage (hk : (c.tbLinkPage i).1.Busy k) :
    c.Busy k ∨ ∃ page ∈ (c.tbLinkPage i).2, page / 4096 = k := by
  unfold CodeGen.tbLinkPage at hk ⊢
  dsimp only at hk ⊢
  cases hq : (c.tbs i).pageAddr1 with
  | none =>
      rw [hq] at hk
      dsimp only at hk ⊢
      rcases busy_of_allocPage hk with hold | ⟨rfl, hfirst⟩
      · exact Or.inl hold
      · refine Or.inr ⟨_, ?_, rfl⟩
        rw [if_pos hfirst]
        exact List.mem_singleton_self _
  | some q =>
      rw [hq] at hk
      dsimp only at hk ⊢
      rcases busy_of_allocPage hk with hold | ⟨rfl, hsecond⟩
      · rcases busy_of_allocPage hold with hold | ⟨rfl, hfirst⟩
        · exact Or.inl hold
        · refine Or.inr ⟨_, List.mem_append_left _ ?_, rfl⟩
          rw [if_pos hfirst]
          exact List.mem_singleton_self _
      · refine Or.inr ⟨_, List.mem_append_right _ ?_, rfl⟩
        rw [if_pos hsecond]
        exact List.mem_singleton_self _

theorem busy_of_genCode {getPageAddrCode : BitVec 64 → Nat} {pages : List Nat}
    (h : c.tbGenCode key getPageAddrCode gen = some (i, c', pages)) (hk : c'.Busy k) :
    c.Busy k ∨ ∃ page ∈ pages, page / 4096 = k := by
  obtain ⟨⟨j, c₁⟩, halloc, hrest⟩ := Option.bind_eq_some_iff.1 h
  obtain ⟨x, hx, hlink⟩ : ∃ x : CodeGen, x.pages = c₁.pages ∧
      some (j, (x.tbLinkPage j).1, (x.tbLinkPage j).2) = some (i, c', pages) :=
    ⟨{ c₁ with
      tbs := Function.update c₁.tbs j (generated key getPageAddrCode gen c₁.codeGenPtr)
      codeGenPtr := (c₁.codeGenPtr + gen.codeSize + 15) / 16 * 16 }, rfl, hrest⟩
  obtain ⟨rfl, hpair⟩ := Prod.mk.inj (Option.some.inj hlink)
  obtain ⟨rfl, rfl⟩ := Prod.mk.inj hpair
  have hold : c₁.Busy k → c.Busy k := by
    intro hone
    have hsame : ∀ {d d' : CodeGen} {j : Nat}, d.tbAlloc = some (j, d') → d'.Busy k → d.Busy k := by
      intro d d' j halloc hd
      unfold CodeGen.tbAlloc at halloc
      split at halloc
      · cases halloc
      · obtain ⟨-, rfl⟩ := Prod.mk.inj (Option.some.inj halloc)
        exact hd
    unfold CodeGen.tbAllocOrFlush at halloc
    cases hfirst : c.tbAlloc with
    | some x =>
        rw [hfirst] at halloc
        obtain rfl := Option.some.inj halloc
        exact hsame hfirst hone
    | none =>
        rw [hfirst] at halloc
        obtain ⟨c₀, hflush, hafter⟩ := Option.bind_eq_some_iff.1 halloc
        exact absurd (hsame hafter hone) (busy_of_flush hflush)
  rcases busy_of_linkPage hk with ⟨p, hp, hne⟩ | hnew
  · exact Or.inl (hold ⟨p, hx ▸ hp, hne⟩)
  · exact Or.inr hnew

theorem busy_of_findSlow {getPageAddrCode : BitVec 64 → Nat} {pages : List Nat}
    (h : c.tbFindSlow key getPageAddrCode gen = some (i, c', pages)) (hk : c'.Busy k) :
    c.Busy k ∨ ∃ page ∈ pages, page / 4096 = k := by
  unfold CodeGen.tbFindSlow at h
  dsimp only at h
  split at h
  · obtain ⟨-, hrest⟩ := Prod.mk.inj (Option.some.inj h)
    obtain ⟨rfl, rfl⟩ := Prod.mk.inj hrest
    exact Or.inl hk
  · obtain ⟨⟨j, c₁, pages₁⟩, hgen, hrest⟩ := Option.bind_eq_some_iff.1 h
    obtain ⟨-, hrest⟩ := Prod.mk.inj (Option.some.inj hrest)
    obtain ⟨rfl, rfl⟩ := Prod.mk.inj hrest
    exact busy_of_genCode hgen hk

theorem busy_of_findFast {getPageAddrCode : BitVec 64 → Nat} {pages : List Nat}
    (h : c.tbFindFast key getPageAddrCode gen = some (i, c', pages)) (hk : c'.Busy k) :
    c.Busy k ∨ ∃ page ∈ pages, page / 4096 = k := by
  unfold CodeGen.tbFindFast at h
  split at h
  · split at h
    · exact busy_of_findSlow h hk
    · obtain ⟨rfl, hrest⟩ := Prod.mk.inj (Option.some.inj h)
      obtain ⟨rfl, rfl⟩ := Prod.mk.inj hrest
      exact Or.inl hk
  · exact busy_of_findSlow h hk

/-! ## Protected pages -/

/-- The pages with blocks are protected. -/
def CodeGen.Protected (c : CodeGen) (watched : Nat → Bool) : Prop :=
  ∀ k, c.Busy k → watched k = true

theorem protect_new {pages : List Nat} (h : c.Protected watched)
    (hbusy : ∀ k, c'.Busy k → c.Busy k ∨ ∃ page ∈ pages, page / 4096 = k) :
    c'.Protected (tlbProtectCode pages watched) := by
  intro k hk
  unfold tlbProtectCode
  rw [Bool.or_eq_true, List.any_eq_true]
  rcases hbusy k hk with hold | ⟨page, hpage, heq⟩
  · exact Or.inl (h k hold)
  · exact Or.inr ⟨page, hpage, decide_eq_true heq⟩

/-- A page that a write unprotects is protected again when the block that is made is on it. -/
theorem protect_written {getPageAddrCode : BitVec 64 → Nat} {x : Invalidated} {w : Written}
    (h : c.Protected watched)
    (hbusy : ∀ k, x.code.Busy k → c.Busy k ∧ (x.unprotected = true → k ≠ start / 4096))
    (hremake : x.remake key getPageAddrCode gen = some w) :
    w.code.Protected (w.watch start watched) := by
  have hleft : x.code.Protected
      (if x.unprotected then Function.update watched (start / 4096) false else watched) := by
    intro k hk
    obtain ⟨hold, hother⟩ := hbusy k hk
    by_cases hx : x.unprotected = true
    · rw [if_pos hx, Function.update_of_ne (hother hx)]
      exact h k hold
    · rw [if_neg hx]
      exact h k hold
  rw [← remake_unprotected hremake] at hleft
  refine protect_new hleft fun k hk => ?_
  unfold Invalidated.remake at hremake
  split at hremake
  · obtain ⟨⟨i, c', pages⟩, hgen, rfl⟩ := Option.map_eq_some_iff.1 hremake
    exact busy_of_genCode hgen hk
  · obtain rfl := Option.some.inj hremake
    exact Or.inl hk

/-- After each call the pages with blocks are protected again. -/
theorem CodeGen.Protected.call {call : CodeCall} {out : Option Nat}
    (h : r.code.Protected watched) (hrun : r.call call = some (out, r')) :
    r'.code.Protected (r.watch watched call) := by
  have hfewer : ∀ c', r'.code = c' → (∀ k, c'.Busy k → r.code.Busy k) →
      r'.code.Protected watched := by
    rintro c' rfl hbusy k hk
    exact h k (hbusy k hk)
  cases call with
  | find key gen =>
      obtain ⟨⟨i, c', pages⟩, hfind, hend⟩ := Option.map_eq_some_iff.1 hrun
      obtain ⟨-, rfl⟩ := Prod.mk.inj hend
      rw [CodeRun.watch, hfind]
      exact protect_new h fun k hk => busy_of_findFast hfind hk
  | generate key gen =>
      obtain ⟨⟨i, c', pages⟩, hgen, hend⟩ := Option.map_eq_some_iff.1 hrun
      obtain ⟨-, rfl⟩ := Prod.mk.inj hend
      rw [CodeRun.watch, hgen]
      exact protect_new h fun k hk => busy_of_genCode hgen hk
  | addJump tb n tbNext =>
      obtain ⟨-, rfl⟩ := Prod.mk.inj (Option.some.inj hrun)
      exact h
  | unlink tb =>
      obtain ⟨c', hunlink, hend⟩ := Option.map_eq_some_iff.1 hrun
      obtain ⟨-, rfl⟩ := Prod.mk.inj hend
      obtain ⟨jumps, -, rfl⟩ := Option.map_eq_some_iff.1 hunlink
      exact h
  | invalidate tb =>
      obtain ⟨c', hone, hend⟩ := Option.map_eq_some_iff.1 hrun
      obtain ⟨-, rfl⟩ := Prod.mk.inj hend
      exact hfewer c' rfl fun k hk => busy_of_physInvalidate hone hk
  | writePage start stop memIoPc key gen =>
      obtain ⟨w, hwrite, hend⟩ := Option.map_eq_some_iff.1 hrun
      obtain ⟨-, rfl⟩ := Prod.mk.inj hend
      obtain ⟨x, hone, hremake⟩ := Option.bind_eq_some_iff.1 hwrite
      rw [CodeRun.watch, hwrite]
      exact protect_written h (fun k hk => busy_of_pageRange hone hk) hremake
  | writeFast start len memIoPc key gen =>
      obtain ⟨w, hwrite, hend⟩ := Option.map_eq_some_iff.1 hrun
      obtain ⟨-, rfl⟩ := Prod.mk.inj hend
      obtain ⟨x, hone, hremake⟩ := Option.bind_eq_some_iff.1 hwrite
      rw [CodeRun.watch, hwrite]
      exact protect_written h (fun k hk => busy_of_pageFast hone hk) hremake
  | writeRange start stop =>
      obtain ⟨c', hwrite, hend⟩ := Option.map_eq_some_iff.1 hrun
      obtain ⟨-, rfl⟩ := Prod.mk.inj hend
      exact hfewer c' rfl fun k hk => busy_of_range hwrite hk
  | flush =>
      obtain ⟨c', hflush, hend⟩ := Option.map_eq_some_iff.1 hrun
      obtain ⟨-, rfl⟩ := Prod.mk.inj hend
      exact hfewer c' rfl fun k hk => absurd hk (busy_of_flush hflush)
  | remap addr page =>
      obtain ⟨-, rfl⟩ := Prod.mk.inj (Option.some.inj hrun)
      exact h
  | remapAll mapping =>
      obtain ⟨-, rfl⟩ := Prod.mk.inj (Option.some.inj hrun)
      exact h

theorem WatchedReaches.protects (h₀ : ∀ k, ¬r₀.code.Busy k)
    (h : WatchedReaches room r₀ s₀ r s watched) : r.code.Protected watched := by
  induction h with
  | start => exact fun k hk => absurd hk (h₀ k)
  | call call _ _ hrun _ _ ih => exact ih.call hrun

/-- The page of each byte that a block was made from is protected, in all runs. -/
theorem watchedReaches_watched {tbs : Nat → TranslationBlock} {jumps : Jumps}
    {buffer bufferSize maxSize maxBlocks a : Nat} (hblocks : 0 < maxBlocks) (hmax : 0 < maxSize)
    (hroom : maxSize + room ≤ bufferSize)
    (h : WatchedReaches room ⟨CodeGen.init tbs jumps buffer bufferSize maxSize maxBlocks, mapping⟩
      (Translations.init mapping) r s watched) (hi : s.block i = some tb)
    (htouches : tb.Touches a (a + 1)) : watched (a / 4096) = true := by
  have hinv := (CodeInv.init hblocks hmax hroom).reaches h.codeReaches
  obtain ⟨k, hk, b, hb, hge, hlt⟩ := htouches
  have heq : b = a := by omega
  obtain ⟨n, hn⟩ := (hinv.coded.tables.live i tb hi).2.2.byteAddr_page hk hb
  obtain ⟨p, hp, hmem⟩ := hinv.coded.tables.page_some hi hn
  refine h.protects (fun k hc => ?_) _ ⟨p, heq ▸ hp, fun hempty => ?_⟩
  · obtain ⟨q, hq, -⟩ := hc
    cases hq
  · rw [hempty] at hmem
    exact absurd hmem List.not_mem_nil

/-- The one block of the sample protects the first page. -/
theorem watchedReaches_watched_sample : ∃ (r : CodeRun) (watched : Nat → Bool),
    WatchedReaches 64 sampleRun (Translations.init BitVec.toNat) r sampleBlock watched ∧
      watched 0 = true := by
  have hreaches : WatchedReaches 64 sampleRun (Translations.init BitVec.toNat)
      ⟨sampleCode, BitVec.toNat⟩ sampleBlock
      (sampleRun.watch (fun _ => false) (.find ⟨64, 0, 0⟩ ⟨4, 2, 32⟩)) := by
    refine .call (.find ⟨64, 0, 0⟩ ⟨4, 2, 32⟩) .start sample_translates sample_find sample_step
      fun i tb hi => ?_
    obtain ⟨rfl, rfl⟩ := sampleBlock_eq hi
    rfl
  have htouches : sampleTb.Touches 64 (64 + 1) := ⟨0, by decide, 64, rfl, by decide, by decide⟩
  exact ⟨_, _, hreaches,
    watchedReaches_watched (by decide) (by decide) (by decide) hreaches
      (show sampleBlock.block 0 = some sampleTb from rfl) htouches⟩

end Vin64.Vx64
