import Vin64.Space.Proofs.Protect

/-!
# When `vmprotect` fails

A call fails when a search finds no block, before it changes an attribute.  By then a block
may have been created for the whole region, and cut in two.
-/

namespace Vin64.Space

open Vin64.Utils Vin64.Utils.Dllist Vin64.Lib

namespace VMRegion

variable {r r' : VMRegion} {l : Dllist VMBlock} {xs ys es : List (Entry VMBlock)}
  {e : Entry VMBlock} {ds : List Nat}

/-- A search ends, and the block it finds contains the address. -/
theorem findLoop_layout (h : Layout l (xs ++ ys) ds) (a : Nat) {fuel : Nat}
    (hf : ys.length < fuel) :
    findLoop l a false fuel (ptrTo ys none) = some none ∨
      ∃ zs e ws, ys = zs ++ e :: ws ∧
        findLoop l a false fuel (ptrTo ys none) = some (some e.addr) ∧
        e.val.base ≤ a ∧ a < add64 e.val.base e.val.size := by
  induction ys generalizing xs fuel with
  | nil =>
      obtain ⟨fuel, rfl⟩ : ∃ k, fuel = k + 1 := ⟨fuel - 1, by omega⟩
      exact Or.inl rfl
  | cons y ys ih =>
      obtain ⟨fuel, rfl⟩ : ∃ k, fuel = k + 1 := ⟨fuel - 1, by omega⟩
      have hrest := @ih (xs ++ [y]) (by simpa using h) fuel (by simpa using hf)
      have hstep : findLoop l a false (fuel + 1) (ptrTo (y :: ys) none) =
          if y.val.base > a then some none
          else if add64 y.val.base y.val.size ≤ a then findLoop l a false fuel (ptrTo ys none)
          else some (some y.addr) := by
        simp only [ptrTo_cons, findLoop, h.deref, Option.bind_eq_bind, Option.bind_some,
          Bool.false_eq_true, if_false]
        rfl
      rw [hstep]
      by_cases hlo : y.val.base > a
      · rw [if_pos hlo]
        exact Or.inl rfl
      · rw [if_neg hlo]
        by_cases hhi : add64 y.val.base y.val.size ≤ a
        · rw [if_pos hhi]
          rcases hrest with hnone | ⟨zs, e, ws, rfl, hfind, hc⟩
          · exact Or.inl hnone
          · exact Or.inr ⟨y :: zs, e, ws, rfl, hfind, hc⟩
        · rw [if_neg hhi]
          exact Or.inr ⟨[], y, ys, rfl, rfl, by omega, by omega⟩

theorem findBlockL2R_layout (h : Layout l es ds) (a : Nat) :
    findBlockL2R l a false none = some none ∨
      ∃ xs e ys, es = xs ++ e :: ys ∧ findBlockL2R l a false none = some (some e.addr) ∧
        e.val.base ≤ a ∧ a < add64 e.val.base e.val.size := by
  have hlen := h.length_le_fresh
  have hfind := @findLoop_layout l [] es ds h a (l.fresh + 1) (by omega)
  rw [← h.first] at hfind
  exact hfind

/-- A block whose end lies above an address of it does not wrap. -/
theorem stop_of_lt_add64 {b : VMBlock} {a : Nat} (hlo : b.base ≤ a) (ha : a < 2 ^ 64)
    (hsize : b.size < 2 ^ 64) (hhi : a < add64 b.base b.size) :
    a < Extent.stop b ∧ Extent.stop b < 2 ^ 64 := by
  simp only [add64, VMBlock.extent_stop] at hhi ⊢
  omega

/-- The blocks of a region that was not changed yet, or was cut. -/
structure Shows (r : VMRegion) (l : Dllist VMBlock) (es : List (Entry VMBlock)) : Prop where
  layout : Layout l es []
  tiles : Extent.Tiles r.base (es.map Entry.val) (r.base + r.size)
  pos : ∀ b ∈ es.map Entry.val, 0 < b.size
  attrs : ∀ a, r.base ≤ a → a < r.base + r.size →
    r.attrAt a = (Extent.lookup (es.map Entry.val) a).map VMBlock.attr

theorem Shows.keeps (h : r.Shows l es) (hpos : 0 < r.size) :
    r.SameAttrs { r with blocks := l } ∧ { r with blocks := l }.BlocksTile := by
  have hne : es ≠ [] := fun he =>
    h.tiles.ne_nil (Nat.lt_add_of_pos_right hpos) (by rw [he]; rfl)
  refine ⟨⟨rfl, fun a hlo hhi => ?_⟩, ⟨es, h.layout⟩, ?_, ?_⟩
  · rw [attrAt_layout h.layout hne, h.attrs a hlo hhi]
  · show Extent.Tiles r.base l.toList (r.base + r.size)
    rw [h.layout.toList]
    exact h.tiles
  · show ∀ b ∈ l.toList, 0 < b.size
    rw [h.layout.toList]
    exact h.pos

/-- The blocks after `initBlock` are the ones the region showed before. -/
theorem shows_initBlock (h : Layout r.blocks [] [] ∨ r.BlocksTile) (hpos : 0 < r.size) :
    ∃ l es, r.initBlock = some { r with blocks := l } ∧ r.Shows l es ∧
      es.map Entry.val = r.shown ∧ (1 < es.length → l = r.blocks) := by
  rcases h with h | h
  · obtain ⟨l, e, hinit, hl, -, hval⟩ := initBlock_empty h
    have hfirst : r.blocks.first = none := h.first
    have htiles : Extent.Tiles r.base [e.val] (r.base + r.size) := by
      rw [hval]
      exact ⟨rfl, rfl⟩
    refine ⟨l, [e], hinit, ⟨hl, htiles, by simpa [hval] using hpos, fun a hlo hhi => ?_⟩,
      by simp [shown, hfirst, hval], by simp⟩
    have hc : Extent.Covers (⟨r.base, r.size, r.attr⟩ : VMBlock) a := ⟨hlo, hhi⟩
    simp [attrAt, hfirst, Extent.lookup, hval, hc]
  · obtain ⟨es, hl⟩ := h.linked
    have htiles := h.tiles
    have hposs := h.pos
    rw [hl.toList] at htiles hposs
    have hne : es ≠ [] := fun he =>
      htiles.ne_nil (Nat.lt_add_of_pos_right hpos) (by rw [he]; rfl)
    exact ⟨r.blocks, es, initBlock_of_blocks hl hne, ⟨hl, htiles, hposs,
      fun a _ _ => attrAt_layout hl hne a⟩, by simp [shown, hl.first_ne_none hne, hl.toList],
      fun _ => rfl⟩

/-- The cut at the base keeps what the region shows. -/
theorem Shows.cutFront (h : r.Shows l (xs ++ e :: ys)) {base : Nat} (hbase : base < 2 ^ 64)
    (hsize : r.size < 2 ^ 64) (hlo : e.val.base ≤ base)
    (hhi : base < add64 e.val.base e.val.size) :
    ∃ p l' es, cutFront l (some e.addr) base = some (p, l') ∧ r.Shows l' es := by
  have hmem : e.val ∈ (xs ++ e :: ys).map Entry.val := List.mem_map_of_mem (by simp)
  have hesize : e.val.size < 2 ^ 64 := by
    have := h.tiles.mem hmem
    simp only [VMBlock.extent_base, VMBlock.extent_stop] at this
    omega
  obtain ⟨hcov, hstop⟩ := stop_of_lt_add64 hlo hbase hesize hhi
  rcases Nat.eq_or_lt_of_le hlo with rfl | hlt
  · exact ⟨_, l, _, cutFront_base h.layout hbase, h⟩
  · obtain ⟨l', c, hl', h'⟩ := cutFront_inside h.layout hlt hcov (Nat.le_of_lt hstop) hesize
    have htiles := h.tiles
    have hpos := h.pos
    simp only [List.map_append, List.map_cons, VMBlock.extent_stop] at htiles hpos hcov
    let b₁ : VMBlock := ⟨e.val.base, base - e.val.base, e.val.attr⟩
    let b₂ : VMBlock := ⟨base, e.val.base + e.val.size - base, e.val.attr⟩
    have hsum : Extent.size b₁ + Extent.size b₂ = Extent.size e.val := by
      show base - e.val.base + (e.val.base + e.val.size - base) = e.val.size
      omega
    have htiles' := @Extent.Tiles.split _ _ _ _ _ _ _ b₁ b₂ htiles rfl
      (show base = e.val.base + (base - e.val.base) by omega) hsum
    refine ⟨some c, l', _, hl', h', by simpa using htiles', ?_, fun a ha hb => ?_⟩
    · simp only [List.map_append, List.map_cons, List.mem_append, List.mem_cons,
        VMBlock.extent_stop]
      rintro b (hb | rfl | rfl | hb)
      · exact hpos b (by simp [hb])
      · show 0 < base - e.val.base
        omega
      · show 0 < e.val.base + e.val.size - base
        omega
      · exact hpos b (by simp [hb])
    · have hcover := @Extent.cover_split _ _ _ VMBlock.attr (xs.map Entry.val) (ys.map Entry.val)
        e.val b₁ b₂ rfl rfl hsum
      rw [h.attrs a ha hb]
      simpa using (Extent.map_lookup_eq_iff htiles htiles' _ _).2 hcover.symm a ha hb

/-- Whenever `vmprotect` returns -1, the region shows the attribute words it showed before and
its forward list tiles it. -/
theorem vmprotect_fails_keeps (h : Layout r.blocks [] [] ∨ r.BlocksTile) (hpos : 0 < r.size)
    (hrsize : r.size < 2 ^ 64) {base size : Nat} (hbase : base < 2 ^ 64) {prot old old' : BitVec 32}
    (hfail : r.vmprotect base size prot old = some (-1, old', r')) :
    r.SameAttrs r' ∧ r'.BlocksTile := by
  obtain ⟨l, es, hinit, hl, -, -⟩ := shows_initBlock h hpos
  rcases findBlockL2R_layout hl.layout base with hfind | ⟨xs, e, ys, rfl, hfind, hlo, hhi⟩
  · simp only [vmprotect, hinit, hfind, Option.bind_eq_bind, Option.bind_some, if_true] at hfail
    obtain ⟨-, rfl⟩ : old = old' ∧ { r with blocks := l } = r' := by simpa using hfail
    exact hl.keeps hpos
  · obtain ⟨p, l₁, es₁, hcut, h₁⟩ := hl.cutFront hbase hrsize hlo hhi
    simp only [vmprotect, hinit, hfind, hl.layout.deref, hcut, Option.bind_eq_bind,
      Option.bind_some, reduceCtorEq, if_false] at hfail
    cases hlast : findBlockL2R l₁ (sub64 (add64 base size) 1) false p with
    | none => simp [hlast] at hfail
    | some last =>
        cases last with
        | none =>
            obtain ⟨-, rfl⟩ : _ ∧ { r with blocks := l₁ } = r' := by simpa [hlast] using hfail
            exact h₁.keeps hpos
        | some t =>
            -- every other way through the call returns 0
            simp only [hlast, Option.bind_some, reduceCtorEq, if_false] at hfail
            obtain ⟨⟨q, l₂⟩, -, hfail⟩ := Option.bind_eq_some_iff.1 hfail
            obtain ⟨l₃, -, hfail⟩ := Option.bind_eq_some_iff.1 hfail
            simp at hfail

/-- A call whose range leaves the region, after its first block was cut. -/
theorem threePages_fails : ∃ old' r',
    threePages.vmprotect 0x11000 0x3000 4#32 0#32 = some (-1, old', r') ∧
      threePages.SameAttrs r' ∧ r'.BlocksTile := by
  have heval : (threePages.vmprotect 0x11000 0x3000 4#32 0#32).any (fun v => v.1 = -1) = true := by
    decide +kernel
  obtain ⟨⟨rc, old', r'⟩, hr, hrc⟩ := (Option.any_eq_true _ _).1 heval
  obtain rfl : rc = -1 := by simpa using hrc
  exact ⟨old', r', hr, vmprotect_fails_keeps (Or.inl layout_empty) (by decide) (by decide)
    (by decide) hr⟩

/-- A region without addresses gets an empty block. -/
theorem vmprotect_fails_empty :
    ¬ ∀ (r r' : VMRegion) (base size : Nat) (prot old old' : BitVec 32),
      (Layout r.blocks [] [] ∨ r.BlocksTile) → r.base < 2 ^ 64 → r.size < 2 ^ 64 →
        base < 2 ^ 64 → size < 2 ^ 64 → r.vmprotect base size prot old = some (-1, old', r') →
          r.SameAttrs r' ∧ r'.BlocksTile := by
  intro hall
  have heval : ((⟨0x10000, 0, 0x32001#32, Dllist.empty⟩ : VMRegion).vmprotect 0x10000 0x1000 4#32
      0#32).any (fun v => v.1 = -1 ∧ v.2.2.blocks.toList.any fun b => b.size = 0) = true := by
    decide +kernel
  obtain ⟨⟨rc, old', r'⟩, hr, hrc⟩ := (Option.any_eq_true _ _).1 heval
  obtain ⟨rfl, hzero⟩ : rc = -1 ∧ (r'.blocks.toList.any fun b => b.size = 0) = true := by
    simpa using hrc
  obtain ⟨b, hb, hz⟩ := List.any_eq_true.1 hzero
  have hpos := (hall _ r' _ _ _ _ _ (Or.inl layout_empty) (by decide) (by decide) (by decide)
    (by decide) hr).2.pos b hb
  have hz : b.size = 0 := by simpa using hz
  omega

end VMRegion

end Vin64.Space
