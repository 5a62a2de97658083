import Vin64.Space.Region
import Vin64.Lib.Masks
import Vin64.Utils.Proofs.Layout

/-!
# What changing the protection of a range means

A region shows an attribute word at each of its addresses.  `Protects` says that a call
of `vmprotect` replaces the protection bits in the range and nothing else.  `ProtectOk`
is a condition on the blocks of the region before the call: the call cuts the blocks at
both ends of the range, and the condition speaks about the parts in front of the range,
inside it and behind it.
-/

namespace Vin64.Space

open Vin64.Utils Vin64.Utils.Dllist Vin64.Lib

namespace VMRegion

/-- The attribute word at the address `a`: the one of the block that contains `a`, or the
one of the region while it has no blocks. -/
def attrAt (r : VMRegion) (a : Nat) : Option (BitVec 32) :=
  if r.blocks.first = none then some r.attr
  else (Extent.lookup r.blocks.toList a).map VMBlock.attr

/-- The blocks the region shows: one for the whole region while it has none. -/
def shown (r : VMRegion) : List VMBlock :=
  if r.blocks.first = none then [⟨r.base, r.size, r.attr⟩] else r.blocks.toList

/-- `bs` are the blocks of `r`: a correctly linked list that tiles the region, or the
block that stands for the whole region when the list is empty. -/
structure HasBlocks (r : VMRegion) (bs : List VMBlock) : Prop where
  linked : (Layout r.blocks [] [] ∧ bs = [⟨r.base, r.size, r.attr⟩]) ∨
    ∃ es, es ≠ [] ∧ Layout r.blocks es [] ∧ PrevOk none es ∧ es.map Entry.val = bs
  tiles : Extent.Tiles r.base bs (r.base + r.size)
  pos : ∀ b ∈ bs, 0 < b.size
  stop_le : r.base + r.size ≤ 2 ^ 64
  size_lt : r.size < 2 ^ 64

/-- The call returns 0, stores the protection `base` had before, and at every address of
the region leaves the attribute word as it was, but for the protection bits in the range. -/
def Protects (r : VMRegion) (base size : Nat) (prot old : BitVec 32) : Prop :=
  ∃ old' r', r.vmprotect base size prot old = some (0, old', r') ∧
    (r.attrAt base).map (· &&& WVM_PROTECT_MASK) = some old' ∧
    ∀ a, r.base ≤ a → a < r.base + r.size →
      r'.attrAt a = (r.attrAt a).map fun attr =>
        if base ≤ a ∧ a < base + size then
          setField WVM_PROTECT_MASK (prot &&& WVM_PROTECT_MASK) attr
        else attr

/-- The forward list of blocks tiles the region, and none of the blocks is empty. -/
structure BlocksTile (r : VMRegion) : Prop where
  linked : ∃ es, Layout r.blocks es []
  tiles : Extent.Tiles r.base r.blocks.toList (r.base + r.size)
  pos : ∀ b ∈ r.blocks.toList, 0 < b.size

/-- The region `t` is `r` with other blocks, which show the same attribute words. -/
def SameAttrs (r t : VMRegion) : Prop :=
  t = { r with blocks := t.blocks } ∧
    ∀ a, r.base ≤ a → a < r.base + r.size → t.attrAt a = r.attrAt a

end VMRegion

/-- The blocks cut at `a`: the parts below and the parts above. -/
def cutAt (a : Nat) : List VMBlock → List VMBlock × List VMBlock
  | [] => ([], [])
  | b :: bs =>
    if b.base + b.size ≤ a then (b :: (cutAt a bs).1, (cutAt a bs).2)
    else if b.base < a then
      ([{ b with size := a - b.base }], { b with base := a, size := b.base + b.size - a } :: bs)
    else ([], b :: bs)

/-- The blocks behind the range that `mergeSameProtect` absorbs. -/
def absorbed (prot : BitVec 32) (rest : List VMBlock) : List VMBlock :=
  rest.takeWhile fun c => c.prot = prot

/-- The range lies in one block, which becomes `b` between `front` and `rest`; `stale`
says that the range starts inside a block and ends with it. -/
def OneBlockOk (stale : Prop) (front : List VMBlock) (b : VMBlock) (rest : List VMBlock)
    (prot : BitVec 32) : Prop :=
  (stale → absorbed prot rest = []) ∧ (absorbed prot rest = rest → front = []) ∧
    ∀ c ∈ absorbed prot rest, c.attr = setField WVM_PROTECT_MASK prot b.attr

/-- The range lies in several blocks, `b` and `mids`: the whole region but its last block
becomes one block. -/
def ManyBlocksOk (front : List VMBlock) (b : VMBlock) (mids rest : List VMBlock)
    (prot : BitVec 32) : Prop :=
  let attr := setField WVM_PROTECT_MASK prot b.attr
  front = [] ∧ (∀ c ∈ mids, setField WVM_PROTECT_MASK prot c.attr = attr) ∧
    (rest = [] → ∀ z ∈ mids.getLast?, z.attr = attr) ∧
    (∀ c ∈ rest.dropLast, c.attr = attr) ∧
    ∀ z ∈ rest.getLast?, z.prot = prot → z.attr = attr

/-- The condition on the blocks `bs` under which `vmprotect` keeps its contract. -/
def ProtectOk (bs : List VMBlock) (base size : Nat) (prot : BitVec 32) : Prop :=
  let front := (cutAt base bs).1
  let parts := cutAt (base + size) (cutAt base bs).2
  (∀ b ∈ bs, Extent.Covers b (base + size - 1) → Extent.stop b < 2 ^ 64) ∧
    match parts.1 with
    | [] => False
    | [b] => OneBlockOk (∃ c ∈ bs, c.base < base ∧ Extent.stop c = base + size) front b parts.2
        prot
    | b :: mids => ManyBlocksOk front b mids parts.2 prot

theorem protectOk_one {bs rest : List VMBlock} {b : VMBlock} {base size : Nat}
    {prot : BitVec 32} (hcut : cutAt (base + size) (cutAt base bs).2 = ([b], rest)) :
    ProtectOk bs base size prot ↔
      (∀ b ∈ bs, Extent.Covers b (base + size - 1) → Extent.stop b < 2 ^ 64) ∧
        OneBlockOk (∃ c ∈ bs, c.base < base ∧ Extent.stop c = base + size) (cutAt base bs).1 b
          rest prot := by
  simp only [ProtectOk, hcut]

theorem protectOk_many {bs mids rest : List VMBlock} {b : VMBlock} {base size : Nat}
    {prot : BitVec 32} (hcut : cutAt (base + size) (cutAt base bs).2 = (b :: mids, rest))
    (hne : mids ≠ []) :
    ProtectOk bs base size prot ↔
      (∀ b ∈ bs, Extent.Covers b (base + size - 1) → Extent.stop b < 2 ^ 64) ∧
        ManyBlocksOk (cutAt base bs).1 b mids rest prot := by
  cases mids with
  | nil => exact absurd rfl hne
  | cons m mids => simp only [ProtectOk, hcut]

/-! ## Cutting a tiling -/

theorem cutAt_append {a : Nat} {pre bs : List VMBlock}
    (hpre : ∀ b ∈ pre, Extent.stop b ≤ a) :
    cutAt a (pre ++ bs) = (pre ++ (cutAt a bs).1, (cutAt a bs).2) := by
  induction pre with
  | nil => rfl
  | cons b pre ih =>
      have hb : b.base + b.size ≤ a := hpre b (by simp)
      simp [cutAt, hb, ih fun c hc => hpre c (by simp [hc])]

theorem cutAt_inside {a : Nat} {b : VMBlock} (bs : List VMBlock) (hlo : b.base < a)
    (hhi : a < Extent.stop b) :
    cutAt a (b :: bs) =
      ([{ b with size := a - b.base }], { b with base := a, size := Extent.stop b - a } :: bs) := by
  simp only [VMBlock.extent_stop] at hhi ⊢
  simp [cutAt, hlo, Nat.not_le_of_lt hhi]

theorem cutAt_start {a hi : Nat} {bs : List VMBlock} (h : Extent.Tiles a bs hi)
    (hpos : ∀ b ∈ bs, 0 < b.size) : cutAt a bs = ([], bs) := by
  cases bs with
  | nil => rfl
  | cons b bs =>
      have hb : b.base = a := h.1
      have := hpos b (by simp)
      rw [cutAt, if_neg (by omega), if_neg (by omega)]

/-- Cutting keeps the tiling, its cover and the positive sizes. -/
theorem cutAt_tiles {lo a hi : Nat} {bs : List VMBlock} (h : Extent.Tiles lo bs hi)
    (hpos : ∀ b ∈ bs, 0 < b.size) (hlo : lo ≤ a) (hhi : a ≤ hi) :
    Extent.Tiles lo (cutAt a bs).1 a ∧ Extent.Tiles a (cutAt a bs).2 hi ∧
      (Extent.cover VMBlock.attr (cutAt a bs).1 ++ Extent.cover VMBlock.attr (cutAt a bs).2 =
        Extent.cover VMBlock.attr bs) ∧
      (∀ b ∈ (cutAt a bs).1, 0 < b.size) ∧ ∀ b ∈ (cutAt a bs).2, 0 < b.size := by
  induction bs generalizing lo with
  | nil =>
      have hlohi : lo = hi := h
      refine ⟨?_, ?_, rfl, by simp [cutAt], by simp [cutAt]⟩
      · show lo = a
        omega
      · show a = hi
        omega
  | cons b bs ih =>
      have hb : b.base = lo := h.1
      have hsize := hpos b (by simp)
      have hrest : Extent.Tiles (lo + b.size) bs hi := h.2
      by_cases hstop : b.base + b.size ≤ a
      · obtain ⟨h₁, h₂, hc, hp₁, hp₂⟩ := ih hrest (fun c hc => hpos c (by simp [hc])) (by omega)
        have hcut : cutAt a (b :: bs) = (b :: (cutAt a bs).1, (cutAt a bs).2) := by
          rw [cutAt, if_pos hstop]
        rw [hcut]
        refine ⟨⟨hb, h₁⟩, h₂, by simpa using hc, ?_, hp₂⟩
        intro c hc
        rcases List.mem_cons.1 hc with rfl | hc
        · exact hsize
        · exact hp₁ c hc
      · by_cases hin : b.base < a
        · rw [cutAt_inside bs hin (by simp; omega)]
          have hsum : List.replicate (a - b.base) b.attr ++
              List.replicate (Extent.stop b - a) b.attr = List.replicate b.size b.attr := by
            rw [List.replicate_append_replicate]
            congr 1
            simp only [VMBlock.extent_stop]; omega
          refine ⟨⟨hb, ?_⟩, ⟨rfl, ?_⟩, ?_, ?_, ?_⟩
          · simp only [Extent.Tiles, VMBlock.extent_size]; omega
          · have : a + (Extent.stop b - a) = lo + b.size := by
              simp only [VMBlock.extent_stop]; omega
            show Extent.Tiles (a + (Extent.stop b - a)) bs hi
            rw [this]
            exact hrest
          · simp only [Extent.cover_cons, Extent.cover_nil, List.append_nil, VMBlock.extent_size]
            rw [← List.append_assoc, hsum]
          · intro c hc
            obtain rfl := List.mem_singleton.1 hc
            show 0 < a - b.base
            omega
          · intro c hc
            rcases List.mem_cons.1 hc with rfl | hc
            · simp only [VMBlock.extent_stop]; omega
            · exact hpos c (by simp [hc])
        · have ha : a = lo := by omega
          subst ha
          rw [cutAt_start h hpos]
          exact ⟨rfl, h, rfl, by simp, hpos⟩

end Vin64.Space
