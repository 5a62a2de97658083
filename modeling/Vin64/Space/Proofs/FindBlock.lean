import Mathlib.Data.List.Induction
import Vin64.Space.Blocks
import Vin64.Space.Proofs.BlockOps

/-!
# The two searches for a block

Both searches give up at a block that starts behind the address.  From the left no block
behind it can be the right one; from the right this is the case for the last block only.
-/

namespace Vin64.Space

open Vin64.Utils Vin64.Utils.Dllist Vin64.Lib

namespace VMRegion

variable {r : VMRegion} {l : Dllist VMBlock} {xs ys es : List (Entry VMBlock)}
  {e : Entry VMBlock} {ds : List Nat} {a : Nat} {equl : Bool}

/-! ## Searches of a list -/

/-- A search goes on behind the block. -/
def Passes (b : VMBlock) (a : Nat) (equl : Bool) : Prop :=
  if equl then b.base ≠ a else add64 b.base b.size ≤ a

instance (b : VMBlock) (a : Nat) (equl : Bool) : Decidable (Passes b a equl) :=
  inferInstanceAs (Decidable (if equl then b.base ≠ a else add64 b.base b.size ≤ a))

/-- A search that meets the blocks in the order of the list -/
def scan (a : Nat) (equl : Bool) : List (Entry VMBlock) → Ptr
  | [] => none
  | e :: es =>
    if e.val.base > a then none
    else if Passes e.val a equl then scan a equl es
    else some e.addr

theorem findLoop_scan (h : Layout l (xs ++ ys) ds) {fuel : Nat} (hf : ys.length < fuel) :
    findLoop l a equl fuel (ptrTo ys none) = some (scan a equl ys) := by
  induction ys generalizing xs fuel with
  | nil =>
      obtain ⟨fuel, rfl⟩ : ∃ k, fuel = k + 1 := ⟨fuel - 1, by omega⟩
      rfl
  | cons y ys ih =>
      obtain ⟨fuel, rfl⟩ : ∃ k, fuel = k + 1 := ⟨fuel - 1, by omega⟩
      have hrest := @ih (xs ++ [y]) (by simpa using h) fuel (by simpa using hf)
      simp only [ptrTo_cons, findLoop, h.deref, Option.bind_eq_bind, Option.bind_some, scan,
        Passes, hrest]
      cases equl <;> split_ifs <;> rfl

theorem findLoopR2L_scan (h : Layout l (xs ++ ys) ds) (hp : PrevOk none (xs ++ ys)) {fuel : Nat}
    (hf : xs.length < fuel) :
    findLoopR2L l a equl fuel (endPtr none xs) = some (scan a equl xs.reverse) := by
  induction xs using List.reverseRecOn generalizing ys fuel with
  | nil =>
      obtain ⟨fuel, rfl⟩ : ∃ k, fuel = k + 1 := ⟨fuel - 1, by omega⟩
      rfl
  | append_singleton xs x ih =>
      obtain ⟨fuel, rfl⟩ : ∃ k, fuel = k + 1 := ⟨fuel - 1, by omega⟩
      rw [List.append_assoc, List.singleton_append] at h hp
      have hprev : x.prev = endPtr none xs := (prevOk_append.1 hp).2.1
      have hrest : findLoopR2L l a equl fuel (endPtr none xs) = some (scan a equl xs.reverse) :=
        ih h hp (by simpa using hf)
      rw [← hprev] at hrest
      simp only [endPtr_concat, findLoopR2L, h.deref, Option.bind_eq_bind, Option.bind_some,
        List.reverse_append, List.reverse_singleton, List.singleton_append, scan, Passes, hrest]
      cases equl <;> split_ifs <;> rfl

theorem endPtr_eq_last (es : List (Entry VMBlock)) :
    es.getLast?.map Entry.addr = endPtr none es := by
  rcases List.eq_nil_or_concat es with rfl | ⟨ys, y, rfl⟩
  · rfl
  · rw [List.concat_eq_append, List.getLast?_concat, endPtr_concat]
    rfl

theorem searches_eq_scan (h : Layout l es ds) (hp : PrevOk none es) :
    findBlockL2R l a equl none = some (scan a equl es) ∧
      findBlockR2L l a equl none = some (scan a equl es.reverse) := by
  have hlen := h.length_le_fresh
  constructor
  · have hscan := @findLoop_scan l [] es ds a equl h (l.fresh + 1) (by omega)
    rw [← h.first] at hscan
    exact hscan
  · have hscan := @findLoopR2L_scan l es [] ds a equl (by rwa [List.append_nil])
      (by rwa [List.append_nil]) (l.fresh + 1) (by omega)
    rw [← endPtr_eq_last, ← h.last] at hscan
    exact hscan

/-! ## What a search finds -/

/-- A search stops only at a block that it is for. -/
theorem hits_of_not_passes {b : VMBlock} (hlo : b.base ≤ a) (h : ¬ Passes b a equl) :
    Hits b a equl := by
  unfold Passes at h
  unfold Hits
  cases equl with
  | true => simpa using h
  | false =>
      have hlt : a < add64 b.base b.size := by simpa using h
      have hle : add64 b.base b.size ≤ b.base + b.size := Nat.mod_le _ _
      exact ⟨hlo, Nat.lt_of_lt_of_le hlt hle⟩

theorem scan_eq_none (h : ∀ e ∈ es, ¬ Hits e.val a equl) : scan a equl es = none := by
  induction es with
  | nil => rfl
  | cons e es ih =>
      rw [scan]
      split_ifs with hlo hpass
      · rfl
      · exact ih fun e' he' => h e' (List.mem_cons_of_mem e he')
      · exact absurd (hits_of_not_passes (Nat.le_of_not_lt hlo) hpass) (h e List.mem_cons_self)

theorem scan_append (h : ∀ x ∈ xs, x.val.base ≤ a ∧ Passes x.val a equl) :
    scan a equl (xs ++ ys) = scan a equl ys := by
  induction xs with
  | nil => rfl
  | cons x xs ih =>
      obtain ⟨hlo, hpass⟩ := h x List.mem_cons_self
      rw [List.cons_append, scan, if_neg (Nat.not_lt.2 hlo), if_pos hpass]
      exact ih fun y hy => h y (List.mem_cons_of_mem x hy)

/-- The block a search is for is passed by exactly when its end wraps. -/
theorem passes_iff {b : VMBlock} (h : Hits b a equl) (hstop : Extent.stop b ≤ 2 ^ 64) :
    Passes b a equl ↔ ¬ (equl = false → Extent.stop b < 2 ^ 64) := by
  unfold Hits at h
  unfold Passes
  cases equl with
  | true => simpa using h
  | false =>
      obtain ⟨hlo, hhi⟩ : Extent.Covers b a := h
      simp only [VMBlock.extent_base, VMBlock.extent_stop] at hlo hhi hstop
      simp only [Bool.false_eq_true, if_false, VMBlock.extent_stop, add64, forall_const]
      omega

theorem Hits.base_le {b : VMBlock} (h : Hits b a equl) : b.base ≤ a := by
  unfold Hits at h
  cases equl with
  | true => exact Nat.le_of_eq h
  | false => exact h.1

theorem scan_hit (h : Hits e.val a equl) (hstop : Extent.stop e.val ≤ 2 ^ 64)
    (hrest : equl = false → ∀ y ∈ ys, ¬ Hits y.val a equl) :
    scan a equl (e :: ys) =
      if equl = false → Extent.stop e.val < 2 ^ 64 then some e.addr else none := by
  rw [scan, if_neg (Nat.not_lt.2 h.base_le)]
  by_cases hpass : Passes e.val a equl
  · have hwrap := (passes_iff h hstop).1 hpass
    have hequl : equl = false := not_not.1 fun hne => hwrap fun heq => absurd heq hne
    rw [if_pos hpass, if_neg hwrap, scan_eq_none (hrest hequl)]
  · rw [if_neg hpass, if_pos (not_not.1 fun hwrap => hpass ((passes_iff h hstop).2 hwrap))]

/-! ## Blocks that tile a region -/

/-- The blocks in front of the first that is hit are passed by. -/
theorem passes_front {lo hi : Nat} (ht : Extent.Tiles lo ((xs ++ e :: ys).map Entry.val) hi)
    (h : Hits e.val a equl) (hfront : ∀ x ∈ xs, ¬ Hits x.val a equl) :
    ∀ x ∈ xs, x.val.base ≤ a ∧ Passes x.val a equl := by
  intro x hx
  have hmiss := hfront x hx
  obtain ⟨pre, post, rfl⟩ := List.append_of_mem hx
  have hle : Extent.stop x.val ≤ e.val.base := by
    refine @Extent.Tiles.stop_le _ _ lo hi (pre.map Entry.val) ((post ++ e :: ys).map Entry.val)
      x.val (by simpa using ht) e.val (List.mem_map_of_mem (by simp))
  have hbase := h.base_le
  have hlo : x.val.base ≤ a := by
    simp only [VMBlock.extent_stop] at hle
    omega
  exact ⟨hlo, not_not.1 fun hpass => hmiss (hits_of_not_passes hlo hpass)⟩

/-- The blocks behind one that is hit start behind the address, or at the address that is
looked for. -/
theorem base_behind {lo hi : Nat} (ht : Extent.Tiles lo ((xs ++ e :: ys).map Entry.val) hi)
    (h : Hits e.val a equl) : ∀ y ∈ ys, y.val.base > a ∨ equl = true ∧ y.val.base = a := by
  intro y hy
  have hle : Extent.stop e.val ≤ y.val.base := by
    refine @Extent.Tiles.stop_le _ _ lo hi (xs.map Entry.val) (ys.map Entry.val) e.val
      (by simpa using ht) y.val (List.mem_map_of_mem hy)
  unfold Hits at h
  cases equl with
  | true =>
      have hbase : e.val.base = a := h
      simp only [VMBlock.extent_stop] at hle
      by_cases hy : y.val.base = a
      · exact .inr ⟨rfl, hy⟩
      · exact .inl (by omega)
  | false =>
      have hcovers : Extent.Covers e.val a := h
      exact .inl (Nat.lt_of_lt_of_le hcovers.2 hle)

theorem not_hits_behind {lo hi : Nat} (ht : Extent.Tiles lo ((xs ++ e :: ys).map Entry.val) hi)
    (h : Hits e.val a equl) (hequl : equl = false) : ∀ y ∈ ys, ¬ Hits y.val a equl := by
  intro y hy hhit
  rcases base_behind ht h y hy with hlt | ⟨heq, -⟩
  · have hbase := hhit.base_le
    omega
  · rw [hequl] at heq
    cases heq

/-- A search that meets a later block first does not come to the one that is hit. -/
theorem scan_later {lo hi : Nat} {zs : List (Entry VMBlock)} {z : Entry VMBlock}
    (ht : Extent.Tiles lo ((xs ++ e :: ys).map Entry.val) hi) (h : Hits e.val a equl)
    (hz : z ∈ ys) (hne : z.addr ≠ e.addr) : scan a equl (z :: zs) ≠ some e.addr := by
  rw [scan]
  rcases base_behind ht h z hz with hlt | ⟨rfl, hbase⟩
  · rw [if_pos hlt]
    exact fun h => by cases h
  · have hstop : ¬ Passes z.val a true := by simp [Passes, hbase]
    rw [if_neg (by omega), if_neg hstop]
    exact fun h => hne (Option.some.inj h)

theorem blockAt_eq_none (h : ∀ e ∈ es, ¬ Hits e.val a equl) : blockAt es a equl = none := by
  rw [blockAt, List.find?_eq_none.2 fun e he => by simpa using h e he]
  rfl

theorem blockAt_hit (h : Hits e.val a equl) (hfront : ∀ x ∈ xs, ¬ Hits x.val a equl) :
    blockAt (xs ++ e :: ys) a equl = some e.addr := by
  have hnone : xs.find? (fun e => decide (Hits e.val a equl)) = none :=
    List.find?_eq_none.2 fun x hx => by simpa using hfront x hx
  simp [blockAt, List.find?_append, hnone, h]

/-- The first block that is hit -/
theorem exists_first_hit (h : ¬ ∀ e ∈ es, ¬ Hits e.val a equl) :
    ∃ xs e ys, es = xs ++ e :: ys ∧ Hits e.val a equl ∧ ∀ x ∈ xs, ¬ Hits x.val a equl := by
  cases hfind : es.find? (fun e => decide (Hits e.val a equl)) with
  | none =>
      exact absurd (fun e he => by simpa using List.find?_eq_none.1 hfind e he) h
  | some e =>
      obtain ⟨hhit, xs, ys, hsplit, hfront⟩ := List.find?_eq_some_iff_append.1 hfind
      exact ⟨xs, e, ys, hsplit, by simpa using hhit, fun x hx => by simpa using hfront x hx⟩

/-- The two searches agree exactly where the block they are for is the last one. -/
theorem searchesAgree_iff {es : List (Entry VMBlock)} (h : r.Tiled es) (a : Nat) (equl : Bool) :
    SearchesAgree r.blocks es a equl ↔ LastOnly es a equl := by
  obtain ⟨hleft, hright⟩ := @searches_eq_scan r.blocks es [] a equl h.layout h.prev
  unfold SearchesAgree LastOnly
  rw [hleft, hright, Option.some_inj, Option.some_inj]
  by_cases hnone : ∀ e ∈ es, ¬ Hits e.val a equl
  · rw [scan_eq_none hnone, scan_eq_none fun e he => hnone e (List.mem_reverse.1 he),
      blockAt_eq_none hnone]
    exact iff_of_true ⟨rfl, rfl⟩ fun e he hhit => absurd hhit (hnone e he)
  · obtain ⟨xs, e, ys, rfl, hhit, hfront⟩ := exists_first_hit hnone
    have hstop : Extent.stop e.val ≤ 2 ^ 64 :=
      Nat.le_trans (h.tiles.mem (List.mem_map_of_mem (by simp))).2 h.stop_le
    rw [blockAt_hit hhit hfront, scan_append (passes_front h.tiles hhit hfront),
      scan_hit hhit hstop (not_hits_behind h.tiles hhit)]
    rcases List.eq_nil_or_concat ys with rfl | ⟨zs, z, rfl⟩
    · -- the search from the right starts at the block
      have hrev : scan a equl (xs ++ [e]).reverse =
          if equl = false → Extent.stop e.val < 2 ^ 64 then some e.addr else none := by
        rw [List.reverse_append, List.reverse_singleton, List.singleton_append]
        exact scan_hit hhit hstop fun _ x hx => hfront x (List.mem_reverse.1 hx)
      rw [hrev, and_self, ite_eq_left_iff]
      constructor
      · intro hwrap e' he' hhit'
        rcases List.mem_append.1 he' with hx | hx
        · exact absurd hhit' (hfront e' hx)
        · obtain rfl := List.mem_singleton.1 hx
          exact ⟨List.getLast?_concat, not_not.1 fun hno => by cases hwrap hno⟩
      · intro hall hno
        exact absurd (hall e (by simp) hhit).2 hno
    · -- it meets the last block first
      have hnodup := (List.nodup_append.1 h.layout.nodup).1
      rw [List.concat_eq_append] at h hnodup ⊢
      have hne : z.addr ≠ e.addr := by
        intro haddr
        simp [haddr, List.nodup_append] at hnodup
      have hrev : (xs ++ e :: (zs ++ [z])).reverse = z :: (xs ++ e :: zs).reverse := by
        rw [← List.cons_append, ← List.append_assoc, List.reverse_append, List.reverse_singleton,
          List.singleton_append]
      rw [hrev]
      refine iff_of_false (fun hboth => ?_) fun hall => ?_
      · exact scan_later h.tiles hhit (by simp) hne hboth.2
      · have hend := (hall e (by simp) hhit).1
        rw [← List.cons_append, ← List.append_assoc, List.getLast?_concat] at hend
        exact hne (congrArg Entry.addr (Option.some.inj hend))

/-! ## A region of two blocks -/

def twoEntries (b c : VMBlock) : List (Entry VMBlock) := [⟨0, none, b⟩, ⟨1, some 0, c⟩]

def twoBlocks (b c : VMBlock) : VMRegion where
  base := b.base
  size := b.size + c.size
  attr := b.attr
  blocks :=
    { cells := fun a =>
        if a = 0 then some ⟨none, some 1, b⟩
        else if a = 1 then some ⟨some 0, none, c⟩
        else none
      fresh := 2
      first := some 0
      last := some 1 }

theorem tiled_twoBlocks {b c : VMBlock} (hmeet : c.base = b.base + b.size)
    (hstop : b.base + (b.size + c.size) ≤ 2 ^ 64) (hsize : b.size + c.size < 2 ^ 64) :
    (twoBlocks b c).Tiled (twoEntries b c) where
  layout :=
    { seg := ⟨rfl, rfl, trivial⟩
      first := rfl
      last := rfl
      nodup := by simp [twoEntries]
      owned := fun a => by
        simp only [twoBlocks, twoEntries, List.map_cons, List.map_nil, List.append_nil,
          List.mem_cons, List.not_mem_nil, or_false]
        split_ifs <;> simp_all
      fresh := fun a ha => by
        simp only [twoBlocks] at ha ⊢
        split_ifs at ha
        · omega
        · omega
        · cases ha }
  prev := ⟨rfl, rfl, trivial⟩
  tiles := ⟨rfl, hmeet, by
    show b.base + b.size + c.size = b.base + (b.size + c.size)
    omega⟩
  stop_le := hstop
  size_lt := hsize

/-- The search for the last of two pages -/
theorem searchesAgree_last :
    SearchesAgree (twoBlocks ⟨0x10000, 0x1000, 1#32⟩ ⟨0x11000, 0x1000, 4#32⟩).blocks
      (twoEntries ⟨0x10000, 0x1000, 1#32⟩ ⟨0x11000, 0x1000, 4#32⟩) 0x11800 false := by
  refine (searchesAgree_iff (tiled_twoBlocks rfl (by decide) (by decide)) 0x11800 false).2 ?_
  unfold LastOnly
  decide

/-- The search from the right for the first of two pages gives up at the second. -/
theorem findBlockR2L_misses :
    ¬ ∀ (r : VMRegion) (es : List (Entry VMBlock)) (a : Nat) (equl : Bool), r.Tiled es →
      SearchesAgree r.blocks es a equl := by
  intro hall
  have hagree := hall (twoBlocks ⟨0x10000, 0x1000, 1#32⟩ ⟨0x11000, 0x1000, 4#32⟩) _ 0x10000 true
    (tiled_twoBlocks rfl (by decide) (by decide))
  have hright : findBlockR2L (twoBlocks ⟨0x10000, 0x1000, 1#32⟩ ⟨0x11000, 0x1000, 4#32⟩).blocks
      0x10000 true none = some none := by decide
  rw [SearchesAgree, hright] at hagree
  have hfirst := Option.some.inj hagree.2
  revert hfirst
  decide

end VMRegion

end Vin64.Space
