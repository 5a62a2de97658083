import Mathlib.Data.List.TakeWhile
import Vin64.Space.Proofs.Protect
import Vin64.Space.Proofs.FindBlock

/-!
# When merging neighbours does not show

`mergeSameProtect` compares protections only, so the block behind may bring other attribute
bits with it; and it absorbs no block in front.
-/

namespace Vin64.Space

open Vin64.Utils Vin64.Utils.Dllist Vin64.Lib

namespace VMRegion

variable {r : VMRegion} {l : Dllist VMBlock} {xs ys run rest es : List (Entry VMBlock)}
  {e : Entry VMBlock}

/-- What the blocks behind `e` are for the first loop: those it absorbs, and the others. -/
structure Behind (e : Entry VMBlock) (run rest : List (Entry VMBlock)) : Prop where
  run : ∀ v ∈ run.map Entry.val, v.prot = e.val.prot
  rest : ∀ v ∈ (rest.map Entry.val).head?, v.prot ≠ e.val.prot

theorem exists_behind (e : Entry VMBlock) (ys : List (Entry VMBlock)) :
    ∃ run rest, ys = run ++ rest ∧ Behind e run rest ∧
      absorbed e.val.prot (ys.map Entry.val) = run.map Entry.val := by
  refine ⟨ys.takeWhile fun y => y.val.prot = e.val.prot, ys.dropWhile fun y =>
    y.val.prot = e.val.prot, List.takeWhile_append_dropWhile.symm, ⟨?_, ?_⟩, ?_⟩
  · intro v hv
    obtain ⟨y, hy, rfl⟩ := List.mem_map.1 hv
    simpa using List.mem_takeWhile_imp hy
  · intro v hv
    cases hdrop : ys.dropWhile (fun y => decide (y.val.prot = e.val.prot)) with
    | nil => simp [hdrop] at hv
    | cons d ds =>
        have hhead := List.head_dropWhile_not (fun y : Entry VMBlock => decide
          (y.val.prot = e.val.prot)) (l := ys) (by simp [hdrop])
        simp only [hdrop, List.head_cons, decide_eq_false_iff_not] at hhead
        simp only [hdrop, List.map_cons, List.head?_cons, Option.mem_some_iff] at hv
        exact hv ▸ hhead
  · rw [absorbed, List.takeWhile_map]
    rfl

/-- There is a block of another protection behind `e` unless all are absorbed. -/
theorem Behind.exists_other (h : Behind e run rest) :
    (∃ d ∈ (run ++ rest).map Entry.val, d.prot ≠ e.val.prot) ↔ rest ≠ [] := by
  cases rest with
  | nil =>
      refine iff_of_false ?_ (by simp)
      rintro ⟨d, hd, hne⟩
      exact hne (h.run d (by simpa using hd))
  | cons d rest =>
      exact iff_of_true ⟨d.val, by simp, h.rest d.val (by simp)⟩ (by simp)

theorem Tiled.prev_eq (h : r.Tiled (xs ++ e :: ys)) : e.prev = endPtr none xs :=
  (prevOk_append.1 h.prev).2.1

theorem Tiled.headPrev (h : r.Tiled (xs ++ e :: ys)) : HeadPrev (some e.addr) ys :=
  (prevOk_append.1 h.prev).2.2.headPrev

/-- What is absorbed has room in 64 bits. -/
theorem Tiled.total_lt (h : r.Tiled (xs ++ e :: (run ++ rest))) :
    e.val.size + Extent.total (run.map Entry.val) < 2 ^ 64 := by
  have htotal := h.tiles.stop_eq
  have hsize := h.size_lt
  simp only [List.map_append, List.map_cons, Extent.total_append, Extent.total_cons,
    VMBlock.extent_size] at htotal
  omega

/-- The block that has absorbed the ones behind it shows their attribute words only where they
are its own. -/
theorem Tiled.sameAttrs_iff (h : r.Tiled (xs ++ e :: (run ++ rest)))
    {rest' : List (Entry VMBlock)} {size : Nat}
    (hsize : size = e.val.size + Extent.total (run.map Entry.val))
    (hl : Layout l (xs ++ { e with val := { e.val with size := size } } :: rest') [])
    (hrest : rest'.map Entry.val = rest.map Entry.val) :
    r.SameAttrs { r with blocks := l } ↔
      ∀ c ∈ run.map Entry.val, 0 < c.size → c.attr = e.val.attr := by
  have ht : Extent.Tiles r.base (xs.map Entry.val ++ e.val :: (run.map Entry.val ++
      rest.map Entry.val)) (r.base + r.size) := by simpa using h.tiles
  have ht' := ht.merge (y := { e.val with size := size }) rfl hsize
  have hold : ∀ a, r.attrAt a = (Extent.lookup (xs.map Entry.val ++ e.val ::
      (run.map Entry.val ++ rest.map Entry.val)) a).map VMBlock.attr := by
    intro a
    have hlookup := @attrAt_layout r r.blocks _ h.layout (by simp) a
    simpa using hlookup
  have hnew : ∀ a, { r with blocks := l }.attrAt a = (Extent.lookup (xs.map Entry.val ++
      { e.val with size := size } :: rest.map Entry.val) a).map VMBlock.attr := by
    intro a
    have hlookup := @attrAt_layout r l _ hl (by simp) a
    simpa [hrest] using hlookup
  have hcover := Extent.map_lookup_eq_iff ht' ht VMBlock.attr VMBlock.attr
  unfold SameAttrs
  simp only [true_and, hold, hnew]
  rw [hcover, Extent.cover_append, Extent.cover_append, List.append_cancel_left_eq,
    Extent.cover_cons, Extent.cover_cons, Extent.cover_append, VMBlock.extent_size,
    VMBlock.extent_size, hsize, List.replicate_add, List.append_assoc, List.append_cancel_left_eq,
    List.append_cancel_right_eq, eq_comm]
  exact Extent.cover_eq_replicate_iff

theorem deref_endPtr {e' : Entry VMBlock} {rest' : List (Entry VMBlock)}
    (hl : Layout l (xs ++ e' :: rest') []) :
    (l.deref (endPtr none xs)).map Node.val = (xs.map Entry.val).getLast? := by
  rcases List.eq_nil_or_concat xs with rfl | ⟨ws, w, rfl⟩
  · rfl
  · rw [List.concat_eq_append] at hl ⊢
    rw [endPtr_concat, List.map_append, List.map_singleton, List.getLast?_concat]
    rw [List.append_assoc, List.singleton_append] at hl
    rw [hl.deref]
    rfl

theorem deref_ptrTo {e' : Entry VMBlock} {rest' : List (Entry VMBlock)}
    (hl : Layout l (xs ++ e' :: rest') []) :
    (l.deref (ptrTo rest' none)).map Node.val = (rest'.map Entry.val).head? := by
  cases rest' with
  | nil => rfl
  | cons d rest' =>
      have hd : Layout l ((xs ++ [e']) ++ d :: rest') [] := by simpa using hl
      rw [ptrTo_cons, hd.deref]
      rfl

/-- The blocks beside the one that has absorbed others -/
theorem neighbours_iff {e' : Entry VMBlock} {rest' : List (Entry VMBlock)}
    (hl : Layout l (xs ++ e' :: rest') []) (hprev : e'.prev = endPtr none xs)
    (hrest : ∀ v ∈ (rest'.map Entry.val).head?, v.prot ≠ e'.val.prot) :
    (∃ q, l.deref (some e'.addr) = some q ∧
      (∀ n, l.deref q.next = some n → n.val.attr ≠ q.val.attr) ∧
      ∀ n, l.deref q.prev = some n → n.val.attr ≠ q.val.attr) ↔
    ∀ c ∈ (xs.map Entry.val).getLast?, c.attr ≠ e'.val.attr := by
  have hnext : ∀ n, l.deref (ptrTo rest' none) = some n → n.val.attr ≠ e'.val.attr := by
    intro n hn hattr
    have hhead := deref_ptrTo hl
    rw [hn] at hhead
    refine hrest n.val (by rw [← hhead]; rfl) ?_
    rw [VMBlock.prot, hattr, VMBlock.prot]
  have hlast := deref_endPtr hl
  rw [← hprev] at hlast
  rw [hl.deref, ← hlast]
  constructor
  · rintro ⟨q, hq, -, hback⟩ c hc
    obtain rfl := Option.some.inj hq
    obtain ⟨n, hn, rfl⟩ := Option.map_eq_some_iff.1 hc
    exact hback n hn
  · intro hall
    refine ⟨_, rfl, hnext, fun n hn => hall n.val ?_⟩
    rw [hn]
    rfl

/-- Merging does not show exactly when `CoalesceOk` holds of the blocks around. -/
theorem coalesces_iff (h : r.Tiled (xs ++ e :: ys)) :
    r.Coalesces (some e.addr) ↔ CoalesceOk (xs.map Entry.val) e.val (ys.map Entry.val) := by
  obtain ⟨run, rest, rfl, hbehind, habsorbed⟩ := exists_behind e ys
  have hhead := h.headPrev
  have hroom := h.total_lt
  unfold CoalesceOk
  rw [habsorbed, hbehind.exists_other]
  by_cases hfault : rest = [] ∧ e.prev ≠ none
  · -- all behind is absorbed, and the second loop follows the null link
    obtain ⟨rfl, hprev⟩ := hfault
    have hnone : mergeSameProtect r.blocks (some e.addr) = none :=
      mergeSameProtect_last (by simpa using h.layout) (fun _ => by simpa using hhead)
        hbehind.run hroom hprev
    refine iff_of_false ?_ ?_
    · rintro ⟨l, q, hl, -⟩
      rw [hnone] at hl
      cases hl
    · rintro ⟨-, hlast⟩
      rw [h.prev_eq] at hprev
      obtain ⟨ws, w, rfl⟩ := (List.eq_nil_or_concat xs).resolve_left fun hxs =>
        hprev (endPtr_none.2 hxs)
      exact (hlast w.val (by simp)).2 rfl
  · have hok : rest = [] → e.prev = none := fun hrest => not_not.1 fun hne => hfault ⟨hrest, hne⟩
    obtain ⟨l, rest', hl, hlayout, hvals⟩ := mergeSameProtect_layout h.layout (fun _ => hhead)
      hbehind.run hbehind.rest hroom hok
    have hsame := h.sameAttrs_iff rfl hlayout hvals
    have hbeside := neighbours_iff hlayout h.prev_eq (by rw [hvals]; exact hbehind.rest)
    have hcall : r.Coalesces (some e.addr) ↔
        r.SameAttrs { r with blocks := l } ∧ ∃ q, l.deref (some e.addr) = some q ∧
          (∀ n, l.deref q.next = some n → n.val.attr ≠ q.val.attr) ∧
          ∀ n, l.deref q.prev = some n → n.val.attr ≠ q.val.attr := by
      constructor
      · rintro ⟨l', q, hl', hattrs, hq⟩
        obtain rfl := Option.some.inj (hl.symm.trans hl')
        exact ⟨hattrs, q, hq⟩
      · rintro ⟨hattrs, q, hq⟩
        exact ⟨l, q, hl, hattrs, hq⟩
    rw [hcall, hsame]
    refine and_congr_right fun _ => hbeside.trans ?_
    refine forall₂_congr fun c hc => (and_iff_left ?_).symm
    -- with a block in front of it `e` is not the first
    intro hrest
    have hnone := hok hrest
    rw [h.prev_eq, endPtr_none] at hnone
    rw [hnone] at hc
    cases hc

/-- The first of two blocks with one attribute word absorbs the other. -/
theorem coalesces_first :
    (twoBlocks ⟨0x10000, 0x1000, 0x1004#32⟩ ⟨0x11000, 0x1000, 0x1004#32⟩).Coalesces (some 0) := by
  have h := @coalesces_iff _ [] [⟨1, some 0, ⟨0x11000, 0x1000, 0x1004#32⟩⟩]
    ⟨0, none, ⟨0x10000, 0x1000, 0x1004#32⟩⟩
    (@tiled_twoBlocks ⟨0x10000, 0x1000, 0x1004#32⟩ ⟨0x11000, 0x1000, 0x1004#32⟩ rfl (by decide)
      (by decide))
  refine h.2 ⟨?_, by simp⟩
  decide

/-- The last block of a region has no `_next`, and the second loop reads it all the same. -/
theorem coalesces_fails_last :
    ¬ ∀ (r : VMRegion) (xs ys : List (Entry VMBlock)) (e : Entry VMBlock),
      r.Tiled (xs ++ e :: ys) → r.Coalesces (some e.addr) := by
  intro hall
  obtain ⟨l, q, hl, -⟩ := hall
    (twoBlocks ⟨0x10000, 0x1000, 0x1001#32⟩ ⟨0x11000, 0x1000, 0x1004#32⟩)
    [⟨0, none, ⟨0x10000, 0x1000, 0x1001#32⟩⟩] [] ⟨1, some 0, ⟨0x11000, 0x1000, 0x1004#32⟩⟩
    (@tiled_twoBlocks ⟨0x10000, 0x1000, 0x1001#32⟩ ⟨0x11000, 0x1000, 0x1004#32⟩ rfl (by decide)
      (by decide))
  have hnone : (mergeSameProtect (twoBlocks ⟨0x10000, 0x1000, 0x1001#32⟩
      ⟨0x11000, 0x1000, 0x1004#32⟩).blocks (some 1)).isSome = false := by
    decide
  rw [hl] at hnone
  cases hnone

end VMRegion

end Vin64.Space
