import Vin64.Space.Proofs.Protect

/-!
# Merging blocks whose back pointers are stale

`merge` unlinks the second block of the region again and again, until the last one follows the
first.  Where the second block does not point back to the first one, `unlink` stores into
another block, or moves `_first`.
-/

namespace Vin64.Space

open Vin64.Utils Vin64.Utils.Dllist Vin64.Lib

namespace VMRegion

variable {l l' : Dllist VMBlock} {ys ms : List (Entry VMBlock)} {e m z : Entry VMBlock}
  {a lo : Nat}

/-- Only the first block starts with the region. -/
theorem base_ne_of_tiles {hi : Nat} (h : Extent.Tiles lo ((e :: ys).map Entry.val) hi)
    (hpos : ∀ b ∈ (e :: ys).map Entry.val, 0 < b.size) : ∀ y ∈ ys, y.val.base ≠ lo := by
  intro y hy
  have he := hpos e.val (by simp)
  have hlo : e.val.base = lo := h.1
  have hle := @Extent.Tiles.stop_le _ _ _ _ [] (ys.map Entry.val) e.val h y.val
    (List.mem_map_of_mem hy)
  simp only [VMBlock.extent_base, VMBlock.extent_stop] at hle
  omega

/-- No link leads to the object `a`, and no other block starts at `lo`. -/
structure Orphan (l : Dllist VMBlock) (a lo : Nat) : Prop where
  next : ∀ b n, l.cells b = some n → n.next ≠ some a
  base : ∀ b n, l.cells b = some n → b ≠ a → n.val.base ≠ lo

theorem orphan_head (h : Layout l (e :: ys) []) (hbase : ∀ y ∈ ys, y.val.base ≠ lo) :
    Orphan l e.addr lo := by
  have hnd := (List.nodup_append.1 h.nodup).1
  have hcell : ∀ b n, l.cells b = some n → ∃ x ws zs, e :: ys = ws ++ x :: zs ∧ b = x.addr ∧
      n = ⟨x.prev, ptrTo zs none, x.val⟩ := by
    intro b n hb
    have hmem := (h.owned b).1 (by rw [hb]; rfl)
    obtain ⟨x, hx, rfl⟩ := List.mem_map.1 (by simpa using hmem : b ∈ addrs (e :: ys))
    obtain ⟨ws, zs, hsplit⟩ := List.append_of_mem hx
    have hseg := h.seg
    rw [hsplit] at hseg
    exact ⟨x, ws, zs, hsplit, rfl, Option.some_inj.1 (hb.symm.trans (seg_cell hseg))⟩
  constructor
  · intro b n hb hnext
    obtain ⟨x, ws, zs, hsplit, rfl, rfl⟩ := hcell b n hb
    cases zs with
    | nil => cases hnext
    | cons z zs =>
        have haddr : z.addr = e.addr := Option.some_inj.1 hnext
        have hz : z ∈ e :: ys := by rw [hsplit]; simp
        obtain rfl := h.addr_inj hz List.mem_cons_self haddr
        cases ws with
        | nil =>
            obtain ⟨rfl, rfl⟩ : z = x ∧ ys = z :: zs := by simpa using hsplit
            simp at hnd
        | cons w ws =>
            obtain ⟨rfl, rfl⟩ : z = w ∧ ys = ws ++ x :: z :: zs := by simpa using hsplit
            simp at hnd
  · intro b n hb hne
    obtain ⟨x, ws, zs, hsplit, rfl, rfl⟩ := hcell b n hb
    have hx : x ∈ e :: ys := by rw [hsplit]; simp
    rcases List.mem_cons.1 hx with rfl | hx
    · exact absurd rfl hne
    · exact hbase x hx

theorem Orphan.modify (h : Orphan l a lo) {p : Ptr} {f : Node VMBlock → Node VMBlock}
    (hm : l.modify p f = some l') (hf : ∀ n, (f n).next = n.next ∧ (f n).val.base = n.val.base) :
    Orphan l' a lo ∧ l'.first = l.first := by
  have hcells := cells_of_modify hm
  have hkeep : ∀ b n', l'.cells b = some n' →
      ∃ n, l.cells b = some n ∧ n'.next = n.next ∧ n'.val.base = n.val.base := by
    intro b n' hb
    rw [hcells] at hb
    obtain ⟨n, hn, rfl⟩ := Option.map_eq_some_iff.1 hb
    refine ⟨n, hn, ?_⟩
    split_ifs
    · exact hf n
    · exact ⟨rfl, rfl⟩
  refine ⟨⟨fun b n' hb => ?_, fun b n' hb hne => ?_⟩, ?_⟩
  · obtain ⟨n, hn, hnext, -⟩ := hkeep b n' hb
    rw [hnext]
    exact h.next b n hn
  · obtain ⟨n, hn, -, hbase⟩ := hkeep b n' hb
    rw [hbase]
    exact h.base b n hn hne
  · obtain ⟨-, -, -, -, rfl⟩ := eq_of_modify hm
    rfl

theorem Orphan.unlink (h : Orphan l a lo) {b : Nat} {s : Node VMBlock}
    (hu : l.unlink (some b) = some l') (hs : l.cells b = some s) :
    Orphan l' a lo ∧ ((s.prev = none ∨ l.first ≠ some a) → l'.first ≠ some a) := by
  obtain ⟨hfirst, -, -, hcells⟩ := unlink_cells hu hs
  refine ⟨⟨fun c n' hc => ?_, fun c n' hc hne => ?_⟩, fun hor => ?_⟩
  · obtain ⟨n, hn, -, hnext⟩ := hcells c n' hc
    rw [hnext]
    split_ifs
    · exact h.next b s hs
    · exact h.next c n hn
  · obtain ⟨n, hn, hval, -⟩ := hcells c n' hc
    rw [hval]
    exact h.base c n hn hne
  · rw [hfirst]
    by_cases hp : s.prev = none
    · rw [if_pos hp]
      exact h.next b s hs
    · rw [if_neg hp]
      exact hor.resolve_left hp

/-- One round of the loop of `merge`. -/
theorem mergeLoop_succ {fuel : Nat} (hm : mergeLoop (fuel + 1) l = some l') :
    ∃ f, l.deref l.first = some f ∧ ((f.next = l.last ∧ l' = l) ∨ f.next ≠ l.last ∧
      ∃ n l₁ l₂, l.deref f.next = some n ∧
        l.modify l.first (fun f =>
          { f with val := { f.val with size := add64 f.val.size n.val.size } }) = some l₁ ∧
        l₁.unlink f.next = some l₂ ∧ mergeLoop fuel l₂ = some l') := by
  simp only [mergeLoop, Option.bind_eq_bind] at hm
  obtain ⟨f, hf, hm⟩ := Option.bind_eq_some_iff.1 hm
  refine ⟨f, hf, ?_⟩
  by_cases hlast : f.next = l.last
  · rw [if_pos hlast] at hm
    exact Or.inl ⟨hlast, (Option.some_inj.1 hm).symm⟩
  · rw [if_neg hlast] at hm
    obtain ⟨n, hn, hm⟩ := Option.bind_eq_some_iff.1 hm
    obtain ⟨l₁, h₁, hm⟩ := Option.bind_eq_some_iff.1 hm
    obtain ⟨l₂, h₂, hm⟩ := Option.bind_eq_some_iff.1 hm
    exact Or.inr ⟨hlast, n, l₁, l₂, hn, h₁, h₂, hm⟩

theorem Orphan.mergeLoop (h : Orphan l a lo) (hfirst : l.first ≠ some a) {fuel : Nat}
    (hm : mergeLoop fuel l = some l') : Orphan l' a lo ∧ l'.first ≠ some a := by
  induction fuel generalizing l with
  | zero => cases hm
  | succ fuel ih =>
      obtain ⟨f, -, ⟨-, rfl⟩ | ⟨-, n, l₁, l₂, -, h₁, h₂, hm⟩⟩ := mergeLoop_succ hm
      · exact ⟨h, hfirst⟩
      · obtain ⟨hl₁, hf₁⟩ := h.modify h₁ fun _ => ⟨rfl, rfl⟩
        cases hp : f.next with
        | none => simp [hp, Dllist.unlink, Dllist.deref] at h₂
        | some b =>
            rw [hp] at h₂
            cases hs : l₁.cells b with
            | none => simp [Dllist.unlink, Dllist.deref, hs] at h₂
            | some s =>
                obtain ⟨hl₂, hf₂⟩ := hl₁.unlink h₂ hs
                exact ih hl₂ (hf₂ (Or.inr (by rwa [hf₁]))) hm

theorem Orphan.not_tiles (h : Orphan l a lo) (hfirst : l.first ≠ some a) {hi : Nat}
    (hlo : lo < hi) : ¬ Extent.Tiles lo l.toList hi := by
  intro htiles
  cases hf : l.first with
  | none =>
      have hlist : l.toList = [] := by
        unfold Dllist.toList
        cases l.fresh <;> simp [Dllist.walk, Dllist.deref, hf]
      rw [hlist] at htiles
      exact htiles.ne_nil hlo rfl
  | some b =>
      unfold Dllist.toList at htiles
      cases hfresh : l.fresh with
      | zero =>
          rw [hfresh] at htiles
          exact htiles.ne_nil hlo rfl
      | succ k =>
          cases hb : l.cells b with
          | none =>
              simp only [hfresh, hf, Dllist.walk, Dllist.deref, Option.bind_some, hb] at htiles
              exact htiles.ne_nil hlo rfl
          | some n =>
              simp only [hfresh, hf, Dllist.walk, Dllist.deref, Option.bind_some, hb] at htiles
              have hne : b ≠ a := fun hba => hfirst (by rw [hf, hba])
              exact h.base b n hb hne htiles.1

/-- When the second block does not point back to the first one, `merge` follows a deleted
pointer or loses the first block. -/
theorem mergeLoop_stale (h : Layout l (e :: m :: (ms ++ [z])) []) (hprev : m.prev ≠ some e.addr)
    (hbase : ∀ y ∈ m :: (ms ++ [z]), y.val.base ≠ lo) {fuel : Nat}
    (hm : mergeLoop fuel l = some l') : Orphan l' e.addr lo ∧ l'.first ≠ some e.addr := by
  have hfirst : l.first = some e.addr := h.first
  have hd : l.deref (some e.addr) = some ⟨e.prev, some m.addr, e.val⟩ := h.deref_head
  have hlast : some m.addr ≠ l.last := by
    have hl : l.last = some z.addr := by
      rw [h.last, ← List.cons_append, ← List.cons_append, List.getLast?_concat]
      rfl
    rw [hl]
    intro hmz
    have hnd := (List.nodup_cons.1 (List.nodup_append.1 h.nodup).1).2
    simp [Option.some_inj.1 hmz] at hnd
  have hem : m.addr ≠ e.addr := by
    intro hme
    have hnd := (List.nodup_append.1 h.nodup).1
    simp [hme] at hnd
  cases fuel with
  | zero => cases hm
  | succ fuel =>
      rw [← hfirst] at hd
      obtain ⟨f, hf, hcase⟩ := mergeLoop_succ hm
      obtain rfl := Option.some_inj.1 (hd.symm.trans hf)
      obtain ⟨hl, -⟩ | ⟨-, n, l₁, l₂, hn, h₁, h₂, hm⟩ := hcase
      · exact absurd hl hlast
      · obtain ⟨ho₁, hf₁⟩ := (orphan_head h hbase).modify h₁ fun _ => ⟨rfl, rfl⟩
        have hmcell : l.cells m.addr = some ⟨m.prev, ptrTo (ms ++ [z]) none, m.val⟩ :=
          @seg_cell _ _ [e] m (ms ++ [z]) _ h.seg
        have hs : l₁.cells m.addr = some ⟨m.prev, ptrTo (ms ++ [z]) none, m.val⟩ := by
          have hne : l.first ≠ some m.addr := by simp [hfirst, Ne.symm hem]
          rw [cells_of_modify h₁, hmcell, Option.map_some, if_neg hne]
        obtain ⟨ho₂, hf₂⟩ := ho₁.unlink h₂ hs
        cases hp : m.prev with
        | none => exact ho₂.mergeLoop (hf₂ (Or.inl hp)) hm
        | some q =>
            -- the first block still links to the deleted one
            exfalso
            obtain ⟨hf, hl, hgone, hcells⟩ := unlink_cells h₂ hs
            have hlast₁ : l₁.last = l.last := by
              obtain ⟨-, -, -, -, rfl⟩ := eq_of_modify h₁
              rfl
            have hlast₂ : l₂.last = l.last := (hl (by cases ms <;> simp)).trans hlast₁
            have hfirst₂ : l₂.first = some e.addr := by
              rw [hf, if_neg (by rw [hp]; exact Option.some_ne_none q), hf₁, hfirst]
            cases fuel with
            | zero => cases hm
            | succ fuel =>
                obtain ⟨g, hg, hcase⟩ := mergeLoop_succ hm
                rw [hfirst₂] at hg
                obtain ⟨g₁, hg₁, -, hnext⟩ := hcells e.addr g hg
                rw [cells_of_modify h₁, show l.cells e.addr = _ from h.deref_head,
                  Option.map_some, if_pos hfirst] at hg₁
                have hgm : g.next = some m.addr := by
                  rw [hnext, if_neg hprev, ← Option.some_inj.1 hg₁]
                  rfl
                rw [hgm, hlast₂] at hcase
                obtain ⟨hl, -⟩ | ⟨-, n', -, -, hn', -⟩ := hcase
                · exact hlast hl
                · rw [show l₂.deref (some m.addr) = none from hgone] at hn'
                  cases hn'

/-- The loop makes one block of all but the last one. -/
theorem mergeLoop_range (h : Layout l (e :: (ms ++ [z])) [])
    (hp : ms ≠ [] → HeadPrev (some e.addr) (ms ++ [z]))
    (hs : e.val.size + Extent.total (ms.map Entry.val) < 2 ^ 64) :
    ∃ l' z', mergeLoop (l.fresh + 1) l = some l' ∧
      Layout l' [{ e with val := { e.val with
        size := e.val.size + Extent.total (ms.map Entry.val) } }, z'] [] ∧
      z'.val = z.val ∧ z'.addr = z.addr := by
  have hlen := h.length_le_fresh
  simp only [List.length_cons, List.length_append, List.length_nil] at hlen
  cases ms with
  | nil =>
      have hfirst : l.first = some e.addr := h.first
      have hlast : l.last = some z.addr := h.last
      refine ⟨l, z, ?_, by simpa using h, rfl, rfl⟩
      simp [mergeLoop, hfirst, hlast, h.deref_head]
  | cons m ms =>
      obtain ⟨l', z', hl', h', -, hval, haddr⟩ := mergeLoop_layout h (hp (by simp))
        (show (m :: ms).length < l.fresh + 1 by simp at hlen ⊢; omega) hs
      exact ⟨l', z', hl', h', hval, haddr⟩

end VMRegion

end Vin64.Space
