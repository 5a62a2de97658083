import Vin64.Space.BlockFree
import Vin64.Space.Proofs.ProtectFails
import Vin64.Space.Proofs.Merging

/-!
# When `vmfree` keeps its contract

The call cuts the block of the base at the base, and the part behind the cut again, at the
distance of the last address from the start of its block.  Where that distance is 0 it merges
blocks instead.
-/

namespace Vin64.Space

open Vin64.Utils Vin64.Utils.Dllist Vin64.Lib

/-! ## Page boundaries -/

theorem pageAligned_append {bs cs : List VMBlock} :
    PageAligned (bs ++ cs) ↔ PageAligned bs ∧ PageAligned cs :=
  List.forall_mem_append

theorem pageAligned_cons {b : VMBlock} {bs : List VMBlock} :
    PageAligned (b :: bs) ↔
      (b.base % 0x1000 = 0 ∧ (b.base + b.size) % 0x1000 = 0) ∧ PageAligned bs :=
  List.forall_mem_cons

/-- A cut at a page boundary neither adds nor removes unaligned ones. -/
theorem pageAligned_cutAt {a : Nat} (ha : a % 0x1000 = 0) (bs : List VMBlock) :
    PageAligned (cutAt a bs).1 ∧ PageAligned (cutAt a bs).2 ↔ PageAligned bs := by
  induction bs with
  | nil => simp [cutAt, PageAligned]
  | cons b bs ih =>
      by_cases hstop : b.base + b.size ≤ a
      · simp only [cutAt, if_pos hstop, pageAligned_cons, and_assoc, ih]
      · by_cases hin : b.base < a
        · have hlen : b.base + (a - b.base) = a := by omega
          have hlen' : a + (b.base + b.size - a) = b.base + b.size := by omega
          simp only [cutAt, if_neg hstop, if_pos hin, pageAligned_cons, hlen, hlen', ha]
          simp [PageAligned, and_assoc]
        · simp [cutAt, hstop, hin, PageAligned]

namespace VMRegion

variable {r : VMRegion} {bs : List VMBlock} {l : Dllist VMBlock}
  {xs ys es : List (Entry VMBlock)} {e t : Entry VMBlock} {base size : Nat}

/-! ## Comparing the attributes -/

theorem ite_eq_ite {α : Type} {p q : Prop} [Decidable p] [Decidable q] {x y : α} :
    (if p then x else y) = (if q then x else y) ↔ (¬ (p ↔ q) → x = y) := by
  by_cases hp : p <;> by_cases hq : q <;> simp [hp, hq, eq_comm]

theorem not_frees_of_none (h : r.vmfree base size = none) : ¬ r.Frees base size := by
  rintro ⟨r', hr', -⟩
  rw [h] at hr'
  cases hr'

theorem frees_iff_of_layout
    (hattr : ∀ a, r.base ≤ a → a < r.base + r.size →
      r.attrAt a = (Extent.lookup bs a).map VMBlock.attr)
    (hr : r.vmfree base size = some (0, { r with blocks := l })) (hl : Layout l es [])
    (hne : es ≠ []) :
    r.Frees base size ↔
      Extent.Tiles r.base (es.map Entry.val) (r.base + r.size) ∧ PageAligned (es.map Entry.val) ∧
        ∀ a, r.base ≤ a → a < r.base + r.size →
          (Extent.lookup (es.map Entry.val) a).map VMBlock.attr =
            ((Extent.lookup bs a).map VMBlock.attr).map fun attr =>
              if base ≤ a ∧ a < base + size then reserve attr else attr := by
  have hlist : l.toList = es.map Entry.val := hl.toList
  constructor
  · rintro ⟨r', hr', hall, htiles, halign⟩
    rw [hr] at hr'
    obtain rfl : { r with blocks := l } = r' := by simpa using hr'
    simp only [hlist] at htiles halign
    refine ⟨htiles, halign, fun a hlo hhi => ?_⟩
    rw [← attrAt_layout hl hne a, ← hattr a hlo hhi, hall a hlo hhi]
  · rintro ⟨htiles, halign, hall⟩
    rw [← hlist] at htiles halign
    refine ⟨_, hr, fun a hlo hhi => ?_, htiles, halign⟩
    rw [attrAt_layout hl hne a, hattr a hlo hhi, hall a hlo hhi]

/-- The call that reserves the block cut out at the base. -/
theorem frees_cut_iff (h : Extent.Tiles r.base bs (r.base + r.size)) (hpos : ∀ b ∈ bs, 0 < b.size)
    (hattr : ∀ a, r.base ≤ a → a < r.base + r.size →
      r.attrAt a = (Extent.lookup bs a).map VMBlock.attr)
    (hlo : r.base ≤ base) (halign : base % 0x1000 = 0) {b : VMBlock} {w : Nat}
    (hw : w ≤ Extent.stop b - base) (hhi : base + w ≤ r.base + r.size)
    {rest : List VMBlock}
    (hcut : cutAt (base + w) (cutAt base bs).2 = ([⟨base, w, b.attr⟩], rest))
    (hr : r.vmfree base size = some (0, { r with blocks := l })) (hl : Layout l es [])
    (hes : es.map Entry.val = (cutAt base bs).1 ++ ⟨base, w, reserve b.attr⟩ :: rest) :
    r.Frees base size ↔ CutOk bs b base size w := by
  obtain ⟨h₁, h₂, hc₁, -, hp₁⟩ := cutAt_tiles h hpos hlo (Nat.le_trans (Nat.le_add_right _ w) hhi)
  obtain ⟨h₃, h₄, hc₂, -, -⟩ := cutAt_tiles h₂ hp₁ (Nat.le_add_right base w) hhi
  have halignCut := pageAligned_cutAt halign bs
  have hne : es ≠ [] := by
    rintro rfl
    simp at hes
  have hfront : base = r.base + Extent.total (cutAt base bs).1 := h₁.stop_eq
  simp only [hcut] at h₃ h₄ hc₂
  have htiles : Extent.Tiles r.base
      ((cutAt base bs).1 ++ ([⟨base, w, b.attr⟩] ++ rest)) (r.base + r.size) := by
    rw [Extent.tiles_append, ← hfront]
    exact ⟨h₁, rfl, h₄⟩
  have hres : Extent.Tiles r.base (es.map Entry.val) (r.base + r.size) := by
    rw [hes, Extent.tiles_append, ← hfront]
    exact ⟨h₁, rfl, h₄⟩
  -- what the region shows after the call
  have hshow : ∀ a, r.base ≤ a → a < r.base + r.size →
      (Extent.lookup (es.map Entry.val) a).map VMBlock.attr =
        ((Extent.lookup bs a).map VMBlock.attr).map fun attr =>
          if base ≤ a ∧ a < base + w then reserve attr else attr := by
    have hold := (Extent.map_lookup_eq_iff h htiles VMBlock.attr VMBlock.attr).2 (by
      rw [Extent.cover_append, Extent.cover_append, hc₂, hc₁])
    have hnew := (Extent.map_lookup_update_iff hres htiles VMBlock.attr reserve).2 (by
      simp [hes])
    simp only [← hfront, Extent.total_cons, Extent.total_nil, VMBlock.extent_size,
      Nat.add_zero] at hnew
    intro a ha hb
    rw [hnew a ha hb, hold a ha hb]
  have hattrs : (∀ a, r.base ≤ a → a < r.base + r.size →
      (Extent.lookup (es.map Entry.val) a).map VMBlock.attr =
        ((Extent.lookup bs a).map VMBlock.attr).map fun attr =>
          if base ≤ a ∧ a < base + size then reserve attr else attr) ↔
      ∀ c ∈ bs, ∀ a, Extent.Covers c a →
        ¬ ((base ≤ a ∧ a < base + w) ↔ (base ≤ a ∧ a < base + size)) →
          reserve c.attr = c.attr := by
    have hpoint := h.forall_lookup fun a b =>
      (b.map VMBlock.attr).map (fun attr =>
          if base ≤ a ∧ a < base + w then reserve attr else attr) =
        (b.map VMBlock.attr).map fun attr =>
          if base ≤ a ∧ a < base + size then reserve attr else attr
    simp only [Option.map_some, Option.some_inj, ite_eq_ite] at hpoint
    rw [← hpoint]
    exact forall₃_congr fun a hlo hhi => by rw [hshow a hlo hhi]
  -- the boundaries of the blocks after the call
  have hpages : PageAligned (es.map Entry.val) ↔ w % 0x1000 = 0 ∧ PageAligned bs := by
    rw [hes, pageAligned_append, pageAligned_cons, ← halignCut]
    have hend : (base + w) % 0x1000 = 0 ↔ w % 0x1000 = 0 := by omega
    constructor
    · rintro ⟨hf, ⟨-, hs⟩, hr⟩
      have hback := pageAligned_cutAt hs (cutAt base bs).2
      rw [hcut] at hback
      exact ⟨hend.1 hs, hf, hback.1 ⟨pageAligned_cons.2 ⟨⟨halign, hs⟩, by simp [PageAligned]⟩, hr⟩⟩
    · rintro ⟨hw, hf, hb⟩
      have hs := hend.2 hw
      have hback := pageAligned_cutAt hs (cutAt base bs).2
      rw [hcut] at hback
      exact ⟨hf, ⟨halign, hs⟩, (hback.2 hb).2⟩
  rw [frees_iff_of_layout hattr hr hl hne, hattrs, hpages, CutOk]
  constructor
  · rintro ⟨-, ⟨hw', hbs⟩, hall⟩
    exact ⟨hw, hw', hbs, hall⟩
  · rintro ⟨-, hw', hbs, hall⟩
    exact ⟨hres, ⟨hw', hbs⟩, hall⟩

/-! ## The call -/

theorem vmfree_eq {l₁ : Dllist VMBlock} {first last p : Ptr}
    (hinit : r.initBlock = some { r with blocks := l })
    (hfirst : findBlockL2R l base false none = some first)
    (hlast : findBlockL2R l (sub64 (add64 base size) 1) false first = some last)
    (hfront : cutFront l first base = some (p, l₁)) :
    r.vmfree base size =
      (cutLast l₁ p last (sub64 (add64 base size) 1)).bind fun q =>
        (setReserve q.2 p q.1).map fun l => (0, { r with blocks := l }) := by
  simp only [vmfree, hinit, hfirst, hlast, hfront, Option.bind_eq_bind, Option.bind_some]
  cases cutLast l₁ p last (sub64 (add64 base size) 1) with
  | none => rfl
  | some q =>
      simp only [Option.bind_some]
      cases setReserve q.2 p q.1 <;> rfl

/-- No block is found for the base, and the null pointer is followed. -/
theorem vmfree_first_null (hinit : r.initBlock = some { r with blocks := l })
    (hfirst : findBlockL2R l base false none = some none) : r.vmfree base size = none := by
  simp only [vmfree, hinit, hfirst, Option.bind_eq_bind, Option.bind_some]
  cases findBlockL2R l (sub64 (add64 base size) 1) false none <;> rfl

/-- No block is found for the last address, and the null pointer is followed. -/
theorem vmfree_last_null {first : Ptr} (hinit : r.initBlock = some { r with blocks := l })
    (hfirst : findBlockL2R l base false none = some first)
    (hlast : findBlockL2R l (sub64 (add64 base size) 1) false first = some none) :
    r.vmfree base size = none := by
  simp only [vmfree, hinit, hfirst, hlast, Option.bind_eq_bind, Option.bind_some]
  cases cutFront l first base <;> rfl

theorem setReserve_layout (h : Layout l (xs ++ e :: ys) []) :
    ∃ l', (do
        let l ← l.modify (some e.addr) fun f =>
          { f with val := { f.val with attr := f.val.attr &&& ~~~WVM_STATE_MASK } }
        l.modify (some e.addr) fun f =>
          { f with val := { f.val with attr := f.val.attr ||| MEM_RESERVE } }) = some l' ∧
      Layout l' (xs ++ { e with val := { e.val with attr := reserve e.val.attr } } :: ys) [] := by
  obtain ⟨l₁, hl₁, h₁, -⟩ := h.modify_val
    (fun f => { f with attr := f.attr &&& ~~~WVM_STATE_MASK })
  obtain ⟨l₂, hl₂, h₂, -⟩ := h₁.modify_val (fun f => { f with attr := f.attr ||| MEM_RESERVE })
  exact ⟨l₂, by simp [hl₁, hl₂], h₂⟩

theorem setReserve_one (h : Layout l (xs ++ e :: ys) []) :
    ∃ l', setReserve l (some e.addr) (some e.addr) = some l' ∧
      Layout l' (xs ++ { e with val := { e.val with attr := reserve e.val.attr } } :: ys) [] := by
  obtain ⟨l', hl', h'⟩ := setReserve_layout h
  exact ⟨l', by simpa [setReserve, mergeRange] using hl', h'⟩

/-- The split for the last address cuts the first block of the range, whichever block the
address lies in. -/
theorem cutLast_gap {a tbase : Nat} {n : Node VMBlock} (h : Layout l (xs ++ e :: ys) [])
    (hd : l.deref (some a) = some n) (hgap : sub64 tbase n.val.base ≠ 0) :
    let gap := sub64 tbase n.val.base
    ∃ l' qs, cutLast l (some e.addr) (some a) tbase = some (some e.addr, l') ∧
      Layout l' (xs ++ { e with val := { e.val with size := gap } } :: qs) [] ∧
      ((gap = e.val.size ∧ qs = ys) ∨ (gap ≠ e.val.size ∧ ∃ c, qs = ⟨c, some e.addr,
        ⟨add64 e.val.base gap, sub64 e.val.size gap, e.val.attr⟩⟩ :: ys)) := by
  intro gap
  have hcall : cutLast l (some e.addr) (some a) tbase =
      (split l (some e.addr) gap).bind fun v => some (v.1.1, v.2) := by
    simp only [cutLast, hd, Option.bind_eq_bind, Option.bind_some]
    rw [if_pos hgap]
    rfl
  by_cases hsize : gap = e.val.size
  · refine ⟨l, ys, ?_, ?_, Or.inl ⟨hsize, rfl⟩⟩
    · rw [hcall]
      simp [split, h.deref, hsize]
    · rw [hsize]
      exact h
  · obtain ⟨l', c, hl', h'⟩ := split_wraps h hsize
    exact ⟨l', _, by rw [hcall, hl']; rfl, h', Or.inr ⟨hsize, c, rfl⟩⟩

theorem cutLast_zero {first : Ptr} {a tbase : Nat} {n : Node VMBlock}
    (hd : l.deref (some a) = some n) (hgap : sub64 tbase n.val.base = 0) :
    cutLast l first (some a) tbase = some (some a, l) := by
  simp [cutLast, hd, hgap]

/-- The state of the call after the cut at `base`. -/
structure FreeCut (r : VMRegion) (l : Dllist VMBlock) (xs : List (Entry VMBlock))
    (e : Entry VMBlock) (ys : List (Entry VMBlock)) (base : Nat) (l₁ : Dllist VMBlock)
    (fs : List (Entry VMBlock)) (f : Entry VMBlock) : Prop where
  init : r.initBlock = some { r with blocks := l }
  shows : r.Shows l (xs ++ e :: ys)
  covers : Extent.Covers e.val base
  stop_lt : Extent.stop e.val < 2 ^ 64
  find : findBlockL2R l base false none = some (some e.addr)
  cut : cutFront l (some e.addr) base = some (some f.addr, l₁)
  layout : Layout l₁ (fs ++ f :: ys) []
  val : f.val = ⟨base, Extent.stop e.val - base, e.val.attr⟩
  cases : (base = e.val.base ∧ fs = xs ∧ f = e ∧ l₁ = l) ∨
    (e.val.base < base ∧ f.prev = some e.addr ∧
      fs = xs ++ [{ e with val := { e.val with size := base - e.val.base } }])

theorem freeCut (hinit : r.initBlock = some { r with blocks := l })
    (h : r.Shows l (xs ++ e :: ys)) (hc : Extent.Covers e.val base)
    (hstop : Extent.stop e.val < 2 ^ 64) : ∃ l₁ fs f, r.FreeCut l xs e ys base l₁ fs f := by
  have htiles := h.tiles
  simp only [List.map_append, List.map_cons] at htiles
  have hxs : ∀ x ∈ xs, x.val.base + x.val.size ≤ base := fun x hx =>
    htiles.stop_le_of_covers hc (List.mem_map_of_mem hx)
  have hfind := @findBlockL2R_covers l [] ys xs e [] h.layout base hxs hc hstop none
    (by simpa using h.layout.first)
  obtain ⟨l₁, fs, f, hcut, h₁, hf, hcase⟩ := cutFront_parts h.layout hc hstop
  exact ⟨l₁, fs, f, hinit, h, hc, hstop, hfind, hcut, h₁, hf, hcase⟩

theorem FreeCut.cutAt {l₁ : Dllist VMBlock} {fs : List (Entry VMBlock)} {f : Entry VMBlock}
    (h : r.FreeCut l xs e ys base l₁ fs f) :
    cutAt base ((xs ++ e :: ys).map Entry.val) = (fs.map Entry.val, (f :: ys).map Entry.val) := by
  refine cutAt_cutFront h.shows.tiles h.shows.pos h.covers h.val ?_
  rcases h.cases with ⟨hb, hfs, rfl, -⟩ | ⟨hlt, -, hfs⟩
  · exact Or.inl ⟨hb, hfs, rfl⟩
  · exact Or.inr ⟨hlt, _, hfs, rfl, rfl⟩

/-- What the call comes to when it reserves the first block of the range, cut at `w`. -/
theorem FreeCut.frees_iff {l₁ l₂ : Dllist VMBlock} {fs qs : List (Entry VMBlock)}
    {f g : Entry VMBlock} (h : r.FreeCut l xs e ys base l₁ fs f) (hsize : r.size < 2 ^ 64)
    (halign : base % 0x1000 = 0) {w : Nat} (hw : 0 < w)
    (hr : r.vmfree base size = some (0, { r with blocks := l₂ }))
    (h₂ : Layout l₂ (fs ++ g :: qs) []) (hg : g.val = ⟨base, w, reserve e.val.attr⟩)
    (hqs : (w = f.val.size ∧ qs = ys) ∨ (w ≠ f.val.size ∧ ∃ c, qs = ⟨c, some f.addr,
      ⟨add64 base w, sub64 f.val.size w, f.val.attr⟩⟩ :: ys)) :
    r.Frees base size ↔ CutOk ((xs ++ e :: ys).map Entry.val) e.val base size w := by
  have hmem := h.shows.tiles.mem (List.mem_map_of_mem (List.mem_append_right xs
    (List.mem_cons_self (a := e) (l := ys))))
  obtain ⟨hlo, hhi⟩ := h.covers
  have hstop := h.stop_lt
  have hfb : f.val.base = base := by rw [h.val]
  have hfs : Extent.stop f.val = Extent.stop e.val := by
    rw [h.val]
    show base + (Extent.stop e.val - base) = Extent.stop e.val
    omega
  have hsum : Extent.stop f.val = base + f.val.size := by rw [VMBlock.extent_stop, hfb]
  have hgs : Extent.stop g.val = base + w := by rw [hg]; rfl
  by_cases hle : w ≤ Extent.stop e.val - base
  · obtain ⟨-, htiles, -, -, hpos⟩ := cutAt_tiles h.shows.tiles h.shows.pos
      (Nat.le_trans hmem.1 hlo) (Nat.le_trans (Nat.le_of_lt hhi) hmem.2)
    rw [h.cutAt] at htiles hpos
    have hlast : base + w - 1 + 1 = base + w := by omega
    have hcut := @cutAt_cutBack [] ys f _ _ (base + w - 1) ⟨f.addr, f.prev, ⟨base, w, e.val.attr⟩⟩
      qs htiles hpos ⟨by rw [VMBlock.extent_base]; omega, by omega⟩
      (by rw [hlast, hfb, Nat.add_sub_cancel_left, h.val]) (by
        rcases hqs with ⟨hwf, hqs⟩ | ⟨hwf, c, hqs⟩
        · exact Or.inl ⟨by omega, hqs⟩
        · refine Or.inr ⟨by omega, _, hqs, rfl, ?_⟩
          have hadd : add64 base w = base + w := add64_eq (by omega)
          have hsub : sub64 f.val.size w = f.val.size - w := sub64_eq (by omega) (by omega)
          rw [hlast, hadd, hsub, hsum, Nat.add_sub_add_left])
    rw [hlast] at hcut
    refine frees_cut_iff h.shows.tiles h.shows.pos h.shows.attrs (Nat.le_trans hmem.1 hlo) halign
      hle (by omega) (by rw [h.cutAt]; exact hcut) hr h₂ ?_
    rw [h.cutAt]
    simp [hg]
  · -- the second part of the split wraps around
    refine iff_of_false (fun hfree => ?_) fun hok => hle hok.1
    obtain ⟨htiles, -, -⟩ := (frees_iff_of_layout h.shows.attrs hr h₂ (by simp)).1 hfree
    rcases hqs with ⟨hwf, -⟩ | ⟨-, c, rfl⟩
    · omega
    · simp only [List.map_append, List.map_cons] at htiles
      have hgmem := htiles.mem (List.mem_append_right (fs.map Entry.val) List.mem_cons_self)
      have hcmem := htiles.mem (List.mem_append_right (fs.map Entry.val)
        (List.mem_cons_of_mem _ List.mem_cons_self))
      have hnext := htiles.stop_le List.mem_cons_self
      simp only [VMBlock.extent_base, VMBlock.extent_stop] at hgmem hcmem hnext hgs
      simp only [add64, sub64] at hcmem hnext
      omega

/-- The object of the last address still has the base it had before the cut. -/
theorem FreeCut.deref_last {l₁ : Dllist VMBlock} {fs : List (Entry VMBlock)}
    {f : Entry VMBlock} (h : r.FreeCut l xs e ys base l₁ fs f) (ht : t ∈ e :: ys) :
    ∃ n, l₁.deref (some t.addr) = some n ∧ n.val.base = t.val.base := by
  have h₁ := h.layout
  rcases List.mem_cons.1 ht with rfl | ht
  · rcases h.cases with ⟨-, -, rfl, -⟩ | ⟨-, -, rfl⟩
    · exact ⟨_, h₁.deref, rfl⟩
    · rw [List.append_assoc, List.singleton_append] at h₁
      exact ⟨_, h₁.deref, rfl⟩
  · obtain ⟨ws, zs, rfl⟩ := List.append_of_mem ht
    rw [← List.cons_append, ← List.append_assoc] at h₁
    exact ⟨_, h₁.deref, rfl⟩

/-! ## Merging a range -/

variable {p q lo : Nat} {n : Node VMBlock} {m z : Entry VMBlock} {ms : List (Entry VMBlock)}

theorem setReserve_many (hne : p ≠ q) (hd : l.deref (some q) = some n) :
    setReserve l (some p) (some q) =
      (mergeLoop (l.fresh + 1) l).bind fun l =>
        (l.modify (some p) fun f =>
          { f with val := { f.val with attr := f.val.attr &&& ~~~WVM_STATE_MASK } }).bind fun l =>
            l.modify (some p) fun f =>
              { f with val := { f.val with attr := f.val.attr ||| MEM_RESERVE } } := by
  simp only [setReserve, mergeRange, merge, hd, Option.bind_eq_bind, Option.bind_some, ne_eq,
    Option.some_inj, hne, not_false_eq_true, if_true]
  cases mergeLoop (l.fresh + 1) l <;> rfl

theorem not_frees_stale (h : Layout l (e :: m :: (ms ++ [z])) []) (hprev : m.prev ≠ some e.addr)
    (hbase : ∀ y ∈ m :: (ms ++ [z]), y.val.base ≠ r.base) (hpos : 0 < r.size) (hne : p ≠ q)
    (hd : l.deref (some q) = some n)
    (hcall : r.vmfree base size = (setReserve l (some p) (some q)).map fun l =>
      (0, { r with blocks := l })) : ¬ r.Frees base size := by
  rintro ⟨r', hr', -, htiles, -⟩
  rw [hcall, setReserve_many hne hd] at hr'
  obtain ⟨l₃, hl₃, hr'⟩ := Option.map_eq_some_iff.1 hr'
  obtain ⟨l₁, h₁, hl₃⟩ := Option.bind_eq_some_iff.1 hl₃
  obtain ⟨l₂, h₂, hl₃⟩ := Option.bind_eq_some_iff.1 hl₃
  obtain ⟨ho₁, hf₁⟩ := mergeLoop_stale h hprev hbase h₁
  obtain ⟨ho₂, hf₂⟩ := ho₁.modify h₂ fun _ => ⟨rfl, rfl⟩
  obtain ⟨ho₃, hf₃⟩ := ho₂.modify hl₃ fun _ => ⟨rfl, rfl⟩
  obtain rfl : { r with blocks := l₃ } = r' := by simpa using hr'
  exact ho₃.not_tiles (by rwa [hf₃, hf₂]) (Nat.lt_add_of_pos_right hpos) htiles

/-- The first block of the range was absorbed and deleted. -/
theorem not_frees_deleted (h : Layout l (e :: (ms ++ [z])) [])
    (hp : HeadPrev (some e.addr) (ms ++ [z]))
    (hs : e.val.size + Extent.total (ms.map Entry.val) < 2 ^ 64) (hmem : p ∈ addrs ms)
    (hne : p ≠ q) (hd : l.deref (some q) = some n)
    (hcall : r.vmfree base size = (setReserve l (some p) (some q)).map fun l =>
      (0, { r with blocks := l })) : ¬ r.Frees base size := by
  obtain ⟨l', z', hl', h', -, haddr⟩ := mergeLoop_range h (fun _ => hp) hs
  have hnd := h.nodup
  simp only [List.map_cons, List.map_append, List.map_nil, List.append_nil, List.nodup_cons,
    List.nodup_append, List.mem_append, List.mem_cons] at hnd
  obtain ⟨he, -, -, hdis⟩ := hnd
  have hgone : p ∉ addrs [{ e with val := { e.val with
      size := e.val.size + Extent.total (ms.map Entry.val) } }, z'] ++ [] := by
    simp only [List.map_cons, List.map_nil, List.append_nil, List.mem_cons, haddr, not_or]
    exact ⟨fun hpe => he (Or.inl (hpe ▸ hmem)), hdis p hmem _ (Or.inl rfl), by simp⟩
  refine not_frees_of_none ?_
  rw [hcall, setReserve_many hne hd, hl', Option.bind_some, h'.modify_none hgone]
  rfl

theorem setReserve_range (h : Layout l (e :: (ms ++ [z])) [])
    (hp : ms ≠ [] → HeadPrev (some e.addr) (ms ++ [z]))
    (hs : e.val.size + Extent.total (ms.map Entry.val) < 2 ^ 64) (hne : e.addr ≠ q)
    (hd : l.deref (some q) = some n) :
    ∃ l' z', setReserve l (some e.addr) (some q) = some l' ∧
      Layout l' [{ e with val := ⟨e.val.base, e.val.size + Extent.total (ms.map Entry.val),
        reserve e.val.attr⟩ }, z'] [] ∧ z'.val = z.val := by
  obtain ⟨l₁, z', hl₁, h₁, hval, -⟩ := mergeLoop_range h hp hs
  obtain ⟨l₂, hl₂, h₂⟩ := @setReserve_layout l₁ [] [z'] _ h₁
  refine ⟨l₂, z', ?_, h₂, hval⟩
  rw [setReserve_many hne hd, hl₁]
  exact hl₂

/-- What the call comes to when it makes one block of all but the last one. -/
theorem frees_range_iff (htiles : Extent.Tiles r.base ((e :: (ms ++ [z])).map Entry.val)
      (r.base + r.size))
    (hattr : ∀ a, r.base ≤ a → a < r.base + r.size →
      r.attrAt a = (Extent.lookup ((e :: (ms ++ [z])).map Entry.val) a).map VMBlock.attr)
    (hpos : 0 < z.val.size) (halign : r.base % 0x1000 = 0) {es : List (Entry VMBlock)}
    (hl : Layout l es []) (hr : r.vmfree r.base size = some (0, { r with blocks := l }))
    (hes : es.map Entry.val = [⟨e.val.base, e.val.size + Extent.total (ms.map Entry.val),
      reserve e.val.attr⟩, z.val]) :
    r.Frees r.base size ↔
      (∀ b ∈ (e :: ms).map Entry.val, ∀ a, Extent.Covers b a →
        (if a < r.base + size then reserve b.attr else b.attr) = reserve e.val.attr) ∧
      PageAligned [z.val] ∧ (z.val.base < r.base + size → reserve z.val.attr = z.val.attr) := by
  let b₁ : VMBlock := ⟨e.val.base, e.val.size + Extent.total (ms.map Entry.val),
    reserve e.val.attr⟩
  have hres : Extent.Tiles r.base [b₁, z.val] (r.base + r.size) := by
    have hall : Extent.Tiles r.base ([] ++ e.val :: (ms.map Entry.val ++ [z.val]))
        (r.base + r.size) := by
      simpa using htiles
    exact hall.merge rfl rfl
  have hb₁ : b₁.base = r.base := hres.1
  have hz : z.val.base = r.base + b₁.size := hres.2.1
  have hne : es ≠ [] := by
    rintro rfl
    simp at hes
  have hpages : PageAligned [b₁, z.val] ↔ PageAligned [z.val] := by
    rw [pageAligned_cons, hb₁, ← hz]
    constructor
    · exact fun h => h.2
    · exact fun h => ⟨⟨halign, (pageAligned_cons.1 h).1.1⟩, h⟩
  have hsplit : (e :: (ms ++ [z])).map Entry.val = (e :: ms).map Entry.val ++ [z.val] := by simp
  -- what the region shows in front of the last block and in it
  have hfront : ∀ b ∈ (e :: ms).map Entry.val, ∀ a, Extent.Covers b a →
      Extent.lookup [b₁, z.val] a = some b₁ ∧ r.base ≤ a := by
    intro b hb a ha
    rw [hsplit] at htiles
    have hmem := htiles.mem (List.mem_append_left _ hb)
    have hlt : Extent.stop b ≤ z.val.base := by
      obtain ⟨pre, post, hpre⟩ := List.append_of_mem hb
      rw [hpre, List.append_assoc] at htiles
      exact htiles.stop_le (List.mem_append_right post (List.mem_singleton_self z.val))
    have hlo : r.base ≤ a := Nat.le_trans hmem.1 ha.1
    refine ⟨hres.lookup_mem List.mem_cons_self ⟨?_, ?_⟩, hlo⟩
    · rw [VMBlock.extent_base, hb₁]
      exact hlo
    · rw [VMBlock.extent_stop, hb₁, ← hz]
      exact Nat.lt_of_lt_of_le ha.2 hlt
  have hback : ∀ a, Extent.Covers z.val a →
      Extent.lookup [b₁, z.val] a = some z.val ∧ z.val.base ≤ a := fun a ha =>
    ⟨hres.lookup_mem (List.mem_cons_of_mem _ List.mem_cons_self) ha, ha.1⟩
  rw [frees_iff_of_layout hattr hr hl hne, hes,
    htiles.forall_lookup fun a b => (Extent.lookup [b₁, z.val] a).map VMBlock.attr =
      (b.map VMBlock.attr).map fun attr =>
        if r.base ≤ a ∧ a < r.base + size then reserve attr else attr, hsplit,
    List.forall_mem_append, List.forall_mem_singleton]
  constructor
  · rintro ⟨-, hpa, hf, hb⟩
    refine ⟨fun b hmem a ha => ?_, hpages.1 hpa, fun hlt => ?_⟩
    · obtain ⟨hlook, hlo⟩ := hfront b hmem a ha
      have := hf b hmem a ha
      simp only [hlook, hlo, true_and, Option.map_some, Option.some_inj] at this
      exact this.symm
    · have hc : Extent.Covers z.val z.val.base :=
        ⟨Nat.le_refl _, Nat.lt_add_of_pos_right hpos⟩
      have := hb _ hc
      simp only [(hback _ hc).1, Option.map_some, Option.some_inj] at this
      rw [if_pos ⟨by omega, hlt⟩] at this
      exact this.symm
  · rintro ⟨hf, hpa, hb⟩
    refine ⟨hres, hpages.2 hpa, fun b hmem a ha => ?_, fun a ha => ?_⟩
    · obtain ⟨hlook, hlo⟩ := hfront b hmem a ha
      simp only [hlook, hlo, true_and, Option.map_some, Option.some_inj]
      exact (hf b hmem a ha).symm
    · obtain ⟨hlook, hlo⟩ := hback a ha
      simp only [hlook, Option.map_some, Option.some_inj]
      by_cases hlt : r.base ≤ a ∧ a < r.base + size
      · rw [if_pos hlt, hb (by omega)]
      · rw [if_neg hlt]

section Range

variable {l₁ : Dllist VMBlock} {fs : List (Entry VMBlock)} {f : Entry VMBlock}

theorem FreeCut.call (h : r.FreeCut l xs e ys base l₁ fs f) (hsize : 0 < size)
    (hstop : base + size ≤ 2 ^ 64)
    (hlast : findBlockL2R l (base + size - 1) false (some e.addr) = some (some t.addr)) :
    r.vmfree base size =
      (cutLast l₁ (some f.addr) (some t.addr) (base + size - 1)).bind fun q =>
        (setReserve q.2 (some f.addr) q.1).map fun l => (0, { r with blocks := l }) := by
  have htbase := tbase_eq hsize hstop
  rw [← htbase] at hlast ⊢
  exact vmfree_eq h.init h.find hlast h.cut

/-- The last address lies behind the start of its block. -/
theorem FreeCut.frees_gap_iff (h : r.FreeCut l xs e ys base l₁ fs f) (hrsize : r.size < 2 ^ 64)
    (halign : base % 0x1000 = 0) (hsize : 0 < size) (hstop : base + size ≤ 2 ^ 64)
    (ht : t ∈ e :: ys) (hlow : t.val.base < base + size - 1)
    (hlast : findBlockL2R l (base + size - 1) false (some e.addr) = some (some t.addr)) :
    r.Frees base size ↔
      CutOk ((xs ++ e :: ys).map Entry.val) e.val base size (base + size - 1 - t.val.base) := by
  have hgap : sub64 (base + size - 1) t.val.base = base + size - 1 - t.val.base :=
    sub64_eq (Nat.le_of_lt hlow) (by omega)
  obtain ⟨n, hd, hn⟩ := h.deref_last ht
  obtain ⟨l₂, qs, hl₂, h₂, hqs⟩ := cutLast_gap h.layout hd (by rw [hn, hgap]; omega)
  simp only [hn, hgap] at h₂ hqs
  obtain ⟨l₃, hl₃, h₃⟩ := setReserve_one h₂
  have hfb : f.val.base = base := by rw [h.val]
  have hfa : f.val.attr = e.val.attr := by rw [h.val]
  have hr : r.vmfree base size = some (0, { r with blocks := l₃ }) := by
    rw [h.call hsize hstop hlast, hl₂]
    simp [hl₃]
  exact h.frees_iff hrsize halign (by omega) hr h₃ (by rw [hfb, hfa]) (by rwa [hfb] at hqs)

/-- The range is the first address of a block. -/
theorem FreeCut.frees_single_iff (h : r.FreeCut l xs e ys base l₁ fs f)
    (hrsize : r.size < 2 ^ 64) (halign : base % 0x1000 = 0) (hsize : 0 < size)
    (hstop : base + size ≤ 2 ^ 64) (hlow : e.val.base = base + size - 1)
    (hlast : findBlockL2R l (base + size - 1) false (some e.addr) = some (some e.addr)) :
    r.Frees base size ↔
      CutOk ((xs ++ e :: ys).map Entry.val) e.val base size (Extent.stop e.val - base) := by
  have hcov := h.covers
  obtain ⟨n, hd, hn⟩ := h.deref_last (t := e) List.mem_cons_self
  have hgap : sub64 (base + size - 1) n.val.base = 0 := by
    rw [hn, ← hlow, sub64_eq (Nat.le_refl _) (by omega), Nat.sub_self]
  rcases h.cases with ⟨hb, rfl, rfl, rfl⟩ | ⟨hlt, -, -⟩
  · obtain ⟨l₂, hl₂, h₂⟩ := setReserve_one h.layout
    have hr : r.vmfree base size = some (0, { r with blocks := l₂ }) := by
      rw [h.call hsize hstop hlast, cutLast_zero hd hgap]
      simp [hl₂]
    have hlen : f.val.size = Extent.stop f.val - base := by
      rw [hb, VMBlock.extent_stop, Nat.add_sub_cancel_left]
    have hpos : 0 < Extent.stop f.val - base := Nat.sub_pos_of_lt hcov.2
    refine h.frees_iff hrsize halign hpos hr h₂ ?_ (Or.inl ⟨hlen.symm, rfl⟩)
    rw [← hlen]
    show (⟨f.val.base, f.val.size, reserve f.val.attr⟩ : VMBlock) = _
    rw [← hb]
  · omega

theorem backLink_iff (h : Layout r.blocks (e :: m :: ys) []) :
    r.BackLink ↔ m.prev = some e.addr := by
  have hfirst : r.blocks.first = some e.addr := h.first
  have he : r.blocks.deref (some e.addr) = some ⟨e.prev, some m.addr, e.val⟩ := h.deref_head
  have hm : r.blocks.deref (some m.addr) = some ⟨m.prev, ptrTo ys none, m.val⟩ :=
    @Layout.deref _ r.blocks [e] m ys [] h
  simp only [BackLink, hfirst, he]
  constructor
  · rintro ⟨f, n, hf, hn, hprev⟩
    obtain rfl := Option.some_inj.1 hf
    obtain rfl := Option.some_inj.1 (hm.symm.trans hn)
    exact hprev
  · exact fun hprev => ⟨_, _, rfl, hm, hprev⟩

theorem FreeCut.tiles (h : r.FreeCut l xs e ys base l₁ fs f) :
    Extent.Tiles r.base ((fs ++ f :: ys).map Entry.val) (r.base + r.size) ∧
      ∀ b ∈ (fs ++ f :: ys).map Entry.val, 0 < b.size := by
  have hmem := h.shows.tiles.mem (List.mem_map_of_mem (List.mem_append_right xs
    (List.mem_cons_self (a := e) (l := ys))))
  obtain ⟨hlo, hhi⟩ := h.covers
  obtain ⟨h₁, h₂, -, hp₁, hp₂⟩ := cutAt_tiles h.shows.tiles h.shows.pos
    (Nat.le_trans hmem.1 hlo) (Nat.le_trans (Nat.le_of_lt hhi) hmem.2)
  rw [h.cutAt] at h₁ h₂ hp₁ hp₂
  rw [List.map_append]
  exact ⟨Extent.tiles_append.2 ⟨h₁.stop_eq ▸ h₁, h₁.stop_eq ▸ h₂⟩,
    List.forall_mem_append.2 ⟨hp₁, hp₂⟩⟩

/-- A range that starts with the region starts with its first block. -/
theorem FreeCut.first (h : r.FreeCut l xs e ys base l₁ fs f) (hbase : base = r.base) :
    xs = [] ∧ fs = [] ∧ f = e ∧ l₁ = l ∧ e.val.base = base := by
  have htiles := h.shows.tiles
  have hpos := h.shows.pos
  have hlo := h.covers.1
  cases xs with
  | cons x xs =>
      have hx := hpos x.val (by simp)
      have hx₀ : x.val.base = r.base := htiles.1
      have hle := @Extent.Tiles.stop_le _ _ _ _ [] ((xs ++ e :: ys).map Entry.val) x.val
        (by simpa using htiles) e.val (by simp)
      simp only [VMBlock.extent_base, VMBlock.extent_stop] at hle hlo
      omega
  | nil =>
      have he : e.val.base = r.base := htiles.1
      rcases h.cases with ⟨hb, hfs, hf, hl⟩ | ⟨hlt, -, -⟩
      · exact ⟨rfl, hfs, hf, hl, hb.symm⟩
      · omega

/-- The last address is the first one of a later block. -/
theorem FreeCut.frees_merge_iff (h : r.FreeCut l xs e ys base l₁ fs f)
    (hrsize : r.size < 2 ^ 64) (halign : base % 0x1000 = 0) (hsize : 0 < size)
    (hstop : base + size ≤ 2 ^ 64) (hshown : (xs ++ e :: ys).map Entry.val = r.shown)
    (hsame : 1 < (xs ++ e :: ys).length → l = r.blocks) (ht : t ∈ ys)
    (hlow : t.val.base = base + size - 1)
    (hlast : findBlockL2R l (base + size - 1) false (some e.addr) = some (some t.addr)) :
    r.Frees base size ↔ r.MergeOk e.val base size := by
  obtain ⟨n, hd, hn⟩ := h.deref_last (List.mem_cons_of_mem e ht)
  have hgap : sub64 (base + size - 1) n.val.base = 0 := by
    rw [hn, hlow, sub64_eq (Nat.le_refl _) (by omega), Nat.sub_self]
  have hcall : r.vmfree base size = (setReserve l₁ (some f.addr) (some t.addr)).map fun l =>
      (0, { r with blocks := l }) := by
    rw [h.call hsize hstop hlast, cutLast_zero hd hgap]
    rfl
  have hft : f.addr ≠ t.addr := by
    intro hft
    have hnd := (List.nodup_append.1 h.layout.nodup).1
    rw [addrs_append, List.nodup_append] at hnd
    have hf := (List.nodup_cons.1 hnd.2.1).1
    exact hf (hft ▸ List.mem_map_of_mem ht)
  obtain ⟨htiles, hpos⟩ := h.tiles
  have htotal := htiles.stop_eq
  have hrpos : 0 < r.size := by
    have hf := hpos f.val (by simp)
    simp only [List.map_append, List.map_cons, Extent.total_append, Extent.total_cons,
      VMBlock.extent_size] at htotal
    omega
  -- the last block of the region
  obtain ⟨ms, z, rfl⟩ : ∃ ms z, ys = ms ++ [z] :=
    ⟨_, _, (List.dropLast_append_getLast (List.ne_nil_of_mem ht)).symm⟩
  by_cases hbase : base = r.base
  · obtain ⟨rfl, rfl, rfl, rfl, hb⟩ := h.first hbase
    subst hbase
    have hlay : Layout l₁ (f :: (ms ++ [z])) [] := h.layout
    have hsum : f.val.size + Extent.total (ms.map Entry.val) < 2 ^ 64 := by
      simp at htotal
      omega
    have hshown : r.shown = (f :: ms).map Entry.val ++ [z.val] := by
      rw [← hshown]
      simp
    have hblocks : ∀ m ms', ms = m :: ms' → (r.BackLink ↔ m.prev = some f.addr) := by
      rintro m ms' rfl
      rw [hsame (by simp)] at hlay
      exact backLink_iff hlay
    simp only [MergeOk, hshown, true_and, List.dropLast_concat, List.getLast?_concat,
      Option.mem_some_iff, forall_eq']
    by_cases hback : ms ≠ [] → HeadPrev (some f.addr) (ms ++ [z])
    · obtain ⟨l', z', hl', h', hval⟩ := setReserve_range hlay hback hsum hft hd
      rw [hl', Option.map_some] at hcall
      rw [frees_range_iff htiles h.shows.attrs (hpos z.val (by simp)) halign h' hcall
        (by simp [hval])]
      refine (and_iff_right fun hlong => ?_).symm
      cases ms with
      | nil => simp at hlong
      | cons m ms => exact (hblocks m ms rfl).2 (hback (by simp))
    · cases ms with
      | nil => exact absurd (fun hne => absurd rfl hne) hback
      | cons m ms =>
          have hprev : m.prev ≠ some f.addr := fun hprev => hback fun _ => hprev
          refine iff_of_false (not_frees_stale hlay hprev (base_ne_of_tiles htiles hpos) hrpos hft
            hd hcall) fun hok => hprev ((hblocks m ms rfl).1 (hok.1 (by simp)))
  · refine iff_of_false ?_ fun hok => hbase hok.1
    have hne : fs ≠ [] := by
      rintro rfl
      have hf : f.val.base = r.base := htiles.1
      rw [h.val] at hf
      exact hbase hf
    obtain ⟨g, gs, rfl⟩ := List.exists_cons_of_ne_nil hne
    have hlay : Layout l₁ (g :: ((gs ++ f :: ms) ++ [z])) [] := by simpa using h.layout
    have hother := base_ne_of_tiles htiles hpos
    by_cases hback : HeadPrev (some g.addr) ((gs ++ f :: ms) ++ [z])
    · refine not_frees_deleted hlay hback ?_ (by simp) hft hd hcall
      simp at htotal ⊢
      omega
    · obtain ⟨m, ms', hms⟩ := List.exists_cons_of_ne_nil (show gs ++ f :: ms ≠ [] by simp)
      rw [hms] at hlay hback
      refine not_frees_stale hlay hback (fun y hy => hother y ?_) hrpos hft hd hcall
      have : y ∈ (gs ++ f :: ms) ++ [z] := by rw [hms]; exact hy
      simpa using this


end Range

/-! ## The condition -/

/-- The condition at the blocks of the first and of the last address. -/
theorem freeOk_iff {hi : Nat} {b c : VMBlock} (h : Extent.Tiles lo r.shown hi) (hb : b ∈ r.shown)
    (hbc : Extent.Covers b base) (hc : c ∈ r.shown) (hcc : Extent.Covers c (base + size - 1)) :
    r.FreeOk base size ↔ Extent.stop c < 2 ^ 64 ∧
      let gap := base + size - 1 - c.base
      if gap ≠ 0 then CutOk r.shown b base size gap
      else if c = b then CutOk r.shown b base size (Extent.stop b - base)
      else r.MergeOk b base size := by
  constructor
  · rintro ⟨b', hb', c', hc', hbc', hcc', hok⟩
    obtain rfl := h.eq_of_covers hb hb' hbc hbc'
    obtain rfl := h.eq_of_covers hc hc' hcc hcc'
    exact hok
  · exact fun hok => ⟨b, hb, c, hc, hbc, hcc, hok⟩

/-- `vmfree` keeps its contract exactly when the blocks of the region meet `FreeOk`. -/
theorem vmfree_frees_iff (h : Layout r.blocks [] [] ∨ r.BlocksTile) (hrsize : r.size < 2 ^ 64)
    (htop : r.base + r.size ≤ 2 ^ 64) (hlo : r.base ≤ base) (hsize : 0 < size)
    (hhi : base + size ≤ r.base + r.size) (halign : base % 0x1000 = 0) :
    r.Frees base size ↔ r.FreeOk base size := by
  obtain ⟨l, es, hinit, hs, hshown, hsame⟩ := shows_initBlock h (by omega)
  have hstop : base + size ≤ 2 ^ 64 := Nat.le_trans hhi htop
  -- the block of the first address
  obtain ⟨pre, b, post, hsplit, hb⟩ := hs.tiles.exists_split hlo (show base < _ by omega)
  obtain ⟨xs, e, ys, rfl, rfl⟩ := exists_entries hsplit
  have htiles := hs.tiles
  simp only [List.map_append, List.map_cons] at htiles
  -- the block of the last address
  have htail : Extent.Tiles e.val.base ((e :: ys).map Entry.val) (r.base + r.size) := by
    have h₂ := (Extent.tiles_append.1 htiles).2
    exact ⟨rfl, by rw [show e.val.base = _ from h₂.1]; exact h₂.2⟩
  have hbase : e.val.base ≤ base := hb.1
  obtain ⟨pre', c, post', hsplit', ht⟩ := htail.exists_split (a := base + size - 1) (by omega)
    (by omega)
  obtain ⟨zs, t, ws, hes, rfl⟩ := @exists_entries (e :: ys) pre' post' c hsplit'
  have hmem : t ∈ e :: ys := by rw [hes]; simp
  have hlay : Layout l (xs ++ (zs ++ t :: ws)) [] := hes ▸ hs.layout
  have htilest : Extent.Tiles r.base (((xs ++ zs) ++ t :: ws).map Entry.val) (r.base + r.size) := by
    rw [List.append_assoc, ← hes]
    exact hs.tiles
  rw [freeOk_iff (hshown ▸ hs.tiles) (hshown ▸ List.mem_map_of_mem (by simp)) hb
    (hshown ▸ List.mem_map_of_mem (List.mem_append_right xs hmem)) ht, ← hshown]
  have hstople : Extent.stop e.val ≤ 2 ^ 64 :=
    Nat.le_trans (hs.tiles.mem (List.mem_map_of_mem (by simp))).2 htop
  have hestop : ys ≠ [] → Extent.stop e.val < 2 ^ 64 := fun hne =>
    Nat.lt_of_le_of_ne hstople fun heq => hne (nil_of_stop_top hs.tiles hs.pos htop heq)
  have hxs : ∀ x ∈ xs, x.val.base + x.val.size ≤ base := fun x hx =>
    htiles.stop_le_of_covers hb (List.mem_map_of_mem hx)
  have hzs : ∀ z ∈ zs, z.val.base + z.val.size ≤ base + size - 1 := fun z hz => by
    rw [hes, List.map_append, List.map_cons] at htail
    exact htail.stop_le_of_covers ht (List.mem_map_of_mem hz)
  have hfrom : (if (some e.addr : Ptr) ≠ none then some e.addr else l.first) =
      ptrTo (zs ++ t :: ws) none := by
    rw [← hes]
    rfl
  by_cases htstop : Extent.stop t.val < 2 ^ 64
  · rw [and_iff_right htstop]
    have hestop' : Extent.stop e.val < 2 ^ 64 := by
      rcases List.mem_cons.1 hmem with rfl | hmem
      · exact htstop
      · exact hestop (List.ne_nil_of_mem hmem)
    obtain ⟨l₁, fs, f, hc⟩ := freeCut hinit hs hb hestop'
    have hlast := findBlockL2R_covers hlay hzs ht htstop hfrom
    have htlo : t.val.base ≤ base + size - 1 := ht.1
    by_cases hgap : base + size - 1 - t.val.base = 0
    · have hlow : t.val.base = base + size - 1 := by omega
      simp only [hgap, ne_eq, not_true_eq_false, if_false]
      rcases List.mem_cons.1 hmem with rfl | hmem
      · rw [if_pos rfl]
        exact hc.frees_single_iff hrsize halign hsize hstop hlow hlast
      · have hne : t.val ≠ e.val := by
          intro heq
          have hpose := hs.pos e.val (List.mem_map_of_mem (by simp))
          have hle := htiles.stop_le (List.mem_map_of_mem hmem)
          rw [heq, VMBlock.extent_base, VMBlock.extent_stop] at hle
          omega
        rw [if_neg hne]
        exact hc.frees_merge_iff hrsize halign hsize hstop hshown hsame hmem hlow hlast
    · simp only [ne_eq, hgap, not_false_eq_true, if_true]
      exact hc.frees_gap_iff hrsize halign hsize hstop hmem (by omega) hlast
  · -- a search passes the block that reaches up to the end of the addresses
    refine iff_of_false (not_frees_of_none ?_) fun hok => htstop hok.1
    have htop' : Extent.stop t.val = 2 ^ 64 := by
      have := (htilest.mem (List.mem_map_of_mem (by simp : t ∈ (xs ++ zs) ++ t :: ws))).2
      omega
    obtain rfl := nil_of_stop_top htilest (by rw [List.append_assoc, ← hes]; exact hs.pos) htop
      htop'
    cases zs with
    | nil =>
        obtain ⟨rfl, rfl⟩ : e = t ∧ ys = [] := by simpa using hes
        exact vmfree_first_null hinit (@findBlockL2R_wrap l [] xs e [] hs.layout base hxs hb htop'
          none (by simpa using hs.layout.first))
    | cons z zs =>
        obtain ⟨rfl, rfl⟩ : e = z ∧ ys = zs ++ [t] := by simpa using hes
        have hfind := @findBlockL2R_covers l [] (zs ++ [t]) xs e [] hs.layout base hxs hb
          (hestop (by simp)) none (by simpa using hs.layout.first)
        refine vmfree_last_null hinit hfind ?_
        rw [tbase_eq hsize hstop]
        exact findBlockL2R_wrap hlay hzs ht htop' hfrom


/-- Whole pages are never freed as they should while all blocks lie on page boundaries. -/
theorem not_freeOk_of_pageAligned (hpages : PageAligned r.shown) (halign : base % 0x1000 = 0)
    (hsize : 0 < size) (hwhole : size % 0x1000 = 0) : ¬ r.FreeOk base size := by
  rintro ⟨e, -, t, ht, -, hct, -, hok⟩
  have htlo : t.base ≤ base + size - 1 := hct.1
  have htpage := (hpages t ht).1
  have hgap : base + size - 1 - t.base ≠ 0 := by omega
  simp only [ne_eq, hgap, not_false_eq_true, if_true] at hok
  have hw := hok.2.1
  omega

/-- The three pages are reserved: to free one address reserves all of them again. -/
theorem threePages_frees : threePages.Frees 0x10000 1 := by
  have hreserve : reserve 0x32001#32 = 0x32001#32 := by decide
  refine (vmfree_frees_iff (Or.inl layout_empty) (by decide) (by decide) (by decide) (by decide)
    (by decide) (by decide)).2 ⟨⟨0x10000, 0x3000, 0x32001#32⟩, List.mem_singleton_self _,
      ⟨0x10000, 0x3000, 0x32001#32⟩, List.mem_singleton_self _, by decide, by decide,
      by decide, ?_⟩
  refine ⟨by decide, by decide, ?_, ?_⟩
  · exact pageAligned_cons.2 ⟨by decide, by simp [PageAligned]⟩
  · intro b hb a _ _
    obtain rfl : b = ⟨0x10000, 0x3000, 0x32001#32⟩ := List.mem_singleton.1 hb
    exact hreserve

/-- Three committed pages. -/
def committedPages : VMRegion := ⟨0x10000, 0x3000, 0x31001#32, Dllist.empty⟩

/-- Freeing the first page of a region leaves out its last address. -/
theorem vmfree_misses_last_address :
    ¬ ∀ (r : VMRegion) (base size : Nat), (Layout r.blocks [] [] ∨ r.BlocksTile) →
      r.size < 2 ^ 64 → r.base + r.size ≤ 2 ^ 64 → r.base ≤ base → 0 < size →
        base + size ≤ r.base + r.size → base % 0x1000 = 0 → size % 0x1000 = 0 →
          r.Frees base size := by
  intro hall
  obtain ⟨r', hr', hattr, -⟩ := hall committedPages 0x10000 0x1000 (Or.inl layout_empty) (by decide)
    (by decide) (by decide) (by decide) (by decide) (by decide) (by decide)
  have heval : (committedPages.vmfree 0x10000 0x1000).all
      (fun v => v.2.attrAt 0x10FFF = some 0x31001#32) = true := by
    decide +kernel
  rw [hr'] at heval
  have hold : committedPages.attrAt 0x10FFF = some 0x31001#32 := rfl
  have hnew := hattr 0x10FFF (by decide) (by decide)
  rw [hold, of_decide_eq_true heval] at hnew
  revert hnew
  decide

end VMRegion

end Vin64.Space
