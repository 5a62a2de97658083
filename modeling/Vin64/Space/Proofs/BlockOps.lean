import Vin64.Space.Region
import Vin64.Lib.Masks
import Vin64.Utils.Proofs.Layout

/-!
# The list operations of a region on layouts

One lemma for each operation of `VMRegion` says what it makes of the layout of the
block list, stale back pointers included.
-/

namespace Vin64.Space

open Vin64.Utils Vin64.Utils.Dllist Vin64.Lib

namespace VMRegion

variable {l : Dllist VMBlock} {ws xs ys zs : List (Entry VMBlock)} {e : Entry VMBlock}
  {ds : List Nat}

/-! ## Searching -/

theorem findLoop_skip (h : Layout l (ws ++ (zs ++ ys)) ds) {a : Nat} (ha : a < 2 ^ 64)
    (hz : ∀ z ∈ zs, z.val.base + z.val.size ≤ a) (fuel : Nat) :
    findLoop l a false (zs.length + fuel) (ptrTo (zs ++ ys) none) =
      findLoop l a false fuel (ptrTo ys none) := by
  induction zs generalizing ws with
  | nil => simp
  | cons z zs ih =>
      have hd := h.deref
      have hza := hz z (by simp)
      have hend : add64 z.val.base z.val.size = z.val.base + z.val.size :=
        add64_eq (by omega)
      have hstep : findLoop l a false ((z :: zs).length + fuel) (ptrTo (z :: zs ++ ys) none) =
          findLoop l a false (zs.length + fuel) (ptrTo (zs ++ ys) none) := by
        rw [show (z :: zs).length + fuel = zs.length + fuel + 1 by simp; omega]
        simp only [List.cons_append, ptrTo_cons, findLoop, hd, Option.bind_eq_bind,
          Option.bind_some, hend]
        rw [if_neg (by omega), if_neg (by simp), if_pos hza]
        rfl
      rw [hstep]
      exact @ih (ws ++ [z]) (by simpa using h) fun y hy => hz y (by simp [hy])

/-- The search finds the block that contains `a`. -/
theorem findBlockL2R_covers (h : Layout l (ws ++ (zs ++ e :: ys)) ds) {a : Nat}
    (hz : ∀ z ∈ zs, z.val.base + z.val.size ≤ a) (hc : Extent.Covers e.val a)
    (hstop : Extent.stop e.val < 2 ^ 64) {first : Ptr}
    (hfirst : (if first ≠ none then first else l.first) = ptrTo (zs ++ e :: ys) none) :
    findBlockL2R l a false first = some (some e.addr) := by
  have hlen := h.length_le_fresh
  simp only [List.length_append, List.length_cons] at hlen
  obtain ⟨hba, has⟩ := hc
  simp only [VMBlock.extent_base, VMBlock.extent_stop] at hba has hstop
  have hd : l.deref (some e.addr) = some ⟨e.prev, ptrTo ys none, e.val⟩ :=
    @Layout.deref _ l (ws ++ zs) e ys ds (by simpa using h)
  rw [findBlockL2R, hfirst,
    show l.fresh + 1 = zs.length + ((l.fresh - zs.length) + 1) by omega,
    findLoop_skip h (by omega) hz]
  simp only [ptrTo_cons, findLoop, hd, Option.bind_eq_bind, Option.bind_some]
  rw [if_neg (by omega), if_neg (by simp), if_neg (by rw [add64_eq (by omega)]; omega)]
  rfl

/-- The end of a block that reaches up to `2 ^ 64` wraps to 0, so the search passes it. -/
theorem findBlockL2R_wrap (h : Layout l (ws ++ (zs ++ [e])) ds) {a : Nat}
    (hz : ∀ z ∈ zs, z.val.base + z.val.size ≤ a) (hc : Extent.Covers e.val a)
    (hstop : Extent.stop e.val = 2 ^ 64) {first : Ptr}
    (hfirst : (if first ≠ none then first else l.first) = ptrTo (zs ++ [e]) none) :
    findBlockL2R l a false first = some none := by
  have hlen := h.length_le_fresh
  simp only [List.length_append, List.length_cons, List.length_nil] at hlen
  obtain ⟨hba, has⟩ := hc
  simp only [VMBlock.extent_base, VMBlock.extent_stop] at hba has hstop
  have hd : l.deref (some e.addr) = some ⟨e.prev, none, e.val⟩ :=
    @Layout.deref _ l (ws ++ zs) e [] ds (by simpa using h)
  have hend : add64 e.val.base e.val.size = 0 := by unfold add64; omega
  rw [findBlockL2R, hfirst,
    show l.fresh + 1 = zs.length + ((l.fresh - zs.length - 1) + 1 + 1) by omega,
    findLoop_skip h (by omega) hz]
  simp only [ptrTo_cons, findLoop, hd, Option.bind_eq_bind, Option.bind_some, hend]
  rw [if_neg (by omega), if_neg (by simp), if_pos (by omega)]

/-! ## Splitting -/

/-- `split` makes the part behind `want` an object of its own, in 64 bits.  The block after it
still points back to the old one. -/
theorem split_wraps (h : Layout l (xs ++ e :: ys) []) {want : Nat} (hw : want ≠ e.val.size) :
    ∃ l' c, split l (some e.addr) want = some ((some e.addr, some c), l') ∧
      Layout l' (xs ++ { e with val := { e.val with size := want } } ::
        ⟨c, some e.addr, ⟨add64 e.val.base want, sub64 e.val.size want, e.val.attr⟩⟩ :: ys) [] := by
  obtain ⟨h₁, hc₁⟩ := h.new e.val
  obtain ⟨l₂, hl₂, h₂, hc₂⟩ := h₁.modify_detached (by simp) hc₁
    (fun _ => ⟨e.prev, ptrTo ys none, e.val⟩)
  obtain ⟨l₃, hl₃, h₃, hc₃⟩ := h₂.modify_detached (by simp) hc₂
    (fun c => { c with val := { c.val with base := add64 e.val.base want } })
  obtain ⟨l₄, hl₄, h₄, hc₄⟩ := h₃.modify_detached (by simp) hc₃
    (fun c => { c with val := { c.val with size := sub64 e.val.size want } })
  obtain ⟨l₅, hl₅, h₅, hframe⟩ := h₄.modify_val (fun f => { f with size := want })
  have hne : l.fresh ≠ e.addr := by
    intro he
    have hcell := h.deref
    have := h.fresh e.addr (by rw [show l.cells e.addr = _ from hcell]; rfl)
    omega
  have hc₅ := (hframe l.fresh hne).trans hc₄
  obtain ⟨l₆, hl₆, h₆⟩ := h₅.linkNext hc₅
  refine ⟨l₆, l.fresh, ?_, h₆⟩
  simp only [split, h.deref, Option.bind_eq_bind, Option.bind_some]
  rw [if_neg hw]
  simp only [Dllist.new] at hl₂
  simp [Dllist.new, hl₂, hl₃, hl₄, hl₅, hl₆]

theorem split_layout (h : Layout l (xs ++ e :: ys) []) {want : Nat} (hw : want < e.val.size)
    (hstop : Extent.stop e.val ≤ 2 ^ 64) (hsize : e.val.size < 2 ^ 64) :
    ∃ l' c, split l (some e.addr) want = some ((some e.addr, some c), l') ∧
      Layout l' (xs ++ { e with val := { e.val with size := want } } ::
        ⟨c, some e.addr, ⟨e.val.base + want, e.val.size - want, e.val.attr⟩⟩ :: ys) [] := by
  simp only [VMBlock.extent_stop] at hstop
  obtain ⟨l', c, hl', h'⟩ := split_wraps h (Nat.ne_of_lt hw)
  rw [add64_eq (by omega), sub64_eq (by omega) hsize] at h'
  exact ⟨l', c, hl', h'⟩

theorem cutFront_base (h : Layout l (xs ++ e :: ys) ds) (hb : e.val.base < 2 ^ 64) :
    cutFront l (some e.addr) e.val.base = some (some e.addr, l) := by
  have hgap : sub64 e.val.base e.val.base = 0 := by rw [sub64_eq (by omega) hb]; omega
  simp [cutFront, h.deref, hgap]

theorem cutFront_inside (h : Layout l (xs ++ e :: ys) []) {base : Nat}
    (hlo : e.val.base < base) (hhi : base < Extent.stop e.val)
    (hstop : Extent.stop e.val ≤ 2 ^ 64) (hsize : e.val.size < 2 ^ 64) :
    ∃ l' c, cutFront l (some e.addr) base = some (some c, l') ∧
      Layout l' (xs ++ { e with val := { e.val with size := base - e.val.base } } ::
        ⟨c, some e.addr, ⟨base, Extent.stop e.val - base, e.val.attr⟩⟩ :: ys) [] := by
  simp only [VMBlock.extent_stop] at *
  have hgap : sub64 base e.val.base = base - e.val.base := sub64_eq (by omega) (by omega)
  obtain ⟨l', c, hl', h'⟩ := split_layout h
    (show base - e.val.base < e.val.size by omega) hstop hsize
  rw [show e.val.base + (base - e.val.base) = base by omega,
    show e.val.size - (base - e.val.base) = e.val.base + e.val.size - base by omega] at h'
  refine ⟨l', c, ?_, h'⟩
  simp only [cutFront, h.deref, hgap, Option.bind_eq_bind, Option.bind_some]
  rw [if_pos (by omega), hl']
  rfl

theorem cutBack_stop (h : Layout l (xs ++ e :: ys) ds) {tbase : Nat}
    (ht : tbase + 1 = Extent.stop e.val) (hstop : Extent.stop e.val < 2 ^ 64) :
    cutBack l (some e.addr) tbase = some (some e.addr, l) := by
  simp only [VMBlock.extent_stop] at ht hstop
  have hgap : sub64 (sub64 (add64 e.val.base e.val.size) tbase) 1 = 0 := by
    rw [add64_eq hstop, sub64_sub64_one (Nat.le_of_eq ht) hstop]; omega
  simp [cutBack, h.deref, hgap]

theorem cutBack_inside (h : Layout l (xs ++ e :: ys) []) {tbase : Nat}
    (hlo : e.val.base ≤ tbase) (hhi : tbase + 1 < Extent.stop e.val)
    (hstop : Extent.stop e.val < 2 ^ 64) :
    ∃ l' c, cutBack l (some e.addr) tbase = some (some e.addr, l') ∧
      Layout l' (xs ++ { e with val := { e.val with size := tbase + 1 - e.val.base } } ::
        ⟨c, some e.addr, ⟨tbase + 1, Extent.stop e.val - (tbase + 1), e.val.attr⟩⟩ :: ys) [] := by
  have hle : Extent.stop e.val ≤ 2 ^ 64 := Nat.le_of_lt hstop
  simp only [VMBlock.extent_stop] at hhi hstop ⊢
  have hgap : sub64 (sub64 (add64 e.val.base e.val.size) tbase) 1 =
      e.val.base + e.val.size - (tbase + 1) := by
    rw [add64_eq hstop, sub64_sub64_one (Nat.le_of_lt hhi) hstop]
  have hwant : sub64 e.val.size (e.val.base + e.val.size - (tbase + 1)) =
      tbase + 1 - e.val.base := by
    have hsub : sub64 e.val.size (e.val.base + e.val.size - (tbase + 1)) =
        e.val.size - (e.val.base + e.val.size - (tbase + 1)) := sub64_eq (by omega) (by omega)
    rw [hsub]; omega
  obtain ⟨l', c, hl', h'⟩ := split_layout h
    (show tbase + 1 - e.val.base < e.val.size by omega) hle (by omega)
  rw [show e.val.base + (tbase + 1 - e.val.base) = tbase + 1 by omega,
    show e.val.size - (tbase + 1 - e.val.base) = e.val.base + e.val.size - (tbase + 1)
      by omega] at h'
  refine ⟨l', c, ?_, h'⟩
  simp only [cutBack, h.deref, hgap, hwant, Option.bind_eq_bind, Option.bind_some]
  rw [if_pos (by omega), hl']
  rfl

/-! ## Merging a range -/

/-- The loop of `merge` absorbs all blocks between `_first` and `_last`. -/
theorem mergeLoop_layout {ms : List (Entry VMBlock)} {t : Entry VMBlock}
    (h : Layout l (e :: (ms ++ [t])) ds) (hp : HeadPrev (some e.addr) (ms ++ [t])) {fuel : Nat}
    (hf : ms.length < fuel) (hs : e.val.size + Extent.total (ms.map Entry.val) < 2 ^ 64) :
    ∃ l' t', mergeLoop fuel l = some l' ∧
      Layout l' [{ e with val := { e.val with
        size := e.val.size + Extent.total (ms.map Entry.val) } }, t'] ds ∧
      t'.prev = some e.addr ∧ t'.val = t.val ∧ t'.addr = t.addr := by
  induction hn : ms.length generalizing l e ms t fuel with
  | zero =>
      obtain ⟨fuel, rfl⟩ : ∃ k, fuel = k + 1 := ⟨fuel - 1, by omega⟩
      obtain rfl := List.eq_nil_of_length_eq_zero hn
      have hfirst : l.first = some e.addr := h.first
      have hlast : l.last = some t.addr := h.last
      refine ⟨l, t, ?_, by simpa using h, hp, rfl, rfl⟩
      simp [mergeLoop, hfirst, hlast, h.deref_head]
  | succ n ih =>
      obtain ⟨fuel, rfl⟩ : ∃ k, fuel = k + 1 := ⟨fuel - 1, by omega⟩
      obtain ⟨m, ms, rfl⟩ := List.exists_cons_of_length_eq_add_one hn
      simp only [List.length_cons] at hf hn
      simp only [List.map_cons, Extent.total_cons, VMBlock.extent_size] at hs
      have hfirst : l.first = some e.addr := h.first
      have hlast : l.last = some t.addr := by
        rw [h.last, ← List.cons_append, List.getLast?_concat]; rfl
      have hnd : (e.addr :: addrs (m :: ms ++ [t])).Nodup := (List.nodup_append.1 h.nodup).1
      have hm : l.deref (some m.addr) = some ⟨m.prev, ptrTo (ms ++ [t]) none, m.val⟩ :=
        @Layout.deref _ l [e] m (ms ++ [t]) ds h
      have hmt : m.addr ≠ t.addr := by
        intro hmt
        have := (List.nodup_cons.1 (List.nodup_cons.1 hnd).2).1
        simp [hmt] at this
      obtain ⟨l₁, hl₁, h₁, -⟩ := @Layout.modify_val _ l [] e _ ds h
        (fun f => { f with size := add64 f.size m.val.size })
      rw [add64_eq (by omega)] at h₁
      obtain ⟨l₂, hl₂, h₂⟩ := @Layout.unlink _ l₁ [] _ m (ms ++ [t]) ds h₁ hp
      obtain ⟨ms', ts, hsplit, hms, hts, hta⟩ := setHeadPrev_append (some e.addr) ms [t]
      have hhead := headPrev_setHeadPrev (some e.addr) (ms ++ [t])
      obtain ⟨t', rfl⟩ : ∃ t', ts = [t'] :=
        List.length_eq_one_iff.1 (by simpa using congrArg List.length hts)
      simp only [List.nil_append, hsplit] at h₂ hhead
      have hlen : ms'.length = ms.length := by simpa using congrArg List.length hms
      obtain ⟨l₃, t₃, hl₃, h₃, hprev, hval, haddr⟩ := ih h₂ hhead
        (show ms'.length < fuel by omega) (by simp only [hms]; omega) (by omega)
      refine ⟨l₃, t₃, ?_, ?_, hprev, hval.trans (by simpa using hts),
        haddr.trans (by simpa using hta)⟩
      · have hd := h.deref_head
        simp only [List.cons_append, ptrTo_cons] at hd
        simp [mergeLoop, hfirst, hlast, hd, hm, hmt, hl₁, hl₂, hl₃]
      · simpa [hms, Nat.add_assoc] using h₃

/-! ## Merging neighbours of the same protection -/

/-- The first loop of `mergeSameProtect` absorbs `run`, as long as the back pointer of the
next block is right. -/
theorem mergeNextLoop_layout {run rest : List (Entry VMBlock)}
    (h : Layout l (xs ++ e :: (run ++ rest)) ds)
    (hp : run ≠ [] → HeadPrev (some e.addr) (run ++ rest))
    (hrun : ∀ v ∈ run.map Entry.val, v.prot = e.val.prot)
    (hrest : ∀ v ∈ (rest.map Entry.val).head?, v.prot ≠ e.val.prot) {fuel : Nat}
    (hf : run.length < fuel) (hs : e.val.size + Extent.total (run.map Entry.val) < 2 ^ 64) :
    ∃ l' rest', mergeNextLoop fuel l (some e.addr) = some l' ∧
      Layout l' (xs ++ { e with val := { e.val with
        size := e.val.size + Extent.total (run.map Entry.val) } } :: rest') ds ∧
      rest'.map Entry.val = rest.map Entry.val := by
  induction hn : run.length generalizing l e run rest fuel with
  | zero =>
      obtain ⟨fuel, rfl⟩ : ∃ k, fuel = k + 1 := ⟨fuel - 1, by omega⟩
      have hd := h.deref
      obtain rfl := List.eq_nil_of_length_eq_zero hn
      refine ⟨l, rest, ?_, by simpa using h, rfl⟩
      cases rest with
      | nil => simp [mergeNextLoop, hd]
      | cons r rest =>
          have hr : l.deref (some r.addr) = some ⟨r.prev, ptrTo rest none, r.val⟩ :=
            @Layout.deref _ l (xs ++ [e]) r rest ds (by simpa using h)
          have hne : r.val.prot ≠ e.val.prot := hrest r.val (by simp)
          simp [mergeNextLoop, hd, hr, hne]
  | succ n ih =>
      obtain ⟨fuel, rfl⟩ : ∃ k, fuel = k + 1 := ⟨fuel - 1, by omega⟩
      obtain ⟨m, run, rfl⟩ := List.exists_cons_of_length_eq_add_one hn
      have h : Layout l (xs ++ e :: m :: (run ++ rest)) ds := h
      have hd := h.deref
      simp only [List.length_cons] at hf hn
      simp only [List.map_cons, Extent.total_cons, VMBlock.extent_size] at hs
      have hm : l.deref (some m.addr) = some ⟨m.prev, ptrTo (run ++ rest) none, m.val⟩ :=
        @Layout.deref _ l (xs ++ [e]) m (run ++ rest) ds (by simpa using h)
      have hsame : m.val.prot = e.val.prot := hrun m.val (by simp)
      obtain ⟨l₁, hl₁, h₁, -⟩ := h.modify_val
        (fun q => { q with size := add64 q.size m.val.size })
      rw [add64_eq (by omega)] at h₁
      obtain ⟨l₂, hl₂, h₂⟩ := h₁.unlink (hp (by simp))
      obtain ⟨run', rest', hsplit, hrun', hrest', -⟩ := setHeadPrev_append (some e.addr) run rest
      have hhead := headPrev_setHeadPrev (some e.addr) (run ++ rest)
      simp only [hsplit] at h₂ hhead
      have hlen : run'.length = run.length := by simpa using congrArg List.length hrun'
      obtain ⟨l₃, rest₃, hl₃, h₃, hval⟩ := ih h₂ (fun _ => hhead)
        (by rw [hrun']; intro v hv; exact hrun v (by simp_all))
        (by rw [hrest']; exact hrest) (show run'.length < fuel by omega)
        (by simp only [hrun']; omega) (by omega)
      refine ⟨l₃, rest₃, ?_, ?_, hval.trans hrest'⟩
      · simp only [ptrTo_cons] at hd
        simp [mergeNextLoop, hd, hm, hsame, hl₁, hl₂, hl₃]
      · simpa [hrun', Nat.add_assoc] using h₃

/-- A stale back pointer: the absorbed block is deleted while `p` keeps pointing to it. -/
theorem mergeNextLoop_stale {p n : Entry VMBlock}
    (h : Layout l (xs ++ p :: e :: n :: ys) ds) (hp : n.prev = some p.addr)
    (hsame : n.val.prot = e.val.prot) (fuel : Nat) :
    mergeNextLoop (fuel + 2) l (some e.addr) = none := by
  have h' : Layout l ((xs ++ [p]) ++ e :: n :: ys) ds := by simpa using h
  have hn : l.deref (some n.addr) = some ⟨n.prev, ptrTo ys none, n.val⟩ :=
    @Layout.deref _ l (xs ++ [p, e]) n ys ds (by simpa using h)
  obtain ⟨l₁, hl₁, h₁, -⟩ := h'.modify_val
    (fun q => { q with size := add64 q.size n.val.size })
  obtain ⟨l₂, hl₂, hdel, hcell⟩ := @Layout.unlink_stale _ l₁ xs [] p _ n ys ds
    (by simpa using h₁) hp
  have hd₂ : l₂.deref (some e.addr) = some ⟨e.prev, some n.addr, _⟩ := hcell
  have hn₂ : l₂.deref (some n.addr) = none := hdel
  simp [mergeNextLoop, h'.deref, hn, hsame, hl₁, hl₂, hd₂, hn₂]

theorem mergePrevLoop_first (h : Layout l (xs ++ e :: ys) ds) (hp : e.prev = none)
    (fuel : Nat) : mergePrevLoop (fuel + 1) l (some e.addr) = some l := by
  simp [mergePrevLoop, h.deref, hp]

theorem mergePrevLoop_differs {n : Entry VMBlock} (h : Layout l (xs ++ e :: n :: ys) ds)
    (hne : n.val.prot ≠ e.val.prot) (fuel : Nat) :
    mergePrevLoop (fuel + 1) l (some e.addr) = some l := by
  have hn : l.deref (some n.addr) = some ⟨n.prev, ptrTo ys none, n.val⟩ :=
    @Layout.deref _ l (xs ++ [e]) n ys ds (by simpa using h)
  simp only [mergePrevLoop, h.deref, ptrTo_cons, hn, Option.bind_eq_bind, Option.bind_some]
  simp [hne]

/-- The second loop looks at `p->_next`, which is null on the last block. -/
theorem mergePrevLoop_last (h : Layout l (xs ++ [e]) ds) (hp : e.prev ≠ none)
    (fuel : Nat) : mergePrevLoop (fuel + 1) l (some e.addr) = none := by
  have hnull : l.deref none = none := rfl
  simp [mergePrevLoop, h.deref, hp, hnull]

/-- `mergeSameProtect` only ever merges the blocks behind `e`: when one with another
protection is left it stops there. -/
theorem mergeSameProtect_layout {run rest : List (Entry VMBlock)}
    (h : Layout l (xs ++ e :: (run ++ rest)) ds)
    (hp : run ≠ [] → HeadPrev (some e.addr) (run ++ rest))
    (hrun : ∀ v ∈ run.map Entry.val, v.prot = e.val.prot)
    (hrest : ∀ v ∈ (rest.map Entry.val).head?, v.prot ≠ e.val.prot)
    (hs : e.val.size + Extent.total (run.map Entry.val) < 2 ^ 64)
    (hok : rest = [] → e.prev = none) :
    ∃ l' rest', mergeSameProtect l (some e.addr) = some l' ∧
      Layout l' (xs ++ { e with val := { e.val with
        size := e.val.size + Extent.total (run.map Entry.val) } } :: rest') ds ∧
      rest'.map Entry.val = rest.map Entry.val := by
  have hlen := h.length_le_fresh
  simp only [List.length_append, List.length_cons] at hlen
  obtain ⟨l₁, rest₁, hl₁, h₁, hval⟩ := mergeNextLoop_layout h hp hrun hrest
    (show run.length < l.fresh + 1 by omega) hs
  refine ⟨l₁, rest₁, ?_, h₁, hval⟩
  simp only [mergeSameProtect, hl₁, Option.bind_eq_bind, Option.bind_some]
  cases rest₁ with
  | nil => exact mergePrevLoop_first h₁ (hok (by simpa using hval.symm)) l₁.fresh
  | cons r rest₁ =>
      exact mergePrevLoop_differs h₁ (hrest r.val (by rw [← hval]; simp)) l₁.fresh

/-- When everything behind `e` is merged and `e` is not the first block, the second loop
follows the null `_next` of `e`. -/
theorem mergeSameProtect_last {run : List (Entry VMBlock)}
    (h : Layout l (xs ++ e :: run) ds) (hp : run ≠ [] → HeadPrev (some e.addr) run)
    (hrun : ∀ v ∈ run.map Entry.val, v.prot = e.val.prot)
    (hs : e.val.size + Extent.total (run.map Entry.val) < 2 ^ 64) (he : e.prev ≠ none) :
    mergeSameProtect l (some e.addr) = none := by
  have hlen := h.length_le_fresh
  simp only [List.length_append, List.length_cons] at hlen
  obtain ⟨l₁, rest₁, hl₁, h₁, hval⟩ := @mergeNextLoop_layout l xs e ds run []
    (by simpa using h) (by simpa using hp) hrun (by simp) (l.fresh + 1) (by omega) hs
  obtain rfl : rest₁ = [] := by simpa using hval
  simp only [mergeSameProtect, hl₁, Option.bind_eq_bind, Option.bind_some]
  exact mergePrevLoop_last h₁ he l₁.fresh

theorem mergeSameProtect_stale {p n : Entry VMBlock}
    (h : Layout l (xs ++ p :: e :: n :: ys) ds) (hp : n.prev = some p.addr)
    (hsame : n.val.prot = e.val.prot) : mergeSameProtect l (some e.addr) = none := by
  have hlen := h.length_le_fresh
  simp only [List.length_append, List.length_cons] at hlen
  simp only [mergeSameProtect, show l.fresh + 1 = (l.fresh - 1) + 2 by omega,
    mergeNextLoop_stale h hp hsame (l.fresh - 1), Option.bind_eq_bind, Option.bind_none]

/-! ## Setting the protection of a range -/

theorem setAttr_layout (h : Layout l (xs ++ e :: ys) ds) (prot : BitVec 32) :
    ∃ l', (do
        let l ← l.modify (some e.addr) fun f =>
          { f with val := { f.val with attr := f.val.attr &&& ~~~WVM_PROTECT_MASK } }
        let l ← l.modify (some e.addr) fun f =>
          { f with val := { f.val with attr := f.val.attr ||| prot } }
        mergeSameProtect l (some e.addr)) = mergeSameProtect l' (some e.addr) ∧
      Layout l' (xs ++ { e with val := { e.val with
        attr := setField WVM_PROTECT_MASK prot e.val.attr } } :: ys) ds := by
  obtain ⟨l₁, hl₁, h₁, -⟩ := h.modify_val
    (fun f => { f with attr := f.attr &&& ~~~WVM_PROTECT_MASK })
  obtain ⟨l₂, hl₂, h₂, -⟩ := h₁.modify_val (fun f => { f with attr := f.attr ||| prot })
  exact ⟨l₂, by simp [hl₁, hl₂], h₂⟩

theorem setProtect_one (h : Layout l (xs ++ e :: ys) ds) (prot : BitVec 32) :
    ∃ l', setProtect l (some e.addr) (some e.addr) prot = mergeSameProtect l' (some e.addr) ∧
      Layout l' (xs ++ { e with val := { e.val with
        attr := setField WVM_PROTECT_MASK prot e.val.attr } } :: ys) ds := by
  obtain ⟨l', hl', h'⟩ := setAttr_layout h prot
  exact ⟨l', by simpa [setProtect, mergeRange] using hl', h'⟩

variable {ms : List (Entry VMBlock)} {t : Entry VMBlock}

/-- A range of several blocks that starts at the first block of the region absorbs
everything but the last block of the region. -/
theorem setProtect_range (h : Layout l (e :: (ms ++ [t])) ds)
    (hp : HeadPrev (some e.addr) (ms ++ [t])) {z : Nat} (hz : z ∈ addrs (ms ++ [t]))
    (hs : e.val.size + Extent.total (ms.map Entry.val) < 2 ^ 64) (prot : BitVec 32) :
    ∃ l' t', setProtect l (some e.addr) (some z) prot = mergeSameProtect l' (some e.addr) ∧
      Layout l' [{ e with val := ⟨e.val.base, e.val.size + Extent.total (ms.map Entry.val),
        setField WVM_PROTECT_MASK prot e.val.attr⟩ }, t'] ds ∧
      t'.prev = some e.addr ∧ t'.val = t.val := by
  have hlen := h.length_le_fresh
  simp only [List.length_cons, List.length_append, List.length_nil] at hlen
  have hez : e.addr ≠ z := by
    have hnd := (List.nodup_append.1 h.nodup).1
    intro he
    exact (List.nodup_cons.1 hnd).1 (he ▸ hz)
  obtain ⟨n, hn⟩ : ∃ n, l.deref (some z) = some n :=
    Option.isSome_iff_exists.1
      ((h.owned z).2 (List.mem_append_left _ (List.mem_cons_of_mem _ hz)))
  obtain ⟨l₁, t', hl₁, h₁, hprev, hval, -⟩ := mergeLoop_layout h hp
    (show ms.length < l.fresh + 1 by omega) hs
  obtain ⟨l₂, hl₂, h₂⟩ := @setAttr_layout l₁ [] [t'] _ ds h₁ prot
  refine ⟨l₂, t', ?_, h₂, hprev, hval⟩
  simpa [setProtect, mergeRange, merge, hez, hn, hl₁] using hl₂

/-- A range of several blocks that starts behind the first block of the region is deleted
by `merge`, which returns it all the same. -/
theorem setProtect_deleted (h : Layout l (e :: (ms ++ [t])) ds)
    (hp : HeadPrev (some e.addr) (ms ++ [t])) {a z : Nat} (hz : z ∈ addrs (ms ++ [t]))
    (ha : a ∈ addrs ms) (haz : a ≠ z)
    (hs : e.val.size + Extent.total (ms.map Entry.val) < 2 ^ 64) (prot : BitVec 32) :
    setProtect l (some a) (some z) prot = none := by
  have hlen := h.length_le_fresh
  simp only [List.length_cons, List.length_append, List.length_nil] at hlen
  obtain ⟨n, hn⟩ : ∃ n, l.deref (some z) = some n :=
    Option.isSome_iff_exists.1
      ((h.owned z).2 (List.mem_append_left _ (List.mem_cons_of_mem _ hz)))
  obtain ⟨l₁, t', hl₁, h₁, hprev, -, haddr⟩ := mergeLoop_layout h hp
    (show ms.length < l.fresh + 1 by omega) hs
  have hnd := h.nodup
  simp only [List.map_cons, List.map_append, List.map_nil, List.cons_append, List.append_assoc,
    List.nil_append, List.nodup_cons, List.nodup_append, List.mem_append, List.mem_cons] at hnd
  obtain ⟨he, -, -, hdis⟩ := hnd
  have hgone : a ∉ addrs [{ e with val := { e.val with
      size := e.val.size + Extent.total (ms.map Entry.val) } }, t'] ++ ds := by
    simp only [List.map_cons, List.map_nil, List.cons_append, List.nil_append, List.mem_cons,
      haddr, not_or]
    exact ⟨fun hm => he (Or.inl (hm ▸ ha)), hdis a ha _ (Or.inl rfl) ,
      fun hm => hdis a ha a (Or.inr hm) rfl⟩
  have hmod := h₁.modify_none hgone
  simp [setProtect, mergeRange, merge, haz, hn, hl₁, hmod]

end VMRegion

end Vin64.Space
