import Vin64.Space.Proofs.Carving

/-!
# The links of the address space

`LinkInv` is kept by every split, wherever it is made: `_next` leads through the regions and
every `_prev` points to a region before.  It says nothing of the immediate neighbour, because
`linkNext` leaves the `_prev` of the region behind an insertion as it was.
-/

namespace Vin64.Space

open Vin64.Utils Vin64.Utils.Dllist Vin64.Lib AddressSpace

/-- The space `l` consists of the regions `es`, whatever their bases and sizes are. -/
structure LinkInv (l : AddressSpace) (es : List (Entry VMRegion)) : Prop where
  layout : Layout l es []
  back : BackOk [] es
  attr : ∀ e ∈ es, e.val.attr = freeAttr ∨ e.val.attr = liveAttr
  blocks : ∀ e ∈ es, e.val.blocks = Dllist.empty
  ne_nil : es ≠ []

theorem fits_of_chosen {base required : Nat} {r : VMRegion} (h : chosen base required r = true) :
    fits required r = true := by
  simp only [chosen, Bool.decide_and, Bool.and_eq_true] at h
  simpa using h.1

namespace LinkInv

variable {l : AddressSpace} {es xs ys : List (Entry VMRegion)} {e : Entry VMRegion}

/-! ## Splitting a region -/

/-- The two parts of a region, whatever size is wanted. -/
theorem split (h : LinkInv l (xs ++ e :: ys)) (hfree : e.val.attr = freeAttr) (want : Nat)
    (top : Bool) :
    ∃ l' c, let w := if top then sub64 e.val.size want else want
      AddressSpace.split l (some e.addr) want top = some ((some e.addr, some c), l') ∧
      LinkInv l' (xs ++ low e w :: high e w c :: ys) := by
  let w := if top then sub64 e.val.size want else want
  let r₂ : VMRegion := ⟨add64 e.val.base w, sub64 e.val.size w, freeAttr, Dllist.empty⟩
  obtain ⟨h₁, hc₁⟩ := h.layout.new r₂
  obtain ⟨l₂, hl₂, h₂, hframe⟩ := h₁.modify_val (fun f => { f with size := w })
  have hne : l.fresh ≠ e.addr := by
    intro he
    have := h.layout.fresh e.addr (by
      rw [show l.cells e.addr = _ from h.layout.deref]
      rfl)
    omega
  obtain ⟨l₃, hl₃, h₃⟩ := h₂.linkNext ((hframe l.fresh hne).trans hc₁)
  have hback := backOk_append.1 h.back
  refine ⟨l₃, l.fresh, ?_, ⟨h₃, ?_, ?_, ?_, by simp⟩⟩
  · simp only [AddressSpace.split, h.layout.deref, Option.bind_eq_bind, Option.bind_some, hfree]
    simp only [Dllist.new, w, r₂] at hl₂ hl₃ ⊢
    simp [hl₂, hl₃]
  · refine backOk_append.2 ⟨hback.1, hback.2.1, Or.inr ⟨e.addr, by simp, rfl⟩, ?_⟩
    exact hback.2.2.mono (by simp) (by simp)
  · intro y hy
    simp only [List.mem_append, List.mem_cons] at hy
    rcases hy with hy | rfl | rfl | hy
    · exact h.attr y (by simp [hy])
    · exact Or.inl hfree
    · exact Or.inl rfl
    · exact h.attr y (by simp [hy])
  · intro y hy
    simp only [List.mem_append, List.mem_cons] at hy
    rcases hy with hy | rfl | rfl | hy
    · exact h.blocks y (by simp [hy])
    · exact h.blocks e (by simp)
    · rfl
    · exact h.blocks y (by simp [hy])

theorem mark (h : LinkInv l (xs ++ e :: ys)) (hfree : e.val.attr = freeAttr) :
    ∃ l', Sections.mark l (some e.addr) = some l' ∧
      LinkInv l' (xs ++ { e with val := { e.val with attr := liveAttr } } :: ys) := by
  obtain ⟨l', hl', h', -⟩ := h.layout.modify_val
    (fun r => { r with attr := r.attr ||| (MEM_PRIVATE ||| MEM_RESERVE) })
  rw [hfree] at h'
  refine ⟨l', hl', h', ?_, ?_, ?_, by simp⟩
  · have hback := h.back
    rw [backOk_append] at hback ⊢
    exact hback
  · intro y hy
    simp only [List.mem_append, List.mem_cons] at hy
    rcases hy with hy | rfl | hy
    · exact h.attr y (by simp [hy])
    · exact Or.inr rfl
    · exact h.attr y (by simp [hy])
  · intro y hy
    simp only [List.mem_append, List.mem_cons] at hy
    rcases hy with hy | rfl | hy
    · exact h.blocks y (by simp [hy])
    · exact h.blocks e (by simp)
    · exact h.blocks y (by simp [hy])

/-! ## Carving a region -/

theorem keepLow (k : Carving) (h : LinkInv l (xs ++ (k.list ++ ys)))
    (hfree : k.region.val.attr = freeAttr) (want : Nat) :
    ∃ l' c, AddressSpace.split l (some k.region.addr) want false =
        some ((some (k.keepLow want c).region.addr, some c), l') ∧
      LinkInv l' (xs ++ ((k.keepLow want c).list ++ ys)) := by
  have h' : LinkInv l ((xs ++ k.front) ++ k.region :: (k.back ++ ys)) := by
    simpa [Carving.list] using h
  obtain ⟨l', c, hl', h'⟩ := h'.split hfree want false
  exact ⟨l', c, hl', by simpa [Carving.list, Carving.keepLow] using h'⟩

theorem keepHigh (k : Carving) (h : LinkInv l (xs ++ (k.list ++ ys)))
    (hfree : k.region.val.attr = freeAttr) (want : Nat) (top : Bool) :
    ∃ l' c, let w := if top then sub64 k.region.val.size want else want
      AddressSpace.split l (some k.region.addr) want top =
        some ((some k.region.addr, some (k.keepHigh w c).region.addr), l') ∧
      LinkInv l' (xs ++ ((k.keepHigh w c).list ++ ys)) := by
  have h' : LinkInv l ((xs ++ k.front) ++ k.region :: (k.back ++ ys)) := by
    simpa [Carving.list] using h
  obtain ⟨l', c, hl', h'⟩ := h'.split hfree want top
  exact ⟨l', c, hl', by simpa [Carving.list, Carving.keepHigh] using h'⟩

/-- What `carve` makes of the region it is given. -/
theorem carve (h : LinkInv l (xs ++ e :: ys)) (hfree : e.val.attr = freeAttr)
    (base size required : Nat) (top : Bool) :
    ∃ l' c₁ c₂ c₃, let k := Carving.carved e base size required top c₁ c₂ c₃
      AddressSpace.carve l (some e.addr) base size required top =
        some (some k.region.addr, l') ∧ LinkInv l' (xs ++ (k.list ++ ys)) := by
  have h₀ : LinkInv l (xs ++ ((Carving.mk [] e []).list ++ ys)) := h
  obtain ⟨l₁, c₁, hl₁, h₁, hfree₁⟩ : ∃ l₁ c₁, cutBase l (some e.addr) base =
      some (some (Carving.atBase e base c₁).region.addr, l₁) ∧
      LinkInv l₁ (xs ++ ((Carving.atBase e base c₁).list ++ ys)) ∧
      (Carving.atBase e base c₁).region.val.attr = freeAttr := by
    by_cases hcut : base ≠ 0 ∧ sub64 base e.val.base ≠ 0
    · obtain ⟨l₁, c₁, hl₁, h₁⟩ := keepHigh _ h₀ hfree (sub64 base e.val.base) false
      simp only [Bool.false_eq_true, if_false] at hl₁ h₁
      refine ⟨l₁, c₁, ?_, by simpa [Carving.atBase, hcut] using h₁,
        by simp [Carving.atBase, hcut, Carving.keepHigh, high]⟩
      simp only [cutBase, h.layout.deref, Option.bind_eq_bind, Option.bind_some, Carving.atBase,
        if_pos hcut, hl₁]
      rfl
    · refine ⟨l, 0, ?_, by simpa [Carving.atBase, hcut] using h₀,
        by simpa [Carving.atBase, hcut] using hfree⟩
      simp only [cutBase, h.layout.deref, Option.bind_eq_bind, Option.bind_some, Carving.atBase,
        if_neg hcut]
      rfl
  generalize hk₁ : Carving.atBase e base c₁ = k₁ at hl₁ h₁ hfree₁
  obtain ⟨l₂, c₂, p, q, hl₂, hpq, h₂, hfree₂⟩ : ∃ l₂ c₂ p q,
      AddressSpace.split l₁ (some k₁.region.addr) required top = some ((p, q), l₂) ∧
      (if top then q else p) = some (k₁.take required top c₂).region.addr ∧
      LinkInv l₂ (xs ++ ((k₁.take required top c₂).list ++ ys)) ∧
      (k₁.take required top c₂).region.val.attr = freeAttr := by
    cases top with
    | false =>
        obtain ⟨l₂, c₂, hl₂, h₂⟩ := keepLow _ h₁ hfree₁ required
        exact ⟨l₂, c₂, _, _, hl₂, rfl, h₂, hfree₁⟩
    | true =>
        obtain ⟨l₂, c₂, hl₂, h₂⟩ := keepHigh _ h₁ hfree₁ required true
        exact ⟨l₂, c₂, _, _, hl₂, rfl, h₂, rfl⟩
  generalize hk₂ : k₁.take required top c₂ = k₂ at hpq h₂ hfree₂
  by_cases hgap : required > size
  · obtain ⟨l₃, c₃, hl₃, h₃⟩ := keepLow _ h₂ hfree₂ size
    refine ⟨l₃, c₁, c₂, c₃, ?_, by simpa [Carving.carved, hk₁, hk₂, Carving.trim, hgap] using h₃⟩
    simp only [AddressSpace.carve, hl₁, hl₂, hpq, Option.bind_eq_bind, Option.bind_some,
      if_pos hgap, hl₃, Carving.carved, hk₁, hk₂, Carving.trim]
    rfl
  · refine ⟨l₂, c₁, c₂, 0, ?_, by simpa [Carving.carved, hk₁, hk₂, Carving.trim, hgap] using h₂⟩
    simp only [AddressSpace.carve, hl₁, hl₂, hpq, Option.bind_eq_bind, Option.bind_some,
      if_neg hgap, Carving.carved, hk₁, hk₂, Carving.trim]
    rfl

/-! ## Searching a region -/

/-- The search loop ends, because `rank` falls along the links it follows. -/
theorem findFit_total (h : LinkInv l es) {base required : Nat} {top : Bool}
    (rank : Nat → Nat) (hrank : ∀ xs e ys, es = xs ++ e :: ys → ∀ b,
      xnext top ⟨e.prev, ptrTo ys none, e.val⟩ = some b → b ∈ addrs es ∧ rank b < rank e.addr)
    (fuel : Nat) {a : Nat} (ha : a ∈ addrs es) (hf : rank a + 1 < fuel) :
    ∃ p, findFit l base required top fuel (some a) = some p ∧ ∀ b, p = some b → b ∈ addrs es := by
  induction fuel generalizing a with
  | zero => omega
  | succ fuel ih =>
      obtain ⟨e, he, rfl⟩ := List.mem_map.1 ha
      obtain ⟨xs, ys, rfl⟩ := List.append_of_mem he
      have hnext : ∃ p, findFit l base required top fuel
          (xnext top ⟨e.prev, ptrTo ys none, e.val⟩) = some p ∧
            ∀ b, p = some b → b ∈ addrs (xs ++ e :: ys) := by
        have hstep := hrank xs e ys rfl
        cases hn : xnext top ⟨e.prev, ptrTo ys none, e.val⟩ with
        | none =>
            obtain ⟨k, rfl⟩ : ∃ k, fuel = k + 1 := ⟨fuel - 1, by omega⟩
            exact ⟨none, rfl, by simp⟩
        | some b =>
            obtain ⟨hb, hbr⟩ := hstep b hn
            exact ih hb (by omega)
      have hself : ∃ p, (some (some e.addr) : Option Ptr) = some p ∧
          ∀ b, p = some b → b ∈ addrs (xs ++ e :: ys) :=
        ⟨some e.addr, rfl, fun b hb => by cases hb; simp⟩
      simp only [findFit, h.layout.deref, Option.bind_eq_bind, Option.bind_some]
      split_ifs
      · exact ⟨none, rfl, by simp⟩
      · exact hnext
      · exact hnext
      · exact hself
      · exact hself
      · exact hnext

/-- What the search loop returns is the first region on its way that passes all tests. -/
theorem findFit_chosen {base required : Nat} {top : Bool} {fuel : Nat} {p : Ptr} {a : Nat}
    (hf : findFit l base required top fuel p = some (some a)) :
    ∃ n, l.deref (some a) = some n ∧ chosen base required n.val = true ∧
      (searchWalk l top fuel p).find? (chosen base required) = some n.val := by
  induction fuel generalizing p with
  | zero => simp [findFit] at hf
  | succ fuel ih =>
      cases p with
      | none => simp [findFit] at hf
      | some q =>
          cases hd : l.deref (some q) with
          | none => simp [findFit, hd] at hf
          | some n =>
              have hskip : chosen base required n.val = false →
                  findFit l base required top fuel (xnext top n) = some (some a) →
                  ∃ n, l.deref (some a) = some n ∧ chosen base required n.val = true ∧
                    (searchWalk l top (fuel + 1) (some q)).find? (chosen base required) =
                      some n.val := by
                intro hn hrest
                obtain ⟨m, hm, hc, hfind⟩ := ih hrest
                exact ⟨m, hm, hc, by simp [searchWalk, hd, hn, hfind]⟩
              have hstop : chosen base required n.val = true → q = a →
                  ∃ n, l.deref (some a) = some n ∧ chosen base required n.val = true ∧
                    (searchWalk l top (fuel + 1) (some q)).find? (chosen base required) =
                      some n.val := by
                rintro hn rfl
                exact ⟨n, hd, hn, by simp [searchWalk, hd, hn]⟩
              simp only [findFit, hd, Option.bind_eq_bind, Option.bind_some] at hf
              split_ifs at hf with hfit hbase hlt hend hwant
              · simp at hf
              · exact hskip (by simp [chosen]; omega) hf
              · exact hskip (by simp [chosen]; omega) hf
              · exact hstop (by simp [chosen, hfit]; omega) (by simpa using hf)
              · exact hstop (by simp [chosen, hfit]; omega) (by simpa using hf)
              · exact hskip (by simp [chosen, hfit]) hf

theorem idxOf_addr (h : LinkInv l (xs ++ e :: ys)) :
    (addrs (xs ++ e :: ys)).idxOf e.addr = xs.length := by
  have hnd := (List.nodup_append.1 h.layout.nodup).1
  have hxs : e.addr ∉ addrs xs := by
    intro hm
    rw [addrs_append, List.nodup_append] at hnd
    exact hnd.2.2 _ hm e.addr (by simp) rfl
  rw [addrs_append, List.idxOf_append_of_notMem hxs]
  simp

/-- The search ends, and the region it finds is the candidate of the call. -/
theorem findFit_spec (h : LinkInv l es) (base required : Nat) (top : Bool) :
    ∃ p, findFit l base required top (l.fresh + 1) (xfrom l top) = some p ∧
      ∀ a, p = some a → ∃ xs e ys, es = xs ++ e :: ys ∧ e.addr = a ∧
        chosen base required e.val = true ∧
        (searchWalk l top (l.fresh + 1) (xfrom l top)).find? (chosen base required) =
          some e.val := by
  have hlen := h.layout.length_le_fresh
  have hidx : ∀ a ∈ addrs es, (addrs es).idxOf a < es.length := fun a ha => by
    simpa using List.idxOf_lt_length_of_mem ha
  have htotal : ∃ p, findFit l base required top (l.fresh + 1) (xfrom l top) = some p ∧
      ∀ b, p = some b → b ∈ addrs es := by
    cases top with
    | false =>
        obtain ⟨e, ys, rfl⟩ := List.exists_cons_of_ne_nil h.ne_nil
        rw [show xfrom l false = some e.addr from h.layout.first]
        refine h.findFit_total (fun a => (e :: ys).length - 1 - (addrs (e :: ys)).idxOf a) ?_ _
          (by simp) (by have := hidx e.addr (by simp); omega)
        intro xs' e' ys' hsplit b hb
        have hb : ptrTo ys' none = some b := hb
        cases ys' with
        | nil => cases hb
        | cons y ys' =>
            obtain rfl : y.addr = b := by simpa using hb
            rw [hsplit] at h ⊢
            have hy := @idxOf_addr l (xs' ++ [e']) ys' y (by simpa using h)
            simp only [List.append_assoc, List.singleton_append, List.length_append,
              List.length_singleton] at hy
            refine ⟨by simp, ?_⟩
            rw [hy, h.idxOf_addr]
            simp only [List.length_append, List.length_cons]
            omega
    | true =>
        obtain ⟨xs, e, rfl⟩ : ∃ xs e, es = xs ++ [e] :=
          ⟨_, _, (List.dropLast_append_getLast h.ne_nil).symm⟩
        have hlast : xfrom l true = some e.addr := by
          show l.last = _
          rw [h.layout.last]
          simp
        rw [hlast]
        refine h.findFit_total (fun a => (addrs (xs ++ [e])).idxOf a) ?_ _
          (by simp) (by have := hidx e.addr (by simp); omega)
        intro xs' e' ys' hsplit b hb
        have hb : e'.prev = some b := hb
        rw [hsplit] at h ⊢
        have hprev := (backOk_append.1 h.back).2.1
        rcases hprev with ⟨-, hnone⟩ | ⟨c, hc, hcb⟩
        · rw [hnone] at hb
          cases hb
        · obtain rfl : c = b := by simpa using hcb.symm.trans hb
          have hc : c ∈ addrs xs' := by simpa using hc
          refine ⟨by rw [addrs_append]; exact List.mem_append_left _ hc, ?_⟩
          rw [h.idxOf_addr, addrs_append, List.idxOf_append_of_mem hc]
          simpa using List.idxOf_lt_length_of_mem hc
  obtain ⟨p, hp, hmem⟩ := htotal
  refine ⟨p, hp, ?_⟩
  rintro a rfl
  obtain ⟨n, hn, hc, hfind⟩ := findFit_chosen hp
  obtain ⟨e, he, rfl⟩ := List.mem_map.1 (hmem a rfl)
  obtain ⟨xs, ys, rfl⟩ := List.append_of_mem he
  have hval : n.val = e.val := by
    rw [h.layout.deref] at hn
    rw [← Option.some_inj.1 hn]
  rw [hval] at hc hfind
  exact ⟨xs, e, ys, rfl, rfl, hc, hfind⟩

theorem freeAttr_of_fits (h : LinkInv l es) (he : e ∈ es) {required : Nat}
    (hf : fits required e.val = true) : e.val.attr = freeAttr ∧ required ≤ e.val.size := by
  simp only [fits, Bool.decide_and, Bool.and_eq_true, decide_eq_true_eq] at hf
  refine ⟨?_, hf.2.2⟩
  rcases h.attr e he with ha | ha
  · exact ha
  · rw [ha] at hf
    exact absurd hf.1 (by decide)

/-! ## Allocating -/

/-- What `allocSectionAddress` did when it returns a region: it carved the region `e`. -/
structure Carves (l : AddressSpace) (es : List (Entry VMRegion)) (base size : Nat) (top : Bool)
    (xs : List (Entry VMRegion)) (e : Entry VMRegion) (ys : List (Entry VMRegion)) (k : Carving)
    (l' : AddressSpace) : Prop where
  split : es = xs ++ e :: ys
  aligned : base &&& (VMBLOCK_AT_ALIGN - 1) = 0
  found : findFit l base (required size) (direction base top) (l.fresh + 1)
    (xfrom l (direction base top)) = some (some e.addr)
  fits : chosen base (required size) e.val = true
  candidate : l.candidate base size top = some e.val
  result : l.allocSectionAddress base size top = some (some k.region.addr, l')
  carved : ∃ c₁ c₂ c₃,
    k = Carving.carved e base (wanted size) (required size) (direction base top) c₁ c₂ c₃
  inv : LinkInv l' (xs ++ (k.list ++ ys))

/-- A call returns null and leaves the space, or it carves a region. -/
theorem alloc (h : LinkInv l es) (base size : Nat) (top : Bool) :
    (l.allocSectionAddress base size top = some (none, l) ∧
      (base &&& (VMBLOCK_AT_ALIGN - 1) = 0 →
        findFit l base (required size) (direction base top) (l.fresh + 1)
          (xfrom l (direction base top)) = some none)) ∨
      ∃ xs e ys k l', Carves l es base size top xs e ys k l' := by
  have hfirst : l.first ≠ none := by
    obtain ⟨e, ys, rfl⟩ := List.exists_cons_of_ne_nil h.ne_nil
    rw [h.layout.first]
    simp
  by_cases ha : base &&& (VMBLOCK_AT_ALIGN - 1) = 0
  · obtain ⟨p, hp, hfound⟩ := h.findFit_spec base (required size) (direction base top)
    cases p with
    | none =>
        refine Or.inl ⟨?_, fun _ => hp⟩
        simp only [allocSectionAddress]
        rw [if_neg (not_not_intro ha), if_neg hfirst]
        simp only [hp, Option.bind_eq_bind, Option.bind_some, if_true]
        rfl
    | some a =>
        obtain ⟨xs, e, ys, rfl, rfl, hc, hfind⟩ := hfound a rfl
        have hfree := (h.freeAttr_of_fits (by simp) (fits_of_chosen hc)).1
        obtain ⟨l', c₁, c₂, c₃, hl', h'⟩ :=
          h.carve hfree base (wanted size) (required size) (direction base top)
        refine Or.inr ⟨xs, e, ys, _, l', rfl, ha, hp, hc, hfind, ?_, ⟨c₁, c₂, c₃, rfl⟩, h'⟩
        simp only [allocSectionAddress]
        rw [if_neg (not_not_intro ha), if_neg hfirst]
        simp only [hp, hl', Option.bind_eq_bind, Option.bind_some, reduceCtorEq, if_false]
  · refine Or.inl ⟨?_, fun hal => absurd hal ha⟩
    simp only [allocSectionAddress]
    rw [if_pos ha]
    rfl

/-! ## Freeing -/

theorem tested_attr (h : LinkInv l es) (he : e ∈ es) :
    e.val.attr &&& MEM_FREE ≠ 0#32 ∧ e.val.attr &&& WVM_TYPE_MASK ≠ 0#32 ∧
      e.val.attr &&& WVM_STATE_MASK ≠ MEM_FREE := by
  rcases h.attr e he with ha | ha <;> rw [ha] <;> decide

/-- The first loop of `freeSectionAddress` absorbs everything behind: every region carries
the bit it tests. -/
theorem freeNextLoop_layout {ms : List (Entry VMRegion)} {ds : List Nat}
    (h : Layout l (xs ++ e :: ms) ds) (hp : HeadPrev (some e.addr) ms)
    (hattr : ∀ v ∈ ms.map Entry.val, v.attr &&& MEM_FREE ≠ 0#32) {fuel : Nat}
    (hf : ms.length < fuel) (hs : e.val.size < 2 ^ 64) :
    ∃ l', freeNextLoop fuel l (some e.addr) = some l' ∧
      Layout l' (xs ++ [low e ((e.val.size + Extent.total (ms.map Entry.val)) % 2 ^ 64)]) ds := by
  induction hn : ms.length generalizing l e ms fuel with
  | zero =>
      obtain ⟨fuel, rfl⟩ : ∃ k, fuel = k + 1 := ⟨fuel - 1, by omega⟩
      obtain rfl := List.eq_nil_of_length_eq_zero hn
      have hlow : low e ((e.val.size + Extent.total (([] : List (Entry VMRegion)).map Entry.val)) %
          2 ^ 64) = e := by
        rw [List.map_nil, Extent.total_nil, Nat.add_zero, Nat.mod_eq_of_lt hs]
        rfl
      exact ⟨l, by simp [freeNextLoop, h.deref], by rw [hlow]; exact h⟩
  | succ n ih =>
      obtain ⟨fuel, rfl⟩ : ∃ k, fuel = k + 1 := ⟨fuel - 1, by omega⟩
      obtain ⟨m, ms, rfl⟩ := List.exists_cons_of_length_eq_add_one hn
      simp only [List.length_cons] at hf hn
      have hm : l.deref (some m.addr) = some ⟨m.prev, ptrTo ms none, m.val⟩ :=
        @Layout.deref _ l (xs ++ [e]) m ms ds (by simpa using h)
      have hne : m.val.attr &&& MEM_FREE ≠ 0#32 := hattr m.val (by simp)
      obtain ⟨l₁, hl₁, h₁, -⟩ := h.modify_val
        (fun s => { s with size := add64 s.size m.val.size })
      obtain ⟨l₂, hl₂, h₂⟩ := h₁.unlink hp
      have hhead := headPrev_setHeadPrev (some e.addr) ms
      have hvals := map_val_setHeadPrev (some e.addr) ms
      obtain ⟨l₃, hl₃, h₃⟩ := ih h₂ hhead (by rw [hvals]; exact fun v hv => hattr v (by simp_all))
        (show _ < fuel by rw [length_setHeadPrev]; omega)
        (show add64 e.val.size m.val.size < 2 ^ 64 from Nat.mod_lt _ (by decide))
        (by rw [length_setHeadPrev]; omega)
      refine ⟨l₃, ?_, ?_⟩
      · have hd := h.deref
        simp only [ptrTo_cons] at hd
        simp [freeNextLoop, hd, hm, hne, hl₁, hl₂, hl₃]
      · have hsum : (add64 e.val.size m.val.size + Extent.total (ms.map Entry.val)) % 2 ^ 64 =
            (e.val.size + Extent.total ((m :: ms).map Entry.val)) % 2 ^ 64 := by
          simp only [add64, List.map_cons, Extent.total_cons,
            show Extent.size m.val = m.val.size from rfl]
          omega
        rw [← hsum]
        simpa [hvals, low] using h₃

/-- Freeing the first region absorbs all others, whatever their state. -/
theorem freeSection_first {ms : List (Entry VMRegion)} (h : LinkInv l (e :: ms))
    (hs : e.val.size < 2 ^ 64) :
    ∃ l', freeSection l (some e.addr) = some (0, l') ∧
      LinkInv l' [⟨e.addr, none, ⟨e.val.base,
        (e.val.size + Extent.total (ms.map Entry.val)) % 2 ^ 64, freeAttr, Dllist.empty⟩⟩] := by
  have hprev : e.prev = none := by
    obtain ⟨(⟨-, hprev⟩ | ⟨a, ha, -⟩), -⟩ := h.back
    · exact hprev
    · cases ha
  have hblocks : e.val.blocks = Dllist.empty := h.blocks e (by simp)
  have hlen := h.layout.length_le_fresh
  simp only [List.length_cons] at hlen
  obtain ⟨l₁, hl₁, h₁⟩ := @freeNextLoop_layout l [] e ms [] h.layout h.back.headPrev
    (by
      intro v hv
      obtain ⟨m, hm, rfl⟩ := List.mem_map.1 hv
      exact (h.tested_attr (List.mem_cons_of_mem e hm)).1)
    (l.fresh + 1) (by omega) hs
  rw [List.nil_append] at h₁
  have hl₂ : freePrevLoop (l₁.fresh + 1) l₁ (some e.addr) = some l₁ := by
    have hd := h₁.deref_head
    simp only [low, hprev] at hd
    simp [freePrevLoop, hd]
  obtain ⟨l₃, hl₃, h₃, -⟩ := @Layout.modify_val _ l₁ [] _ [] [] h₁
    (fun s => { s with attr := PAGE_NOACCESS ||| MEM_FREE })
  obtain ⟨l₄, hl₄, h₄, -⟩ := @Layout.modify_val _ l₃ [] _ [] [] h₃
    (fun s => { s with blocks := Dllist.empty })
  have hdestroy : e.val.blocks.destroy = some Dllist.empty := by
    rw [hblocks]
    rfl
  have hattr : PAGE_NOACCESS ||| MEM_FREE = freeAttr := by decide
  simp only [low, hprev, hattr] at h₄
  obtain ⟨-, htype, hstate⟩ := h.tested_attr (e := e) (by simp)
  refine ⟨l₄, ?_, ⟨h₄, ⟨Or.inl ⟨rfl, rfl⟩, trivial⟩, by simp, by simp, by simp⟩⟩
  have hd₃ := h₃.deref_head
  simp only [freeSection, h.layout.deref_head, Option.bind_eq_bind, Option.bind_some]
  rw [if_neg (by simp [htype, hstate])]
  simp only [low] at hl₃ hl₄ hd₃
  simp only [hl₁, hl₂, hl₃, hd₃, hdestroy, Option.bind_some]
  simp [hl₄]

/-- On a region with a `_prev` and no `_next` the second loop follows the null link. -/
theorem freePrevLoop_last {ds : List Nat} (h : Layout l (xs ++ [e]) ds) (hp : e.prev ≠ none)
    (fuel : Nat) : freePrevLoop (fuel + 1) l (some e.addr) = none := by
  have hnull : l.deref none = none := rfl
  simp [freePrevLoop, h.deref, hp, hnull]

/-- A region whose `_prev` skips the freed one is deleted, but the freed one keeps its
`_next`. -/
theorem freeNextLoop_stale {ws : List (Entry VMRegion)} {p m : Entry VMRegion}
    {ms : List (Entry VMRegion)} {ds : List Nat}
    (h : Layout l (xs ++ p :: (ws ++ e :: m :: ms)) ds) (hp : m.prev = some p.addr)
    (hattr : m.val.attr &&& MEM_FREE ≠ 0#32) (fuel : Nat) :
    freeNextLoop (fuel + 2) l (some e.addr) = none := by
  have h' : Layout l ((xs ++ p :: ws) ++ e :: m :: ms) ds := by simpa using h
  have hm : l.deref (some m.addr) = some ⟨m.prev, ptrTo ms none, m.val⟩ :=
    @Layout.deref _ l (xs ++ p :: (ws ++ [e])) m ms ds (by simpa using h)
  obtain ⟨l₁, hl₁, h₁, -⟩ := h'.modify_val
    (fun s => { s with size := add64 s.size m.val.size })
  obtain ⟨l₂, hl₂, hdel, hcell⟩ := @Layout.unlink_stale _ l₁ xs ws p _ m ms ds
    (by simpa using h₁) hp
  have hd₂ : l₂.deref (some e.addr) = some ⟨e.prev, some m.addr, _⟩ := hcell
  have hm₂ : l₂.deref (some m.addr) = none := hdel
  simp [freeNextLoop, h'.deref, hm, hattr, hl₁, hl₂, hd₂, hm₂]

/-- Freeing a region behind the first one follows a null link or the link of a deleted
region. -/
theorem freeSection_behind {ms : List (Entry VMRegion)} (h : LinkInv l (xs ++ e :: ms))
    (hne : xs ≠ []) (hs : e.val.size < 2 ^ 64) : freeSection l (some e.addr) = none := by
  have hlen := h.layout.length_le_fresh
  simp only [List.length_append, List.length_cons] at hlen
  obtain ⟨-, htype, hstate⟩ := h.tested_attr (e := e) (by simp)
  have hback := (backOk_append.1 h.back).2
  have hprev : e.prev ≠ none := by
    rcases hback.1 with ⟨hnil, -⟩ | ⟨a, -, ha⟩
    · simp [hne] at hnil
    · simp [ha]
  have hattr : ∀ v ∈ ms.map Entry.val, v.attr &&& MEM_FREE ≠ 0#32 := by
    intro v hv
    obtain ⟨m, hm, rfl⟩ := List.mem_map.1 hv
    exact (h.tested_attr (by simp [hm])).1
  have hgood : HeadPrev (some e.addr) ms →
      (do
        let l ← freeNextLoop (l.fresh + 1) l (some e.addr)
        freePrevLoop (l.fresh + 1) l (some e.addr)) = none := by
    intro hp
    obtain ⟨l₁, hl₁, h₁⟩ := freeNextLoop_layout h.layout hp hattr
      (show ms.length < l.fresh + 1 by omega) hs
    simp only [hl₁, Option.bind_eq_bind, Option.bind_some]
    exact freePrevLoop_last h₁ hprev l₁.fresh
  have hboth : (do
      let l ← freeNextLoop (l.fresh + 1) l (some e.addr)
      freePrevLoop (l.fresh + 1) l (some e.addr)) = none := by
    cases ms with
    | nil => exact hgood trivial
    | cons m ms =>
        rcases hback.2.1 with ⟨hnil, -⟩ | ⟨a, ha, hpa⟩
        · simp at hnil
        · by_cases hae : a = e.addr
          · exact hgood (by rw [← hae]; exact hpa)
          · have hxs : a ∈ addrs xs := by simpa [hae] using ha
            obtain ⟨p, hp, rfl⟩ := List.mem_map.1 hxs
            obtain ⟨us, ws, rfl⟩ := List.append_of_mem hp
            have hl : Layout l (us ++ p :: (ws ++ e :: m :: ms)) [] := by simpa using h.layout
            simp only [List.length_append, List.length_cons] at hlen
            rw [show l.fresh + 1 = (l.fresh - 1) + 2 by omega,
              freeNextLoop_stale hl hpa (hattr m.val (by simp))]
            rfl
  simp only [freeSection, h.layout.deref, Option.bind_eq_bind, Option.bind_some]
  rw [if_neg (by simp [htype, hstate])]
  simp only [Option.bind_eq_bind] at hboth
  rw [← Option.bind_assoc, hboth]
  rfl

theorem findSectionLoop_cons {y : Entry VMRegion} (h : LinkInv l (xs ++ y :: ys)) (base fuel : Nat) :
    findSectionLoop l base true (fuel + 1) (ptrTo (y :: ys) none) =
      if y.val.base > base then some none
      else if y.val.base ≠ base then findSectionLoop l base true fuel (ptrTo ys none)
      else some (some y.addr) := by
  simp only [ptrTo_cons, findSectionLoop, h.layout.deref, Option.bind_eq_bind, Option.bind_some,
    if_true]
  rfl

theorem findSectionLoop_spec (h : LinkInv l (xs ++ ys)) (base : Nat) {fuel : Nat}
    (hf : ys.length < fuel) :
    ∃ p, findSectionLoop l base true fuel (ptrTo ys none) = some p ∧
      ∀ a, p = some a → ∃ y ∈ ys, y.addr = a ∧ y.val.base = base := by
  induction ys generalizing xs fuel with
  | nil =>
      obtain ⟨fuel, rfl⟩ : ∃ k, fuel = k + 1 := ⟨fuel - 1, by omega⟩
      exact ⟨none, rfl, by simp⟩
  | cons y ys ih =>
      obtain ⟨fuel, rfl⟩ : ∃ k, fuel = k + 1 := ⟨fuel - 1, by omega⟩
      obtain ⟨p, hp, hmem⟩ := @ih (xs ++ [y]) (by simpa using h) fuel (by simpa using hf)
      rw [h.findSectionLoop_cons]
      split_ifs with hgt hne
      · exact ⟨none, rfl, by simp⟩
      · refine ⟨p, hp, fun a ha => ?_⟩
        obtain ⟨z, hz, hza⟩ := hmem a ha
        exact ⟨z, List.mem_cons_of_mem y hz, hza⟩
      · exact ⟨some y.addr, rfl, fun a ha => ⟨y, by simp, by simpa using ha, not_not.1 hne⟩⟩

theorem findSectionAddress_spec (h : LinkInv l es) (base : Nat) :
    ∃ p, l.findSectionAddress base true = some p ∧
      ∀ a, p = some a → ∃ y ∈ es, y.addr = a ∧ y.val.base = base := by
  have hlen := h.layout.length_le_fresh
  have := @findSectionLoop_spec l [] es h base (l.fresh + 1) (by omega)
  rw [← h.layout.first] at this
  exact this

/-- The region at base 0 is found first. -/
theorem findSectionAddress_first (h : LinkInv l (e :: ys)) (hbase : e.val.base = 0) :
    l.findSectionAddress 0 true = some (some e.addr) := by
  have hfirst : xfrom l false = some e.addr := h.layout.first
  simp [findSectionAddress, hfirst, findSectionLoop, h.layout.deref_head, hbase]

end LinkInv

end Vin64.Space
