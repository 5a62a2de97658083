import Vin64.Utils.Dllist
import Mathlib.Data.List.Nodup
import Mathlib.Data.List.Perm.Subperm
import Mathlib.Tactic.Basic

/-!
# Layouts of a doubly linked list

A layout lists the objects of a `dllist` in `_next` order.  It records the `_prev`
pointer of each object as it stands, because `linkNext` and `linkPrev` do not keep the
back pointers of the neighbours: a layout whose back pointers are right is a
correctly doubly linked list (`PrevOk`).
-/

namespace Vin64.Utils

/-- One object of a layout: its address, its `_prev` pointer and its contents. -/
structure Entry (α : Type) where
  addr : Nat
  prev : Ptr
  val : α
deriving Repr, DecidableEq

namespace Dllist

variable {α : Type}

/-- The pointer to the first of `es`, or `q` when there is none. -/
def ptrTo (es : List (Entry α)) (q : Ptr) : Ptr :=
  match es with
  | [] => q
  | e :: _ => some e.addr

/-- `_next` leads through `es` in order and from the last of them to `q`. -/
def Seg (cells : Nat → Option (Node α)) : List (Entry α) → Ptr → Prop
  | [], _ => True
  | e :: es, q => cells e.addr = some ⟨e.prev, ptrTo es q, e.val⟩ ∧ Seg cells es q

/-- Addresses of a layout. -/
abbrev addrs (es : List (Entry α)) : List Nat := es.map Entry.addr

/-- The list `l` consists of the objects `es`; `xs` are objects that exist but
are not linked. -/
structure Layout (l : Dllist α) (es : List (Entry α)) (xs : List Nat) : Prop where
  seg : Seg l.cells es none
  first : l.first = ptrTo es none
  last : l.last = es.getLast?.map Entry.addr
  nodup : (addrs es ++ xs).Nodup
  owned : ∀ a, (l.cells a).isSome = true ↔ a ∈ addrs es ++ xs
  fresh : ∀ a, (l.cells a).isSome = true → a < l.fresh

/-- Every `_prev` points to the object before, the first one to `p`. -/
def PrevOk : Ptr → List (Entry α) → Prop
  | _, [] => True
  | p, e :: es => e.prev = p ∧ PrevOk (some e.addr) es

/-- Every `_prev` points to one of the objects before, `seen` being those in front of the
list; the one of the first object is null. -/
def BackOk : List Nat → List (Entry α) → Prop
  | _, [] => True
  | seen, e :: es =>
    ((seen = [] ∧ e.prev = none) ∨ ∃ a ∈ seen, e.prev = some a) ∧ BackOk (seen ++ [e.addr]) es

/-- The pointer to the last of `es`, or `p` when there is none. -/
def endPtr : Ptr → List (Entry α) → Ptr
  | p, [] => p
  | _, e :: es => endPtr (some e.addr) es

/-- `es` with the `_prev` of its first object set to `p`. -/
def setHeadPrev (p : Ptr) : List (Entry α) → List (Entry α)
  | [] => []
  | e :: es => { e with prev := p } :: es

/-- The `_prev` of the first of `es` is `p`. -/
def HeadPrev (p : Ptr) : List (Entry α) → Prop
  | [] => True
  | e :: _ => e.prev = p

/-- The contents of the objects on the way along `_next` from `p`. -/
def walk (l : Dllist α) : Nat → Ptr → List α
  | 0, _ => []
  | fuel + 1, p =>
    match l.deref p with
    | none => []
    | some n => n.val :: walk l fuel n.next

/-- The contents of the list in `_next` order. -/
def toList (l : Dllist α) : List α := walk l l.fresh l.first

theorem addrs_append (xs ys : List (Entry α)) : addrs (xs ++ ys) = addrs xs ++ addrs ys :=
  List.map_append

/-! ## Segments -/

@[simp] theorem ptrTo_nil (q : Ptr) : ptrTo ([] : List (Entry α)) q = q := rfl

@[simp] theorem ptrTo_cons (e : Entry α) (es : List (Entry α)) (q : Ptr) :
    ptrTo (e :: es) q = some e.addr := rfl

theorem ptrTo_append (xs ys : List (Entry α)) (q : Ptr) :
    ptrTo (xs ++ ys) q = ptrTo xs (ptrTo ys q) := by
  cases xs <;> rfl

@[simp] theorem ptrTo_setHeadPrev (p q : Ptr) (es : List (Entry α)) :
    ptrTo (setHeadPrev p es) q = ptrTo es q := by
  cases es <;> rfl

@[simp] theorem addrs_setHeadPrev (p : Ptr) (es : List (Entry α)) :
    addrs (setHeadPrev p es) = addrs es := by
  cases es <;> rfl

@[simp] theorem length_setHeadPrev (p : Ptr) (es : List (Entry α)) :
    (setHeadPrev p es).length = es.length := by
  cases es <;> rfl

@[simp] theorem map_val_setHeadPrev (p : Ptr) (es : List (Entry α)) :
    (setHeadPrev p es).map Entry.val = es.map Entry.val := by
  cases es <;> rfl

theorem setHeadPrev_append (p : Ptr) (xs ys : List (Entry α)) :
    ∃ xs' ys', setHeadPrev p (xs ++ ys) = xs' ++ ys' ∧
      xs'.map Entry.val = xs.map Entry.val ∧ ys'.map Entry.val = ys.map Entry.val ∧
      addrs ys' = addrs ys := by
  cases xs with
  | nil => exact ⟨[], setHeadPrev p ys, rfl, rfl, by simp, by simp⟩
  | cons x xs => exact ⟨{ x with prev := p } :: xs, ys, rfl, rfl, rfl, rfl⟩

theorem headPrev_setHeadPrev (p : Ptr) (es : List (Entry α)) :
    HeadPrev p (setHeadPrev p es) := by
  cases es <;> simp [HeadPrev, setHeadPrev]

theorem PrevOk.headPrev {p : Ptr} {es : List (Entry α)} (h : PrevOk p es) :
    HeadPrev p es := by
  cases es with
  | nil => trivial
  | cons e es => exact h.1

theorem endPtr_append (p : Ptr) (xs ys : List (Entry α)) :
    endPtr p (xs ++ ys) = endPtr (endPtr p xs) ys := by
  induction xs generalizing p with
  | nil => rfl
  | cons x xs ih => exact ih (some x.addr)

theorem endPtr_concat (p : Ptr) (xs : List (Entry α)) (e : Entry α) :
    endPtr p (xs ++ [e]) = some e.addr := by
  rw [endPtr_append]; rfl

theorem endPtr_none {xs : List (Entry α)} : endPtr none xs = none ↔ xs = [] := by
  rcases List.eq_nil_or_concat xs with rfl | ⟨ys, y, rfl⟩
  · simp [endPtr]
  · simp [endPtr_concat]

theorem prevOk_append {p : Ptr} {xs ys : List (Entry α)} :
    PrevOk p (xs ++ ys) ↔ PrevOk p xs ∧ PrevOk (endPtr p xs) ys := by
  induction xs generalizing p with
  | nil => simp [PrevOk, endPtr]
  | cons x xs ih => simp [PrevOk, endPtr, ih, and_assoc]

theorem backOk_append {seen : List Nat} {xs ys : List (Entry α)} :
    BackOk seen (xs ++ ys) ↔ BackOk seen xs ∧ BackOk (seen ++ addrs xs) ys := by
  induction xs generalizing seen with
  | nil => simp [BackOk]
  | cons x xs ih => simp [BackOk, ih, and_assoc]

theorem BackOk.mono {seen seen' : List Nat} {es : List (Entry α)} (h : BackOk seen es)
    (hne : seen ≠ []) (hsub : seen ⊆ seen') : BackOk seen' es := by
  induction es generalizing seen seen' with
  | nil => trivial
  | cons e es ih =>
      obtain ⟨(⟨hnil, -⟩ | ⟨a, ha, hprev⟩), hes⟩ := h
      · exact absurd hnil hne
      · refine ⟨Or.inr ⟨a, hsub ha, hprev⟩, ih hes (by simp) ?_⟩
        intro b hb
        rcases List.mem_append.1 hb with hb | hb
        · exact List.mem_append_left _ (hsub hb)
        · exact List.mem_append_right _ hb

theorem BackOk.headPrev {e : Entry α} {es : List (Entry α)} (h : BackOk [] (e :: es)) :
    HeadPrev (some e.addr) es := by
  cases es with
  | nil => trivial
  | cons x es =>
      obtain ⟨-, (⟨hnil, -⟩ | ⟨a, ha, hprev⟩), -⟩ := h
      · cases hnil
      · obtain rfl : a = e.addr := by simpa using ha
        exact hprev

theorem seg_append (cells : Nat → Option (Node α)) (xs ys : List (Entry α)) (q : Ptr) :
    Seg cells (xs ++ ys) q ↔ Seg cells xs (ptrTo ys q) ∧ Seg cells ys q := by
  induction xs with
  | nil => simp [Seg]
  | cons x xs ih => simp [Seg, ih, ptrTo_append, and_assoc]

/-- Storing outside a segment leaves it as it is. -/
theorem seg_update {cells : Nat → Option (Node α)} {es : List (Entry α)} {q : Ptr}
    {a : Nat} {v : Option (Node α)} (ha : a ∉ addrs es) :
    Seg (Function.update cells a v) es q ↔ Seg cells es q := by
  induction es with
  | nil => simp [Seg]
  | cons e es ih =>
      have hne : e.addr ≠ a := fun h => ha (by simp [h])
      have hes : a ∉ addrs es := fun h => ha (by simp_all)
      simp only [Seg, ih hes, Function.update_of_ne hne]

theorem seg_cell {cells : Nat → Option (Node α)} {xs : List (Entry α)} {e : Entry α}
    {ys : List (Entry α)} {q : Ptr} (h : Seg cells (xs ++ e :: ys) q) :
    cells e.addr = some ⟨e.prev, ptrTo ys q, e.val⟩ :=
  ((seg_append cells xs (e :: ys) q).1 h).2.1

theorem seg_setHeadPrev {cells : Nat → Option (Node α)} {e : Entry α}
    {es : List (Entry α)} {p q : Ptr} (h : Seg cells (e :: es) q)
    (hnd : (addrs (e :: es)).Nodup) :
    Seg (Function.update cells e.addr (some ⟨p, ptrTo es q, e.val⟩))
      (setHeadPrev p (e :: es)) q := by
  have hes : e.addr ∉ addrs es := by simpa using (List.nodup_cons.1 hnd).1
  refine ⟨by simp, ?_⟩
  rw [seg_update hes]
  exact h.2

/-! ## Reading and writing objects -/

theorem modify_setFirst (l : Dllist α) (p q : Ptr) (f : Node α → Node α) :
    { l with first := p }.modify q f = (l.modify q f).map fun l => { l with first := p } := by
  cases q with
  | none => rfl
  | some a => cases hc : l.cells a <;> simp [Dllist.modify, hc]

theorem modify_of_cell {l : Dllist α} {a : Nat} {n : Node α} (hc : l.cells a = some n)
    (f : Node α → Node α) :
    l.modify (some a) f =
      some { l with cells := Function.update l.cells a (some (f n)) } := by
  simp only [Dllist.modify, hc]

theorem Layout.deref {l : Dllist α} {xs : List (Entry α)} {e : Entry α}
    {ys : List (Entry α)} {ds : List Nat} (h : Layout l (xs ++ e :: ys) ds) :
    l.deref (some e.addr) = some ⟨e.prev, ptrTo ys none, e.val⟩ :=
  seg_cell h.seg

theorem Layout.deref_head {l : Dllist α} {e : Entry α} {ys : List (Entry α)}
    {ds : List Nat} (h : Layout l (e :: ys) ds) :
    l.deref (some e.addr) = some ⟨e.prev, ptrTo ys none, e.val⟩ :=
  h.seg.1

theorem Layout.first_ne_none {l : Dllist α} {es : List (Entry α)} {ds : List Nat}
    (h : Layout l es ds) (hne : es ≠ []) : l.first ≠ none := by
  rw [h.first]
  cases es with
  | nil => exact absurd rfl hne
  | cons e es => simp

theorem Layout.addr_inj {l : Dllist α} {es : List (Entry α)} {ds : List Nat} (h : Layout l es ds)
    {e f : Entry α} (he : e ∈ es) (hf : f ∈ es) (haddr : e.addr = f.addr) : e = f :=
  List.inj_on_of_nodup_map (List.nodup_append.1 h.nodup).1 he hf haddr

theorem Layout.deref_none {l : Dllist α} {es : List (Entry α)} {ds : List Nat}
    (h : Layout l es ds) {a : Nat} (ha : a ∉ addrs es ++ ds) :
    l.deref (some a) = none := by
  have := mt (h.owned a).1 ha
  simpa [Dllist.deref] using this

theorem Layout.modify_none {l : Dllist α} {es : List (Entry α)} {ds : List Nat}
    (h : Layout l es ds) {a : Nat} (ha : a ∉ addrs es ++ ds) (f : Node α → Node α) :
    l.modify (some a) f = none := by
  have hn : l.cells a = none := h.deref_none ha
  simp [Dllist.modify, hn]

/-- Writing a linked object without its `_next`. -/
theorem Layout.modify_linked {l : Dllist α} {xs : List (Entry α)} {e : Entry α}
    {ys : List (Entry α)} {ds : List Nat} (h : Layout l (xs ++ e :: ys) ds) (f : Node α → Node α)
    (hf : ∀ n, (f n).next = n.next) :
    ∃ l', let n := f ⟨e.prev, ptrTo ys none, e.val⟩
      l.modify (some e.addr) f = some l' ∧
      Layout l' (xs ++ ⟨e.addr, n.prev, n.val⟩ :: ys) ds ∧
      ∀ a, a ≠ e.addr → l'.cells a = l.cells a := by
  have hc := seg_cell h.seg
  have hnd := h.nodup
  simp only [List.map_append, List.map_cons, List.append_assoc, List.cons_append,
    List.nodup_append, List.nodup_cons, List.mem_append, List.mem_cons] at hnd
  obtain ⟨hx, ⟨hey, hyd⟩, hdis⟩ := hnd
  have hex : e.addr ∉ addrs xs := fun hm => hdis _ hm _ (Or.inl rfl) rfl
  have hseg := (seg_append _ _ _ _).1 h.seg
  have hnode : ∀ n : Node α, n.next = ptrTo ys none → n = ⟨n.prev, ptrTo ys none, n.val⟩ := by
    rintro ⟨p, q, v⟩ rfl
    rfl
  refine ⟨_, modify_of_cell hc _, ⟨?_, ?_, ?_, ?_, ?_, ?_⟩,
    fun a ha => Function.update_of_ne ha _ _⟩
  · rw [seg_append]
    refine ⟨(seg_update hex).2 hseg.1, ?_, (seg_update (by tauto)).2 hseg.2.2⟩
    simp only [Function.update_self]
    exact congrArg some (hnode _ (hf _))
  · rw [h.first, ptrTo_append, ptrTo_append]; rfl
  · rw [h.last, ← List.getLast?_map, ← List.getLast?_map]; simp
  · have := h.nodup; simpa using this
  · intro a
    by_cases ha : a = e.addr
    · subst ha; simp
    · simpa [Function.update_of_ne ha] using h.owned a
  · intro a hs
    by_cases ha : a = e.addr
    · subst ha; exact h.fresh _ (by simp [hc])
    · exact h.fresh a (by simpa [Function.update_of_ne ha] using hs)

/-- Writing the contents of a linked object. -/
theorem Layout.modify_val {l : Dllist α} {xs : List (Entry α)} {e : Entry α}
    {ys : List (Entry α)} {ds : List Nat} (h : Layout l (xs ++ e :: ys) ds) (g : α → α) :
    ∃ l', l.modify (some e.addr) (fun n => { n with val := g n.val }) = some l' ∧
      Layout l' (xs ++ { e with val := g e.val } :: ys) ds ∧
      ∀ a, a ≠ e.addr → l'.cells a = l.cells a :=
  h.modify_linked (fun n => { n with val := g n.val }) fun _ => rfl

/-- Writing an object that is not linked. -/
theorem Layout.modify_detached {l : Dllist α} {es : List (Entry α)} {ds : List Nat}
    (h : Layout l es ds) {a : Nat} {n : Node α} (ha : a ∈ ds) (hc : l.cells a = some n)
    (f : Node α → Node α) :
    ∃ l', l.modify (some a) f = some l' ∧ Layout l' es ds ∧ l'.cells a = some (f n) := by
  have hne : a ∉ addrs es := by
    intro hm
    exact (List.nodup_append.1 h.nodup).2.2 a hm a ha rfl
  refine ⟨_, modify_of_cell hc _, ?_, by simp⟩
  refine ⟨(seg_update hne).2 h.seg, h.first, h.last, h.nodup, ?_, ?_⟩
  · intro b
    by_cases hb : b = a
    · subst hb; simp [ha]
    · simpa [Function.update_of_ne hb] using h.owned b
  · intro b hs
    by_cases hb : b = a
    · subst hb; exact h.fresh _ (by simp [hc])
    · exact h.fresh b (by simpa [Function.update_of_ne hb] using hs)

theorem Layout.new {l : Dllist α} {es : List (Entry α)} {ds : List Nat}
    (h : Layout l es ds) (v : α) :
    Layout (l.new v).2 es (l.fresh :: ds) ∧
      (l.new v).2.cells l.fresh = some ⟨none, none, v⟩ := by
  have hnew : l.fresh ∉ addrs es ++ ds := by
    intro hm
    exact absurd (h.fresh _ ((h.owned _).2 hm)) (Nat.lt_irrefl _)
  have hes : l.fresh ∉ addrs es := fun hm => hnew (List.mem_append_left _ hm)
  refine ⟨⟨(seg_update hes).2 h.seg, h.first, h.last, ?_, ?_, ?_⟩, by simp [Dllist.new]⟩
  · rw [List.nodup_middle]
    exact List.nodup_cons.2 ⟨hnew, h.nodup⟩
  · intro a
    by_cases ha : a = l.fresh
    · subst ha; simp [Dllist.new]
    · have := h.owned a
      simp only [Dllist.new, Function.update_of_ne ha, this]
      simp [ha]
  · intro a hs
    by_cases ha : a = l.fresh
    · subst ha; simp [Dllist.new]
    · have := h.fresh a (by simpa [Dllist.new, Function.update_of_ne ha] using hs)
      simp only [Dllist.new]; omega

theorem layout_empty : Layout (empty : Dllist α) [] [] :=
  ⟨trivial, rfl, rfl, List.nodup_nil, by simp [empty], by simp [empty]⟩

/-- A layout has no more objects than addresses handed out. -/
theorem Layout.length_le_fresh {l : Dllist α} {es : List (Entry α)} {ds : List Nat}
    (h : Layout l es ds) : es.length ≤ l.fresh := by
  have hnd : (addrs es).Nodup := (List.nodup_append.1 h.nodup).1
  have hsub : addrs es ⊆ List.range l.fresh := by
    intro a ha
    exact List.mem_range.2 (h.fresh a ((h.owned a).2 (List.mem_append_left _ ha)))
  simpa using (List.subperm_of_subset hnd hsub).length_le

theorem Layout.walk {l : Dllist α} {xs ys : List (Entry α)} {ds : List Nat}
    (h : Layout l (xs ++ ys) ds) {fuel : Nat} (hf : ys.length ≤ fuel) :
    l.walk fuel (ptrTo ys none) = ys.map Entry.val := by
  induction ys generalizing xs fuel with
  | nil => cases fuel <;> rfl
  | cons y ys ih =>
      obtain ⟨fuel, rfl⟩ : ∃ k, fuel = k + 1 := ⟨fuel - 1, by simp at hf; omega⟩
      have hrest := @ih (xs ++ [y]) (by simpa using h) fuel (by simpa using hf)
      simp [Dllist.walk, h.deref, hrest]

theorem Layout.toList {l : Dllist α} {es : List (Entry α)} {ds : List Nat}
    (h : Layout l es ds) : l.toList = es.map Entry.val := by
  rw [Dllist.toList, h.first]
  exact @Layout.walk _ l [] es ds h _ h.length_le_fresh

/-! ## Linking and unlinking -/

theorem Layout.linkNext {l : Dllist α} {xs : List (Entry α)} {e : Entry α}
    {ys : List (Entry α)} {a : Nat} {n : Node α} {ds : List Nat}
    (h : Layout l (xs ++ e :: ys) (a :: ds)) (hc : l.cells a = some n) :
    ∃ l', l.linkNext (some e.addr) (some a) = some l' ∧
      Layout l' (xs ++ e :: ⟨a, some e.addr, n.val⟩ :: ys) ds := by
  obtain ⟨l₁, hl₁, h₁, hc₁⟩ := h.modify_detached (by simp) hc
    (fun n => { n with next := ptrTo ys none })
  obtain ⟨l₂, hl₂, h₂, hc₂⟩ := h₁.modify_detached (by simp) hc₁
    (fun n => { n with prev := some e.addr })
  have hce := seg_cell h₂.seg
  have hnd := h₂.nodup
  simp only [List.map_append, List.map_cons, List.append_assoc, List.cons_append,
    List.nodup_append, List.nodup_cons, List.mem_append, List.mem_cons] at hnd
  obtain ⟨hx, ⟨hey, hy, ⟨had, hd⟩, hyd⟩, hdis⟩ := hnd
  have hea : a ≠ e.addr := by tauto
  have hex : e.addr ∉ addrs xs := fun hm => hdis _ hm _ (Or.inl rfl) rfl
  have hax : a ∉ addrs xs := fun hm => hdis _ hm a (by tauto) rfl
  have hay : a ∉ addrs ys := fun hm => hyd _ hm a (Or.inl rfl) rfl
  have hseg := (seg_append _ _ _ _).1 h₂.seg
  let cells₃ := Function.update l₂.cells e.addr (some ⟨e.prev, some a, e.val⟩)
  let l₃ : Dllist α := { l₂ with cells := cells₃ }
  have hl₃ : l₂.modify (some e.addr) (fun n => { n with next := some a }) = some l₃ :=
    modify_of_cell hce _
  have hc₃ : l₃.deref (some a) = some ⟨some e.addr, ptrTo ys none, n.val⟩ := by
    simp [Dllist.deref, l₃, cells₃, Function.update_of_ne hea, hc₂]
  have hseg₃ : Seg cells₃ (xs ++ e :: ⟨a, some e.addr, n.val⟩ :: ys) none := by
    rw [seg_append]
    refine ⟨(seg_update hex).2 hseg.1, by simp [cells₃], ?_, (seg_update (by tauto)).2 hseg.2.2⟩
    simpa [Dllist.deref] using hc₃
  have hlast : l₂.last = (xs ++ e :: ys).getLast?.map Entry.addr := h₂.last
  let l₄ : Dllist α := if ptrTo ys none = none then { l₃ with last := some a } else l₃
  have hcells : l₄.cells = cells₃ := by unfold l₄; split <;> rfl
  have hfresh : l₄.fresh = l₂.fresh := by unfold l₄; split <;> rfl
  have hfirst : l₄.first = l₂.first := by unfold l₄; split <;> rfl
  refine ⟨l₄, ?_, ?_⟩
  · simp [Dllist.linkNext, h.deref, hl₁, hl₂, hl₃, hc₃, l₄]
  refine ⟨by rw [hcells]; exact hseg₃, ?_, ?_, ?_, ?_, ?_⟩
  · rw [hfirst, h₂.first, ptrTo_append, ptrTo_append]; rfl
  · cases ys with
    | nil => simp [l₄]
    | cons y ys =>
        have hl : l₄ = l₃ := by simp [l₄]
        rw [hl, show l₃.last = l₂.last from rfl, hlast]
        simp [List.getLast?_append, List.getLast?_cons_cons]
  · have hnd₂ := h₂.nodup
    rw [List.nodup_middle] at hnd₂
    have hmid : addrs (xs ++ e :: ⟨a, some e.addr, n.val⟩ :: ys) ++ ds =
        (addrs xs ++ [e.addr]) ++ a :: (addrs ys ++ ds) := by simp
    rw [hmid, List.nodup_middle]
    simpa using hnd₂
  · intro b
    rw [hcells]
    by_cases hb : b = e.addr
    · subst hb; simp [cells₃]
    · have hob := h₂.owned b
      simp only [cells₃, Function.update_of_ne hb, hob]
      simp only [List.map_append, List.map_cons, List.mem_append, List.mem_cons]
      tauto
  · intro b hs
    rw [hfresh]
    rw [hcells] at hs
    by_cases hb : b = e.addr
    · subst hb; exact h₂.fresh _ (by simp [hce])
    · exact h₂.fresh b (by simpa [cells₃, Function.update_of_ne hb] using hs)

/-- The second store of `unlink`, through `self->_next` or to `_last`. -/
theorem bypassPrev_of_seg {l : Dllist α} {xs : List (Entry α)} {p e : Entry α}
    {ys : List (Entry α)} (hp : e.prev = some p.addr) (hseg : Seg l.cells (xs ++ p :: ys) none)
    (hnd : (addrs (xs ++ p :: ys)).Nodup) (hey : e.addr ∉ addrs ys)
    (hlast : l.last = (xs ++ p :: e :: ys).getLast?.map Entry.addr)
    (hce : l.cells e.addr = some ⟨e.prev, ptrTo ys none, e.val⟩) :
    ∃ l', l.bypassPrev ⟨e.prev, ptrTo ys none, e.val⟩ = some l' ∧
      Seg l'.cells (xs ++ p :: setHeadPrev (some p.addr) ys) none ∧
      l'.first = l.first ∧ l'.fresh = l.fresh ∧
      l'.last = (xs ++ p :: ys).getLast?.map Entry.addr ∧
      l'.cells e.addr = some ⟨e.prev, ptrTo ys none, e.val⟩ ∧
      ∀ b, (l'.cells b).isSome = (l.cells b).isSome := by
  cases ys with
  | nil =>
      refine ⟨_, rfl, by simpa [setHeadPrev] using hseg, rfl, rfl, ?_, ?_, fun _ => rfl⟩
      · simp [hp]
      · simpa using hce
  | cons y ys =>
      have hcy : l.cells y.addr = some ⟨y.prev, ptrTo ys none, y.val⟩ :=
        ((seg_append _ _ _ _).1 hseg).2.2.1
      have hye : e.addr ≠ y.addr := by
        intro he
        exact hey (by simp [he])
      have hsplit : (addrs (xs ++ [p]) ++ addrs (y :: ys)).Nodup := by simpa using hnd
      obtain ⟨-, hnody, hdis⟩ := List.nodup_append.1 hsplit
      have hyx : y.addr ∉ addrs (xs ++ [p]) := fun hm => hdis _ hm y.addr (by simp) rfl
      refine ⟨_, modify_of_cell hcy _, ?_, rfl, rfl, ?_, ?_, ?_⟩
      · have hs := (seg_append l.cells (xs ++ [p]) (y :: ys) none).1 (by simpa using hseg)
        have hupdated := (seg_append (Function.update l.cells y.addr
          (some ⟨e.prev, ptrTo ys none, y.val⟩)) (xs ++ [p])
          (setHeadPrev (some p.addr) (y :: ys)) none).2
          ⟨by rw [ptrTo_setHeadPrev]; exact (seg_update hyx).2 hs.1,
            by rw [hp]; exact seg_setHeadPrev hs.2 hnody⟩
        simpa using hupdated
      · simp only [hlast]
        simp [List.getLast?_append, List.getLast?_cons_cons]
      · simpa [Function.update_of_ne hye] using hce
      · intro b
        by_cases hb : b = y.addr
        · subst hb
          simp [hcy]
        · simp [Function.update_of_ne hb]

/-- `unlink` of an object whose `_prev` is the object before it. -/
theorem Layout.unlink {l : Dllist α} {xs : List (Entry α)} {p e : Entry α}
    {ys : List (Entry α)} {ds : List Nat} (h : Layout l (xs ++ p :: e :: ys) ds)
    (hp : e.prev = some p.addr) :
    ∃ l', l.unlink (some e.addr) = some l' ∧
      Layout l' (xs ++ p :: setHeadPrev (some p.addr) ys) ds := by
  have hcp := seg_cell h.seg
  have hce : l.cells e.addr = some ⟨e.prev, ptrTo ys none, e.val⟩ :=
    ((seg_append _ _ _ _).1 h.seg).2.2.1
  have hnd := h.nodup
  simp only [List.map_append, List.map_cons, List.append_assoc, List.cons_append,
    List.nodup_append, List.nodup_cons, List.mem_append, List.mem_cons] at hnd
  obtain ⟨hx, ⟨hpe, hey, hyd⟩, hdis⟩ := hnd
  have hne : e.addr ≠ p.addr := by tauto
  have hpx : p.addr ∉ addrs xs := fun hm => hdis _ hm _ (Or.inl rfl) rfl
  have hex : e.addr ∉ addrs xs := fun hm => hdis _ hm e.addr (by tauto) rfl
  have hpy : p.addr ∉ addrs ys := by tauto
  have hey' : e.addr ∉ addrs ys := by tauto
  have hseg := (seg_append _ _ _ _).1 h.seg
  -- the store through `self->_prev`
  let cells₁ := Function.update l.cells p.addr (some ⟨p.prev, ptrTo ys none, p.val⟩)
  let l₁ : Dllist α := { l with cells := cells₁ }
  have hl₁ : l.bypassNext ⟨e.prev, ptrTo ys none, e.val⟩ = some l₁ := by
    simp only [Dllist.bypassNext, hp, reduceCtorEq, if_false]
    exact modify_of_cell hcp _
  have hd₁ : l₁.deref (some e.addr) = some ⟨e.prev, ptrTo ys none, e.val⟩ := by
    simp [Dllist.deref, l₁, cells₁, Function.update_of_ne hne, hce]
  have hseg₁ : Seg cells₁ (xs ++ p :: ys) none := by
    rw [seg_append]
    exact ⟨(seg_update hpx).2 hseg.1, by simp [cells₁], (seg_update hpy).2 hseg.2.2.2⟩
  have howned₁ : ∀ b, (cells₁ b).isSome = (l.cells b).isSome := by
    intro b
    by_cases hb : b = p.addr
    · subst hb; simp [cells₁, hcp]
    · simp [cells₁, Function.update_of_ne hb]
  have hnd₁ : (addrs (xs ++ p :: ys)).Nodup := by
    have hsub : (xs ++ p :: ys).Sublist (xs ++ p :: e :: ys) :=
      (List.Sublist.refl xs).append (.cons_cons p (.cons e (.refl ys)))
    exact (List.nodup_append.1 h.nodup).1.sublist (hsub.map Entry.addr)
  obtain ⟨l₂, hl₂, hseg₂, hfirst₂, hfresh₂, hlast₂, hde₂, howned₂⟩ :=
    bypassPrev_of_seg (l := l₁) hp hseg₁ hnd₁ hey' h.last hd₁
  have howned : ∀ b, (l₂.cells b).isSome = (l.cells b).isSome :=
    fun b => (howned₂ b).trans (howned₁ b)
  have hes : e.addr ∉ addrs (xs ++ p :: setHeadPrev (some p.addr) ys) := by
    simp only [List.map_append, List.map_cons, addrs_setHeadPrev, List.mem_append,
      List.mem_cons]
    tauto
  let l₃ : Dllist α := { l₂ with
    cells := Function.update l₂.cells e.addr (some ⟨none, none, e.val⟩) }
  refine ⟨l₃.delete (some e.addr), ?_, ?_, hfirst₂.trans ?_, hlast₂.trans ?_, ?_, ?_, ?_⟩
  · have hd : l.deref (some e.addr) = some ⟨e.prev, ptrTo ys none, e.val⟩ := hce
    simp only [Dllist.unlink, hd, Option.bind_eq_bind, Option.bind_some, hl₁, hd₁, hl₂,
      modify_of_cell hde₂, Option.pure_def]
    rfl
  · exact (seg_update hes).2 ((seg_update hes).2 hseg₂)
  · rw [h.first, ptrTo_append, ptrTo_append]; rfl
  · rw [← List.getLast?_map, ← List.getLast?_map]; simp
  · have := h.nodup
    simp only [List.map_append, List.map_cons, addrs_setHeadPrev, List.append_assoc,
      List.cons_append] at this ⊢
    rw [← List.singleton_append, ← List.append_assoc, List.nodup_middle] at this
    simpa using (List.nodup_cons.1 this).2
  · intro b
    by_cases hb : b = e.addr
    · subst hb
      simp only [Dllist.delete, Function.update_self, Option.isSome_none, Bool.false_eq_true,
        false_iff, List.mem_append, not_or]
      exact ⟨hes, by tauto⟩
    · simp only [Dllist.delete, l₃, Function.update_of_ne hb, howned, h.owned b]
      simp only [List.map_append, List.map_cons, addrs_setHeadPrev, List.mem_append,
        List.mem_cons]
      tauto
  · intro b hs
    by_cases hb : b = e.addr
    · subst hb; simp [Dllist.delete] at hs
    · simp only [Dllist.delete, l₃, Function.update_of_ne hb, howned] at hs
      exact hfresh₂ ▸ h.fresh b hs

/-- A list without its first object. -/
theorem Layout.delete_head {l l' : Dllist α} {e : Entry α} {ys : List (Entry α)} {ds : List Nat}
    (h : Layout l (e :: ys) ds) (hcells : l'.cells = Function.update l.cells e.addr none)
    (hfirst : l'.first = ptrTo ys none) (hlast : l'.last = ys.getLast?.map Entry.addr)
    (hfresh : l'.fresh = l.fresh) : Layout l' ys ds := by
  have hnd := List.nodup_cons.1 h.nodup
  have he : e.addr ∉ addrs ys := fun hm => hnd.1 (List.mem_append_left _ hm)
  refine ⟨?_, hfirst, hlast, hnd.2, ?_, ?_⟩
  · rw [hcells]
    exact (seg_update he).2 h.seg.2
  · intro a
    rw [hcells]
    by_cases ha : a = e.addr
    · subst ha
      simpa using hnd.1
    · have hoa := h.owned a
      simp only [Function.update_of_ne ha, hoa, List.map_cons, List.cons_append, List.mem_cons]
      tauto
  · intro a hs
    rw [hcells] at hs
    rw [hfresh]
    by_cases ha : a = e.addr
    · subst ha
      simp at hs
    · exact h.fresh a (by simpa [Function.update_of_ne ha] using hs)

/-- `unlink` of the first object. -/
theorem Layout.unlink_first {l : Dllist α} {e : Entry α} {ys : List (Entry α)} {ds : List Nat}
    (h : Layout l (e :: ys) ds) (hp : e.prev = none) :
    ∃ l', l.unlink (some e.addr) = some l' ∧ Layout l' (setHeadPrev none ys) ds := by
  have hd := h.deref_head
  have hnd := List.nodup_cons.1 h.nodup
  have hl₁ : l.bypassNext ⟨e.prev, ptrTo ys none, e.val⟩ =
      some { l with first := ptrTo ys none } := by
    simp [Dllist.bypassNext, hp]
  cases ys with
  | nil =>
      let l₂ : Dllist α := { l with first := none, last := none }
      let l₃ : Dllist α := { l₂ with
        cells := Function.update l₂.cells e.addr (some ⟨none, none, e.val⟩) }
      refine ⟨l₃.delete (some e.addr), ?_, ?_⟩
      · simp only [ptrTo_nil] at hd hl₁
        have hl₂ : Dllist.bypassPrev { l with first := none } ⟨e.prev, none, e.val⟩ = some l₂ := by
          simp [Dllist.bypassPrev, hp, l₂]
        have hd₁ : Dllist.deref { l with first := none } (some e.addr) =
            some ⟨e.prev, none, e.val⟩ := hd
        have hc₂ : l₂.cells e.addr = some ⟨e.prev, none, e.val⟩ := hd
        simp only [Dllist.unlink, hd, Option.bind_eq_bind, Option.bind_some, hl₁, hd₁, hl₂,
          modify_of_cell hc₂, Option.pure_def]
        rfl
      · refine h.delete_head ?_ rfl rfl rfl
        simp [l₃, l₂, Dllist.delete]
  | cons y ys =>
      obtain ⟨l₂, hl₂, h₂, hframe⟩ := @Layout.modify_linked _ l [e] y ys ds h
        (fun n => { n with prev := none }) fun _ => rfl
      have hye : e.addr ≠ y.addr := fun he => hnd.1 (by simp [he])
      let l₃ : Dllist α := { l₂ with first := some y.addr }
      let l₄ : Dllist α := { l₃ with
        cells := Function.update l₃.cells e.addr (some ⟨none, none, e.val⟩) }
      have hc₂ : l₃.cells e.addr = some ⟨e.prev, some y.addr, e.val⟩ :=
        (hframe e.addr hye).trans hd
      have hl₃ : Dllist.bypassPrev { l with first := some y.addr }
          ⟨e.prev, some y.addr, e.val⟩ = some l₃ := by
        simp only [Dllist.bypassPrev, reduceCtorEq, if_false, modify_setFirst, hp, hl₂,
          Option.map_some]
        rfl
      have hd₁ : Dllist.deref { l with first := some y.addr } (some e.addr) =
          some ⟨e.prev, some y.addr, e.val⟩ := hd
      refine ⟨l₄.delete (some e.addr), ?_, ?_⟩
      · simp only [ptrTo_cons] at hd hl₁
        simp only [Dllist.unlink, hd, Option.bind_eq_bind, Option.bind_some, hl₁, hd₁, hl₃,
          modify_of_cell hc₂, Option.pure_def]
        rfl
      · refine h₂.delete_head ?_ rfl ?_ rfl
        · simp [l₄, l₃, Dllist.delete]
        · rw [show (l₄.delete (some e.addr)).last = l₂.last from rfl, h₂.last]
          simp [List.getLast?_cons_cons]

/-- `unlink` of an object whose `_prev` skips the object before it: the object is deleted,
but the one before it keeps its `_next`. -/
theorem Layout.unlink_stale {l : Dllist α} {xs ws : List (Entry α)} {p f e : Entry α}
    {ys : List (Entry α)} {ds : List Nat} (h : Layout l (xs ++ p :: (ws ++ f :: e :: ys)) ds)
    (hp : e.prev = some p.addr) :
    ∃ l', l.unlink (some e.addr) = some l' ∧ l'.cells e.addr = none ∧
      l'.cells f.addr = some ⟨f.prev, some e.addr, f.val⟩ := by
  have hcp := seg_cell h.seg
  have hs := ((seg_append _ _ _ _).1 ((seg_append _ _ _ _).1 h.seg).2.2).2
  have hcf : l.cells f.addr = some ⟨f.prev, some e.addr, f.val⟩ := hs.1
  have hce : l.cells e.addr = some ⟨e.prev, ptrTo ys none, e.val⟩ := hs.2.1
  have hnd := h.nodup
  simp only [List.map_append, List.append_assoc, List.nodup_append] at hnd
  have hnd := hnd.2.1
  simp only [List.map_append, List.map_cons, List.nodup_append, List.nodup_cons, List.mem_append,
    List.mem_cons, not_or] at hnd
  obtain ⟨⟨⟨-, hpf, hpe, hpy⟩, -, ⟨⟨hfe, hfy⟩, hey, hy⟩, -⟩, -⟩ := hnd
  let l₁ : Dllist α := { l with
    cells := Function.update l.cells p.addr (some ⟨p.prev, ptrTo ys none, p.val⟩) }
  have hl₁ : l.bypassNext ⟨e.prev, ptrTo ys none, e.val⟩ = some l₁ := by
    simp only [Dllist.bypassNext, hp, reduceCtorEq, if_false]
    exact modify_of_cell hcp _
  have hd₁ : l₁.deref (some e.addr) = some ⟨e.prev, ptrTo ys none, e.val⟩ := by
    simp [Dllist.deref, l₁, Function.update_of_ne (Ne.symm hpe), hce]
  obtain ⟨l₂, hl₂, hce₂, hcf₂⟩ : ∃ l₂,
      l₁.bypassPrev ⟨e.prev, ptrTo ys none, e.val⟩ = some l₂ ∧
      l₂.cells e.addr = some ⟨e.prev, ptrTo ys none, e.val⟩ ∧
      l₂.cells f.addr = some ⟨f.prev, some e.addr, f.val⟩ := by
    have hcf₁ : l₁.cells f.addr = some ⟨f.prev, some e.addr, f.val⟩ := by
      simp [l₁, Function.update_of_ne (Ne.symm hpf), hcf]
    cases ys with
    | nil => exact ⟨_, rfl, hd₁, hcf₁⟩
    | cons y ys =>
        simp only [List.map_cons, List.mem_cons, not_or] at hpy hfy hey
        have hcy : l₁.cells y.addr = some ⟨y.prev, ptrTo ys none, y.val⟩ := by
          simp only [l₁, Function.update_of_ne (Ne.symm hpy.1)]
          exact hs.2.2.1
        refine ⟨_, modify_of_cell hcy _, ?_, ?_⟩
        · exact (Function.update_of_ne hey.1 _ _).trans hd₁
        · exact (Function.update_of_ne hfy.1 _ _).trans hcf₁
  have hd : l.deref (some e.addr) = some ⟨e.prev, ptrTo ys none, e.val⟩ := hce
  let l₃ : Dllist α := { l₂ with
    cells := Function.update l₂.cells e.addr (some ⟨none, none, e.val⟩) }
  refine ⟨l₃.delete (some e.addr), ?_, ?_, ?_⟩
  · simp only [Dllist.unlink, hd, Option.bind_eq_bind, Option.bind_some, hl₁, hd₁, hl₂,
      modify_of_cell hce₂, Option.pure_def]
    rfl
  · simp [Dllist.delete]
  · simp [Dllist.delete, l₃, Function.update_of_ne hfe, hcf₂]

/-- `linkPrev` up to the store to `_first`: the new object points to its neighbours, and the
one behind it points back. -/
theorem Layout.linkPrev_stores {l : Dllist α} {xs : List (Entry α)} {e : Entry α}
    {ys : List (Entry α)} {a : Nat} {n : Node α} {ds : List Nat}
    (h : Layout l (xs ++ e :: ys) (a :: ds)) (hc : l.cells a = some n) :
    ∃ l', l.linkPrev (some e.addr) (some a) =
        some (if e.prev = none then { l' with first := some a } else l') ∧
      Layout l' (xs ++ { e with prev := some a } :: ys) (a :: ds) ∧
      l'.cells a = some ⟨e.prev, some e.addr, n.val⟩ := by
  obtain ⟨l₁, hl₁, h₁, hc₁⟩ := h.modify_detached (by simp) hc (fun n => { n with prev := e.prev })
  obtain ⟨l₂, hl₂, h₂, hc₂⟩ := h₁.modify_detached (by simp) hc₁
    (fun n => { n with next := some e.addr })
  obtain ⟨l₃, hl₃, h₃, hframe⟩ := h₂.modify_linked (fun n => { n with prev := some a }) fun _ => rfl
  have hea : a ≠ e.addr := by
    rintro rfl
    have hnd := (List.nodup_append.1 h.nodup).2.2 e.addr (by simp) e.addr (by simp)
    exact hnd rfl
  have hc₃ : l₃.cells a = some ⟨e.prev, some e.addr, n.val⟩ := (hframe a hea).trans hc₂
  refine ⟨l₃, ?_, h₃, hc₃⟩
  have hd₃ : l₃.deref (some a) = some ⟨e.prev, some e.addr, n.val⟩ := hc₃
  simp only [Dllist.linkPrev, h.deref, Option.bind_eq_bind, Option.bind_some, hl₁, hl₂, hl₃, hd₃,
    Option.pure_def]

/-- `linkPrev` in front of the first object. -/
theorem Layout.linkPrev_first {l : Dllist α} {e : Entry α} {ys : List (Entry α)} {a : Nat}
    {n : Node α} {ds : List Nat} (h : Layout l (e :: ys) (a :: ds)) (hp : e.prev = none)
    (hc : l.cells a = some n) :
    ∃ l', l.linkPrev (some e.addr) (some a) = some l' ∧
      Layout l' (⟨a, none, n.val⟩ :: { e with prev := some a } :: ys) ds := by
  obtain ⟨l₁, hl₁, h₁, hc₁⟩ := @Layout.linkPrev_stores _ l [] e ys a n ds h hc
  rw [if_pos hp] at hl₁
  rw [hp] at hc₁
  refine ⟨_, hl₁, ⟨⟨hc₁, h₁.seg⟩, rfl, ?_, ?_, ?_, h₁.fresh⟩⟩
  · rw [show l₁.last = _ from h₁.last]
    simp [List.getLast?_cons_cons]
  · have hnd := h₁.nodup
    rw [List.nodup_middle] at hnd
    simpa using hnd
  · intro b
    have hob := h₁.owned b
    simp only [hob, List.nil_append, List.map_cons, List.mem_append, List.mem_cons]
    tauto

/-! ## The links that `unlink` stores -/

theorem eq_of_modify {l l' : Dllist α} {p : Ptr} {f : Node α → Node α}
    (h : l.modify p f = some l') :
    ∃ a n, p = some a ∧ l.cells a = some n ∧
      l' = { l with cells := Function.update l.cells a (some (f n)) } := by
  cases p with
  | none => cases h
  | some a =>
      cases hc : l.cells a with
      | none => simp [Dllist.modify, hc] at h
      | some n => exact ⟨a, n, rfl, hc, by simpa [Dllist.modify, hc] using h.symm⟩

theorem cells_of_modify {l l' : Dllist α} {p : Ptr} {f : Node α → Node α}
    (h : l.modify p f = some l') (b : Nat) :
    l'.cells b = (l.cells b).map fun n => if p = some b then f n else n := by
  obtain ⟨a, n, rfl, hc, rfl⟩ := eq_of_modify h
  by_cases hb : b = a
  · subst hb
    simp [hc]
  · have hab : a ≠ b := Ne.symm hb
    simp [hb, hab]

theorem bypassNext_cells {l l' : Dllist α} {s : Node α} (h : l.bypassNext s = some l') :
    l'.first = (if s.prev = none then s.next else l.first) ∧ l'.last = l.last ∧
      ∀ b, l'.cells b = (l.cells b).map fun n =>
        if s.prev = some b then { n with next := s.next } else n := by
  unfold Dllist.bypassNext at h
  by_cases hp : s.prev = none
  · rw [if_pos hp] at h
    obtain rfl := Option.some_inj.1 h
    simp [hp]
  · rw [if_neg hp] at h
    have hcells := cells_of_modify h
    obtain ⟨a, n, -, -, rfl⟩ := eq_of_modify h
    exact ⟨by simp [hp], rfl, hcells⟩

theorem bypassPrev_cells {l l' : Dllist α} {s : Node α} (h : l.bypassPrev s = some l') :
    l'.first = l.first ∧ (s.next ≠ none → l'.last = l.last) ∧
      ∀ b, l'.cells b = (l.cells b).map fun n =>
        if s.next = some b then { n with prev := s.prev } else n := by
  unfold Dllist.bypassPrev at h
  by_cases hn : s.next = none
  · rw [if_pos hn] at h
    obtain rfl := Option.some_inj.1 h
    simp [hn]
  · rw [if_neg hn] at h
    have hcells := cells_of_modify h
    obtain ⟨a, n, -, -, rfl⟩ := eq_of_modify h
    exact ⟨rfl, fun _ => rfl, hcells⟩

/-- `unlink` keeps the contents of the other objects, and every `_next` but the one of the
object that `_prev` points to. -/
theorem unlink_cells {l l' : Dllist α} {a : Nat} {s : Node α} (h : l.unlink (some a) = some l')
    (hs : l.cells a = some s) :
    l'.first = (if s.prev = none then s.next else l.first) ∧
      (s.next ≠ none → l'.last = l.last) ∧ l'.cells a = none ∧
      ∀ b n', l'.cells b = some n' → ∃ n, l.cells b = some n ∧ n'.val = n.val ∧
        n'.next = if s.prev = some b then s.next else n.next := by
  have hd : l.deref (some a) = some s := hs
  simp only [Dllist.unlink, hd, Option.bind_eq_bind, Option.bind_some] at h
  obtain ⟨l₁, h₁, h⟩ := Option.bind_eq_some_iff.1 h
  obtain ⟨s', hs', h⟩ := Option.bind_eq_some_iff.1 h
  obtain ⟨l₂, h₂, h⟩ := Option.bind_eq_some_iff.1 h
  obtain ⟨l₃, h₃, h⟩ := Option.bind_eq_some_iff.1 h
  obtain rfl : l₃.delete (some a) = l' := Option.some_inj.1 h
  obtain ⟨hfirst₁, hlast₁, hc₁⟩ := bypassNext_cells h₁
  obtain ⟨hfirst₂, hlast₂, hc₂⟩ := bypassPrev_cells h₂
  have hc₃ := cells_of_modify h₃
  obtain ⟨c, n, hca, -, rfl⟩ := eq_of_modify h₃
  obtain rfl : a = c := Option.some_inj.1 hca
  -- the object is its own neighbour when its `_prev` points to itself
  have hnext : s'.next = s.next := by
    have hs₁ : l₁.cells a = some s' := hs'
    rw [hc₁, hs, Option.map_some, Option.some_inj] at hs₁
    rw [← hs₁]
    split_ifs <;> rfl
  refine ⟨hfirst₂.trans hfirst₁, fun hn => (hlast₂ (hnext ▸ hn)).trans hlast₁,
    by simp [Dllist.delete], fun b n' hb => ?_⟩
  have hba : b ≠ a := by
    rintro rfl
    simp [Dllist.delete] at hb
  simp only [Dllist.delete, Function.update_of_ne hba, hc₂, hc₁, Option.map_map] at hb
  obtain ⟨n, hn, hn'⟩ := Option.map_eq_some_iff.1 hb
  refine ⟨n, hn, ?_, ?_⟩
  · rw [← hn']
    simp only [Function.comp_apply]
    split_ifs <;> rfl
  · rw [← hn']
    simp only [Function.comp_apply]
    split_ifs <;> rfl

/-! ## Destroying the list -/

theorem destroyLoop_seg {l : Dllist α} {es : List (Entry α)} {fuel : Nat}
    (hseg : Seg l.cells es none) (hfirst : l.first = ptrTo es none) (hnd : (addrs es).Nodup)
    (hf : es.length ≤ fuel) :
    ∃ l', destroyLoop fuel l = some l' ∧ l'.fresh = l.fresh ∧
      ∀ a, l'.cells a = if a ∈ addrs es then none else l.cells a := by
  induction es generalizing l fuel with
  | nil =>
      refine ⟨l, ?_, rfl, by simp⟩
      cases fuel <;> simp [destroyLoop, hfirst]
  | cons e es ih =>
      obtain ⟨fuel, rfl⟩ : ∃ k, fuel = k + 1 := ⟨fuel - 1, by simp at hf; omega⟩
      obtain ⟨he, hnd⟩ := List.nodup_cons.1 hnd
      let l₁ : Dllist α := delete { l with first := ptrTo es none } (some e.addr)
      obtain ⟨l', hl', hfresh, hcells⟩ := @ih l₁ fuel ((seg_update he).2 hseg.2) rfl hnd
        (by simpa using hf)
      have hd : l.deref (some e.addr) = some ⟨e.prev, ptrTo es none, e.val⟩ := hseg.1
      refine ⟨l', ?_, hfresh, fun a => ?_⟩
      · simp only [destroyLoop, hfirst, ptrTo_cons, hd, Option.bind_eq_bind, Option.bind_some]
        exact hl'
      · rw [hcells a]
        by_cases ha : a = e.addr
        · subst ha
          simp [l₁, delete]
        · simp [l₁, delete, ha]

theorem Layout.destroy {l : Dllist α} {es : List (Entry α)} {ds : List Nat} (h : Layout l es ds) :
    ∃ l', l.destroy = some l' ∧ Layout l' [] ds ∧ ∀ a ∈ ds, l'.cells a = l.cells a := by
  obtain ⟨hnd, hds, hdis⟩ := List.nodup_append.1 h.nodup
  obtain ⟨l', hl', hfresh, hcells⟩ := destroyLoop_seg h.seg h.first hnd h.length_le_fresh
  refine ⟨{ l' with first := none, last := none }, by simp [Dllist.destroy, hl'],
    ⟨trivial, rfl, rfl, by simpa using hds, ?_, ?_⟩, fun a ha => ?_⟩
  · intro a
    have hoa := h.owned a
    simp only [hcells]
    by_cases ha : a ∈ addrs es
    · have hads : a ∉ ds := fun hm => hdis a ha a hm rfl
      simp [ha, hads]
    · simp only [if_neg ha, hoa]
      simp [ha]
  · intro a hs
    simp only [hcells] at hs
    split_ifs at hs
    · cases hs
    · rw [hfresh]
      exact h.fresh a hs
  · rw [hcells, if_neg fun hm => hdis a hm a ha rfl]

/-- `setFirst` destroys the list. -/
theorem Layout.setFirst {l : Dllist α} {es : List (Entry α)} {a : Nat} {v : α}
    (h : Layout l es [a]) (hc : l.cells a = some ⟨none, none, v⟩) :
    ∃ l', l.setFirst a = some l' ∧ Layout l' [⟨a, none, v⟩] [] := by
  obtain ⟨l', hl', h', hkeep⟩ := h.destroy
  refine ⟨{ l' with first := some a, last := some a }, by simp [Dllist.setFirst, hl'], ?_⟩
  exact ⟨⟨(hkeep a (by simp)).trans hc, trivial⟩, rfl, rfl, by simp, by simpa using h'.owned,
    h'.fresh⟩

end Dllist

end Vin64.Utils
