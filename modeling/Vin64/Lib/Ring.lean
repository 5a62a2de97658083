import Mathlib.Logic.Function.Basic
import Mathlib.Data.List.Nodup

/-!
# Circular lists

Cells that each name the next one.  A ring starts at its head and comes back to it.
-/

namespace Vin64.Lib

variable {α : Type} {next next' : α → Option α} {a b c p : α} {l u v : List α}

/-- From `a` through the cells of the list to `b`. -/
def Path (next : α → Option α) : α → List α → α → Prop
  | a, [], b => next a = some b
  | a, c :: l, b => next a = some c ∧ Path next c l b

structure Ring (next : α → Option α) (a : α) (l : List α) : Prop where
  path : Path next a l a
  nodup : (a :: l).Nodup

/-! ## Paths -/

/-- A path depends on what its cells name, and of its start on nothing else. -/
theorem Path.congr (h : Path next a l b) (hhead : next' c = next a)
    (hcells : ∀ x ∈ l, next' x = next x) : Path next' c l b := by
  induction l generalizing a c with
  | nil => exact hhead.trans h
  | cons d l ih =>
      refine ⟨hhead.trans h.1, ih h.2 (hcells d List.mem_cons_self) fun x hx => ?_⟩
      exact hcells x (List.mem_cons_of_mem _ hx)

theorem path_append : Path next a (u ++ c :: v) b ↔ Path next a u c ∧ Path next c v b := by
  induction u generalizing a with
  | nil => exact Iff.rfl
  | cons d u ih =>
      rw [List.cons_append, Path, Path, ih, and_assoc]

/-- Cells of a path name another. -/
theorem Path.next_ne_none (h : Path next a l b) (hc : c ∈ a :: l) : next c ≠ none := by
  induction l generalizing a with
  | nil =>
      rw [List.mem_singleton.1 hc, show next a = some b from h]
      exact Option.some_ne_none b
  | cons d l ih =>
      rcases List.mem_cons.1 hc with rfl | hc
      · rw [h.1]
        exact Option.some_ne_none d
      · exact ih h.2 hc

/-- The way around a cell that comes last names what the cell named. -/
theorem Path.bypass (h : Path next a u c) (hrest : Path next c v b) (hnodup : (a :: u ++ v).Nodup)
    (hp : p = (a :: u).getLast (List.cons_ne_nil a u)) (hlast : next' p = next c)
    (hcells : ∀ x ∈ a :: u ++ v, x ≠ p → next' x = next x) : Path next' a (u ++ v) b := by
  induction u generalizing a with
  | nil =>
      obtain rfl : p = a := hp
      refine hrest.congr hlast fun x hx => hcells x (List.mem_cons_of_mem _ hx) fun heq => ?_
      exact (List.nodup_cons.1 hnodup).1 (heq ▸ hx)
  | cons d u ih =>
      rw [List.getLast_cons (List.cons_ne_nil d u)] at hp
      have hother : a ≠ p := by
        intro heq
        refine (List.nodup_cons.1 hnodup).1 (List.mem_append_left v ?_)
        rw [heq, hp]
        exact List.getLast_mem _
      exact ⟨(hcells a List.mem_cons_self hother).trans h.1,
        ih h.2 (List.nodup_cons.1 hnodup).2 hp fun x hx => hcells x (List.mem_cons_of_mem _ hx)⟩

/-! ## Rings -/

/-- A ring that is not written to. -/
theorem Ring.congr (h : Ring next a l) (hcells : ∀ x ∈ a :: l, next' x = next x) :
    Ring next' a l :=
  ⟨h.path.congr (hcells a List.mem_cons_self) fun x hx => hcells x (List.mem_cons_of_mem _ hx),
    h.nodup⟩

/-- The cells before and behind one of them, seen from it. -/
theorem Ring.around (h : Ring next a (u ++ c :: v)) : Path next c (v ++ a :: u) c := by
  obtain ⟨hto, hfrom⟩ := path_append.1 h.path
  exact path_append.2 ⟨hfrom, hto⟩

variable [DecidableEq α]

/-- A cell put behind the head. -/
theorem Ring.insert (h : Ring next a l) (hc : c ∉ a :: l) :
    Ring (Function.update (Function.update next c (next a)) a (some c)) a (c :: l) := by
  have hac : c ≠ a := fun heq => hc (heq ▸ List.mem_cons_self)
  have hal := (List.nodup_cons.1 h.nodup).1
  refine ⟨⟨Function.update_self .., h.path.congr ?_ fun x hx => ?_⟩, ?_⟩
  · rw [Function.update_of_ne hac, Function.update_self]
  · have hxa : x ≠ a := fun heq => hal (heq ▸ hx)
    have hxc : x ≠ c := fun heq => hc (heq ▸ List.mem_cons_of_mem _ hx)
    rw [Function.update_of_ne hxa, Function.update_of_ne hxc]
  · refine List.nodup_cons.2 ⟨fun hmem => ?_, List.nodup_cons.2 ⟨?_, (List.nodup_cons.1 h.nodup).2⟩⟩
    · rcases List.mem_cons.1 hmem with heq | hmem
      · exact hac heq.symm
      · exact hal hmem
    · exact fun hmem => hc (List.mem_cons_of_mem _ hmem)

/-- The cell whose successor is `c`, searched for from `p` on. -/
def before (next : α → Option α) (c : α) : Nat → α → Option α
  | 0, _ => none
  | fuel + 1, p =>
    match next p with
    | none => none
    | some q => if q = c then some p else before next c fuel q

theorem before_of_path {fuel : Nat} (h : Path next p l c) (hc : c ∉ l) (hfuel : l.length < fuel) :
    before next c fuel p = some ((p :: l).getLast (List.cons_ne_nil p l)) := by
  induction l generalizing p fuel with
  | nil =>
      obtain ⟨fuel, rfl⟩ := Nat.exists_eq_add_one_of_ne_zero (Nat.ne_of_gt hfuel)
      rw [before, show next p = some c from h]
      exact if_pos rfl
  | cons d l ih =>
      obtain ⟨fuel, rfl⟩ :=
        Nat.exists_eq_add_one_of_ne_zero (Nat.ne_of_gt (Nat.zero_lt_of_lt hfuel))
      have hdc : d ≠ c := fun heq => hc (heq ▸ List.mem_cons_self)
      have hlength : l.length < fuel := Nat.lt_of_succ_lt_succ hfuel
      rw [before, h.1]
      dsimp only
      rw [if_neg hdc, ih h.2 (fun hmem => hc (List.mem_cons_of_mem _ hmem)) hlength,
        List.getLast_cons (List.cons_ne_nil d l)]

/-- The search for the cell before `c` goes once around the ring. -/
theorem Ring.before_eq {fuel : Nat} (h : Ring next a l) (hc : c ∈ l) (hfuel : l.length < fuel) :
    ∃ u v, l = u ++ c :: v ∧
      before next c fuel c = some ((a :: u).getLast (List.cons_ne_nil a u)) := by
  obtain ⟨u, v, rfl⟩ := List.append_of_mem hc
  refine ⟨u, v, rfl, ?_⟩
  have hnodup := h.nodup
  have hnot : c ∉ v ++ a :: u := by
    rw [← List.cons_append] at hnodup
    have hparts := List.nodup_append.1 hnodup
    have hcv := List.nodup_cons.1 hparts.2.1
    intro hmem
    rcases List.mem_append.1 hmem with hmem | hmem
    · exact hcv.1 hmem
    · exact hparts.2.2 c hmem c List.mem_cons_self rfl
  have hlength : (v ++ a :: u).length < fuel := by
    simp only [List.length_append, List.length_cons] at hfuel ⊢
    omega
  rw [before_of_path h.around hnot hlength]
  congr 1
  exact List.getLast_append_of_right_ne_nil (c :: v) (a :: u) (List.cons_ne_nil a u)

/-- A cell taken out. -/
theorem Ring.remove (h : Ring next a (u ++ c :: v))
    (hp : p = (a :: u).getLast (List.cons_ne_nil a u)) :
    Ring (Function.update (Function.update next p (next c)) c none) a (u ++ v) := by
  obtain ⟨hto, hfrom⟩ := path_append.1 h.path
  have hnodup : (a :: (u ++ v)).Nodup :=
    h.nodup.sublist (List.Sublist.cons_cons a
      (List.Sublist.append (List.Sublist.refl u) (List.sublist_cons_self c v)))
  have hc : c ∉ a :: (u ++ v) := by
    have hall := h.nodup
    rw [← List.cons_append] at hall
    have hmiddle := List.nodup_middle.1 hall
    rw [List.cons_append] at hmiddle
    exact (List.nodup_cons.1 hmiddle).1
  have hpc : p ≠ c := by
    intro heq
    refine hc ?_
    rw [← heq, hp, ← List.cons_append]
    exact List.mem_append_left v (List.getLast_mem _)
  refine ⟨hto.bypass hfrom hnodup hp ?_ fun x hx hxp => ?_, hnodup⟩
  · rw [Function.update_of_ne hpc, Function.update_self]
  · have hxc : x ≠ c := fun heq => hc (heq ▸ hx)
    rw [Function.update_of_ne hxc, Function.update_of_ne hxp]

end Vin64.Lib
