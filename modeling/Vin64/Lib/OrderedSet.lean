import Mathlib.Data.List.Pairwise
import Mathlib.Order.RelClasses

/-!
# Sets sorted by a strict weak order

Elements of which neither is below the other are alike; a set has one of them.  It is the list of
its elements in increasing order.  `next` goes from an element to the first one above it, and so
from the first to the last.
-/

namespace Vin64.Lib

variable {α : Type} {lt : α → α → Prop}

/-- Neither is below the other. -/
def Alike (lt : α → α → Prop) (a b : α) : Prop := ¬ lt a b ∧ ¬ lt b a

instance [DecidableRel lt] : DecidableRel (Alike lt) :=
  fun a b => inferInstanceAs (Decidable (¬ lt a b ∧ ¬ lt b a))

theorem Alike.symm {a b : α} (h : Alike lt a b) : Alike lt b a := ⟨h.2, h.1⟩

theorem Alike.trans [IsStrictWeakOrder α lt] {a b c : α} (h : Alike lt a b)
    (h' : Alike lt b c) : Alike lt a c :=
  IsStrictWeakOrder.incomp_trans a b c h h'

@[ext]
structure OrderedSet (α : Type) (lt : α → α → Prop) where
  elements : List α
  sorted : elements.Pairwise lt

namespace OrderedSet

def empty : OrderedSet α lt := ⟨[], .nil⟩

/-- An element is alike to no other one. -/
theorem eq_of_alike [Std.Irrefl lt] {s : OrderedSet α lt} {e f : α} (he : e ∈ s.elements)
    (hf : f ∈ s.elements) (h : Alike lt e f) : e = f := by
  have hsymm : Std.Symm fun a b => Alike lt a b → a = b := ⟨fun a b hab hba => (hab hba.symm).symm⟩
  have hpair : s.elements.Pairwise fun a b => Alike lt a b → a = b :=
    s.sorted.imp fun hlt halike => absurd hlt halike.1
  exact hpair.forall_of_forall (fun _ _ _ => rfl) he hf h

variable [DecidableRel lt]

def find (s : OrderedSet α lt) (x : α) : Option α :=
  s.elements.find? fun e => Alike lt e x

/-- An element that is alike stays. -/
def insert [IsTrans α lt] (s : OrderedSet α lt) (x : α) : OrderedSet α lt :=
  if (s.find x).isSome then s
  else
    { elements := s.elements.filter (lt · x) ++ x :: s.elements.filter (lt x ·)
      sorted := by
        have hbelow := s.sorted.filter fun e => decide (lt e x)
        have habove := s.sorted.filter fun e => decide (lt x e)
        refine List.pairwise_append.2 ⟨hbelow, List.pairwise_cons.2 ⟨fun e he => ?_, habove⟩, ?_⟩
        · simpa using (List.mem_filter.1 he).2
        · intro e he f hf
          have hex : lt e x := by simpa using (List.mem_filter.1 he).2
          rcases List.mem_cons.1 hf with rfl | hf
          · exact hex
          · have hxf : lt x f := by simpa using (List.mem_filter.1 hf).2
            exact IsTrans.trans e x f hex hxf }

def erase (s : OrderedSet α lt) (x : α) : OrderedSet α lt where
  elements := s.elements.filter fun e => ¬ Alike lt e x
  sorted := s.sorted.filter _

/-- The elements change, but not their order. -/
def map (s : OrderedSet α lt) (f : α → α) (hf : ∀ a b, lt a b → lt (f a) (f b)) :
    OrderedSet α lt where
  elements := s.elements.map f
  sorted := s.sorted.map f hf

def upperBound (s : OrderedSet α lt) (x : α) : Option α := s.elements.find? fun e => lt x e

/-- The first element, or the first one above `x`. -/
def next (s : OrderedSet α lt) : Option α → Option α
  | none => s.elements.head?
  | some x => s.upperBound x

/-- The elements that `next` comes to from `x` before it comes to nothing. -/
def visits (next : Option α → Option α) : Nat → Option α → Option (List α)
  | 0, _ => none
  | fuel + 1, x =>
    match next x with
    | none => some []
    | some e => (visits next fuel (some e)).map (e :: ·)

variable {s : OrderedSet α lt} {x e f : α}

/-! ## Membership -/

theorem find_eq_some_iff [IsStrictWeakOrder α lt] :
    s.find x = some e ↔ e ∈ s.elements ∧ Alike lt e x := by
  unfold find
  constructor
  · intro h
    exact ⟨List.mem_of_find?_eq_some h, by simpa using List.find?_some h⟩
  · intro ⟨he, halike⟩
    cases hfind : s.elements.find? fun e => Alike lt e x with
    | none => exact absurd halike (by simpa using List.find?_eq_none.1 hfind e he)
    | some f =>
        have hf : Alike lt f x := by simpa using List.find?_some hfind
        rw [eq_of_alike (List.mem_of_find?_eq_some hfind) he (hf.trans halike.symm)]

theorem find_eq_none_iff : s.find x = none ↔ ∀ e ∈ s.elements, ¬ Alike lt e x := by
  unfold find
  simp [List.find?_eq_none]

theorem mem_insert [IsTrans α lt] (hnew : s.find x = none) :
    e ∈ (s.insert x).elements ↔ e = x ∨ e ∈ s.elements := by
  unfold insert
  rw [hnew, Option.isSome_none, if_neg (by simp)]
  simp only [List.mem_append, List.mem_cons, List.mem_filter, decide_eq_true_eq]
  constructor
  · rintro (⟨he, -⟩ | rfl | ⟨he, -⟩)
    · exact .inr he
    · exact .inl rfl
    · exact .inr he
  · rintro (rfl | he)
    · exact .inr (.inl rfl)
    · by_cases hbelow : lt e x
      · exact .inl ⟨he, hbelow⟩
      · by_cases habove : lt x e
        · exact .inr (.inr ⟨he, habove⟩)
        · exact absurd ⟨hbelow, habove⟩ (find_eq_none_iff.1 hnew e he)

theorem mem_erase : e ∈ (s.erase x).elements ↔ e ∈ s.elements ∧ ¬ Alike lt e x := by
  simp [erase, List.mem_filter]

/-! ## Going through a set -/

/-- Above an element comes the one after it. -/
theorem next_some [IsStrictOrder α lt] {l r : List α} (h : s.elements = l ++ x :: r) :
    s.next (some x) = r.head? := by
  have hsorted := s.sorted
  rw [h] at hsorted
  obtain ⟨-, hrest, hbelow⟩ := List.pairwise_append.1 hsorted
  have habove := (List.pairwise_cons.1 hrest).1
  show s.elements.find? (fun e => lt x e) = r.head?
  rw [h, List.find?_append]
  have hleft : l.find? (fun e => lt x e) = none := by
    rw [List.find?_eq_none]
    intro e he
    have hex : lt e x := hbelow e he x List.mem_cons_self
    simpa using asymm hex
  have hself : decide (lt x x) = false := by simpa using irrefl x
  rw [hleft, Option.none_or, List.find?_cons, hself]
  cases r with
  | nil => rfl
  | cons e r =>
      have hxe : decide (lt x e) = true := by simpa using habove e List.mem_cons_self
      simp [hxe]

theorem visits_append [IsStrictOrder α lt] {l r : List α} (h : s.elements = l ++ r) :
    visits s.next (r.length + 1) l.getLast? = some r := by
  have hnext : s.next l.getLast? = r.head? := by
    rcases List.eq_nil_or_concat l with rfl | ⟨front, x, rfl⟩
    · exact congrArg List.head? h
    · have hsplit : s.elements = front ++ x :: r := by
        rw [h, List.concat_append]
      rw [List.concat_eq_append, List.getLast?_append, List.getLast?_singleton]
      exact next_some hsplit
  induction r generalizing l with
  | nil => rw [visits, hnext]; rfl
  | cons e r ih =>
      have hsplit : s.elements = (l ++ [e]) ++ r := by rw [h, List.append_assoc]; rfl
      have hlast : (l ++ [e]).getLast? = some e := by simp
      have hafter := ih hsplit (by rw [hlast]; exact next_some h)
      rw [hlast] at hafter
      rw [List.length_cons, visits, hnext]
      show (visits s.next (r.length + 1) (some e)).map (e :: ·) = some (e :: r)
      rw [hafter]
      rfl

/-- From nothing to nothing `next` comes to every element, in their order. -/
theorem visits_all [IsStrictOrder α lt] (s : OrderedSet α lt) :
    visits s.next (s.elements.length + 1) none = some s.elements :=
  visits_append (l := []) rfl

end OrderedSet

end Vin64.Lib
