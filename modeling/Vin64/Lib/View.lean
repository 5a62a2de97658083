import Mathlib.Data.List.Basic

/-!
# The entries of a list that are shown

Some entries of a list are shown, under the value they stand for.  Updates of the list that
keep to the shown entries or to the hidden ones are updates of what is shown.
-/

namespace Vin64.Lib

variable {ε α : Type}

/-- What the list shows. -/
def view (shown : ε → Bool) (value : ε → α) (l : List ε) : List α := (l.filter shown).map value

variable {shown : ε → Bool} {value : ε → α}

@[simp] theorem view_nil : view shown value [] = [] := rfl

theorem view_cons_of_shown {e : ε} (l : List ε) (h : shown e = true) :
    view shown value (e :: l) = value e :: view shown value l := by
  simp [view, h]

theorem view_cons_of_hidden {e : ε} (l : List ε) (h : shown e = false) :
    view shown value (e :: l) = view shown value l := by
  simp [view, h]

theorem view_append (l l' : List ε) :
    view shown value (l ++ l') = view shown value l ++ view shown value l' := by
  simp [view]

theorem view_concat_of_hidden {e : ε} (l : List ε) (h : shown e = false) :
    view shown value (l ++ [e]) = view shown value l := by
  rw [view_append, view_cons_of_hidden _ h, view_nil, List.append_nil]

theorem view_filter_hidden (l : List ε) :
    view shown value (l.filter fun e => !shown e) = [] := by
  simp [view, List.filter_filter]

/-- Entries that stay what they show. -/
theorem view_mapIdx {f : Nat → ε → ε} (hshown : ∀ i e, shown (f i e) = shown e)
    (hvalue : ∀ i e, value (f i e) = value e) (l : List ε) :
    view shown value (l.mapIdx f) = view shown value l := by
  induction l generalizing f with
  | nil => rfl
  | cons e l ih =>
      have htail := ih (f := fun i => f (i + 1)) (fun i => hshown (i + 1)) (fun i => hvalue (i + 1))
      rw [List.mapIdx_cons]
      cases he : shown e with
      | true =>
          rw [view_cons_of_shown _ (by rw [hshown, he]), view_cons_of_shown _ he, hvalue, htail]
      | false =>
          rw [view_cons_of_hidden _ (by rw [hshown, he]), view_cons_of_hidden _ he, htail]

theorem view_eraseIdx {l : List ε} {i : Nat} (h : ∀ e, l[i]? = some e → shown e = false) :
    view shown value (l.eraseIdx i) = view shown value l := by
  induction l generalizing i with
  | nil => rfl
  | cons e l ih =>
      cases i with
      | zero =>
          have he : shown e = false := h e rfl
          rw [List.eraseIdx_cons_zero, view_cons_of_hidden _ he]
      | succ i =>
          have htail := ih (i := i) h
          rw [List.eraseIdx_cons_succ]
          cases he : shown e with
          | true => rw [view_cons_of_shown _ he, view_cons_of_shown _ he, htail]
          | false => rw [view_cons_of_hidden _ he, view_cons_of_hidden _ he, htail]

/-- Removing the first entry that shows a value removes that value. -/
theorem view_eraseP [DecidableEq α] {p : ε → Bool} {a : α} {l : List ε}
    (h : ∀ e ∈ l, p e = true ↔ shown e = true ∧ value e = a) :
    view shown value (l.eraseP p) = (view shown value l).erase a := by
  induction l with
  | nil => rfl
  | cons e l ih =>
      have htail := ih fun e he => h e (List.mem_cons_of_mem _ he)
      have hhead := h e (List.mem_cons_self ..)
      cases hp : p e with
      | true =>
          obtain ⟨hshown, hvalue⟩ := hhead.1 hp
          rw [List.eraseP_cons_of_pos hp, view_cons_of_shown _ hshown, hvalue, List.erase_cons_head]
      | false =>
          rw [List.eraseP_cons_of_neg (by simp [hp])]
          cases he : shown e with
          | true =>
              have hne : value e ≠ a := by
                intro heq
                rw [hhead.2 ⟨he, heq⟩] at hp
                cases hp
              rw [view_cons_of_shown _ he, view_cons_of_shown _ he, htail,
                List.erase_cons_tail (by simpa using hne)]
          | false => rw [view_cons_of_hidden _ he, view_cons_of_hidden _ he, htail]

theorem mem_view {l : List ε} {a : α} :
    a ∈ view shown value l ↔ ∃ e ∈ l, shown e = true ∧ value e = a := by
  simp [view, and_assoc]

end Vin64.Lib
