import Mathlib.Data.List.Basic

/-!
# Radix trees in a memory

The nodes of a tree lie at addresses, and `next l a i` is what entry `i` of the node at `a`
leads to at level `l`.  A path is a list of indices, the last one first, so that its length is
the level it leads to.
-/

namespace Vin64.Lib.Radix

variable {A I : Type} {next next' : Nat → A → I → Option A} {root a b : A} {n : Nat}

def walk (next : Nat → A → I → Option A) (root : A) : List I → Option A
  | [] => some root
  | i :: q => (walk next root q).bind fun a => next q.length a i

@[simp] theorem walk_nil : walk next root [] = some root := rfl

theorem walk_cons (i : I) (q : List I) :
    walk next root (i :: q) = (walk next root q).bind fun a => next q.length a i := rfl

theorem walk_cons_of {i : I} {q : List I} (h : walk next root q = some a) :
    walk next root (i :: q) = next q.length a i := by
  rw [walk_cons, h]
  rfl

/-- A path that leads somewhere passes through a node. -/
theorem walk_cons_eq_some {i : I} {q : List I} :
    walk next root (i :: q) = some b ↔
      ∃ a, walk next root q = some a ∧ next q.length a i = some b := by
  rw [walk_cons]
  exact Option.bind_eq_some_iff

/-- Two trees with the same entries in the nodes that are reached have the same paths. -/
theorem walk_congr (h : ∀ q a i, q.length < n → walk next root q = some a →
      next' q.length a i = next q.length a i) :
    ∀ p : List I, p.length ≤ n → walk next' root p = walk next root p := by
  intro p
  induction p with
  | nil => exact fun _ => rfl
  | cons i q ih =>
      intro hlen
      have hlt : q.length < n := hlen
      rw [walk_cons, walk_cons, ih (Nat.le_of_lt hlt)]
      cases hq : walk next root q with
      | none => rfl
      | some a => exact h q a i hlt hq

/-- A tree whose root is empty has no path but the one to the root. -/
theorem walk_of_empty (h : ∀ i, next 0 root i = none) :
    ∀ p : List I, p ≠ [] → walk next root p = none := by
  intro p
  induction p with
  | nil => exact fun hne => absurd rfl hne
  | cons i q ih =>
      intro _
      cases q with
      | nil => exact h i
      | cons j q => rw [walk_cons, ih (by simp), Option.bind_none]

/-- No two paths of up to `n` indices lead to one node. -/
def Apart (next : Nat → A → I → Option A) (root : A) (n : Nat) : Prop :=
  ∀ (p q : List I) (a : A), p.length ≤ n → q.length ≤ n → walk next root p = some a →
    walk next root q = some a → p = q

theorem Apart.congr (hapart : Apart next root n) (h : ∀ q a i, q.length < n →
      walk next root q = some a → next' q.length a i = next q.length a i) :
    Apart next' root n := by
  intro p q a hp hq hwp hwq
  rw [walk_congr h p hp] at hwp
  rw [walk_congr h q hq] at hwq
  exact hapart p q a hp hq hwp hwq

/-! ## One entry changes -/

section Update

variable [DecidableEq I] {i₀ : I} {q₀ : List I} {a₀ : A} {v : Option A}

/-- Entry `i₀` of the node at the end of `q₀` becomes `v`, and the other entries of the nodes
that are reached stay.  Above the last level the entry was absent, and the node it leads to is
empty. -/
structure Updates (next next' : Nat → A → I → Option A) (root : A) (n : Nat) (q₀ : List I) (a₀ : A)
    (i₀ : I) (v : Option A) : Prop where
  depth : q₀.length ≤ n
  node : walk next root q₀ = some a₀
  set : next' q₀.length a₀ i₀ = v
  rest : ∀ q a i, q.length ≤ n → walk next root q = some a → ¬ (a = a₀ ∧ i = i₀) →
    next' q.length a i = next q.length a i
  was : q₀.length < n → next q₀.length a₀ i₀ = none
  empty : q₀.length < n → ∀ b, v = some b → ∀ i, next' (q₀.length + 1) b i = none

/-- The paths after one entry changed. -/
theorem Updates.walk_eq (h : Updates next next' root n q₀ a₀ i₀ v) (hapart : Apart next root n) :
    ∀ p : List I, p.length ≤ n + 1 →
      walk next' root p = if p = i₀ :: q₀ then v else walk next root p := by
  intro p
  induction p with
  | nil => simp
  | cons i q ih =>
      intro hlen
      have hle : q.length ≤ n := Nat.le_of_succ_le_succ hlen
      rw [walk_cons, walk_cons, ih (Nat.le_succ_of_le hle)]
      by_cases hq : q = i₀ :: q₀
      · -- the path goes through the new node, which was not there and is empty
        have hdeep : q₀.length < n := by
          rw [hq] at hle
          exact hle
        have hne : i :: q ≠ i₀ :: q₀ := by
          intro heq
          have hlen' := congrArg List.length heq
          rw [hq] at hlen'
          simp at hlen'
        have hold : walk next root q = none := by
          rw [hq, walk_cons_of h.node, h.was hdeep]
        rw [if_pos hq, if_neg hne, hold]
        cases hv : v with
        | none => rfl
        | some b =>
            rw [hq]
            exact h.empty hdeep b hv i
      · rw [if_neg hq]
        cases hw : walk next root q with
        | none =>
            have hne : i :: q ≠ i₀ :: q₀ := by
              intro heq
              rw [(List.cons.inj heq).2, h.node] at hw
              simp at hw
            rw [if_neg hne]
            rfl
        | some a =>
            by_cases ha : a = a₀ ∧ i = i₀
            · obtain ⟨rfl, rfl⟩ := ha
              have hqq : q = q₀ := hapart q q₀ a hle h.depth hw h.node
              rw [hqq, if_pos rfl]
              exact h.set
            · have hne : i :: q ≠ i₀ :: q₀ := by
                intro heq
                apply ha
                rw [(List.cons.inj heq).2, h.node] at hw
                exact ⟨(Option.some.inj hw).symm, (List.cons.inj heq).1⟩
              rw [if_neg hne]
              exact h.rest q a i hle hw ha

/-- A change in the last level leaves the nodes. -/
theorem Updates.walk_of_leaf (h : Updates next next' root n q₀ a₀ i₀ v)
    (hapart : Apart next root n) (hleaf : q₀.length = n) {p : List I} (hp : p.length ≤ n) :
    walk next' root p = walk next root p := by
  have hne : p ≠ i₀ :: q₀ := by
    intro heq
    rw [heq, List.length_cons, hleaf] at hp
    exact Nat.not_succ_le_self n hp
  rw [h.walk_eq hapart p (Nat.le_succ_of_le hp), if_neg hne]

theorem Updates.apart_of_leaf (h : Updates next next' root n q₀ a₀ i₀ v)
    (hapart : Apart next root n) (hleaf : q₀.length = n) : Apart next' root n := by
  intro p q a hp hq hwp hwq
  rw [h.walk_of_leaf hapart hleaf hp] at hwp
  rw [h.walk_of_leaf hapart hleaf hq] at hwq
  exact hapart p q a hp hq hwp hwq

/-- A new node that no path led to keeps the nodes apart. -/
theorem Updates.apart_of_new (h : Updates next next' root n q₀ a₀ i₀ v)
    (hapart : Apart next root n)
    (hnew : ∀ b q, v = some b → q.length ≤ n → walk next root q ≠ some b) :
    Apart next' root n := by
  intro p q a hp hq hwp hwq
  rw [h.walk_eq hapart p (Nat.le_succ_of_le hp)] at hwp
  rw [h.walk_eq hapart q (Nat.le_succ_of_le hq)] at hwq
  split_ifs at hwp hwq with hpp hqq hqq
  · rw [hpp, hqq]
  · exact absurd hwq (hnew a q hwp hq)
  · exact absurd hwp (hnew a p hwq hp)
  · exact hapart p q a hp hq hwp hwq

end Update

end Vin64.Lib.Radix
