/-!
# Graphs seen from a node

The edges of a node have keys, one edge for a key.  What a node shows is the label at the end
of every path from it, so graphs with cycles and with shared nodes can be compared.
-/

namespace Vin64.Lib

structure KeyedGraph (ν κ β : Type) where
  child : ν → κ → Option ν
  label : ν → β

namespace KeyedGraph

variable {ν κ β : Type}

/-- The node at the end of a path. -/
def walk (g : KeyedGraph ν κ β) (n : ν) : List κ → Option ν
  | [] => some n
  | k :: path => (g.child n k).bind fun m => g.walk m path

/-- The label at the end of a path. -/
def seen (g : KeyedGraph ν κ β) (n : ν) (path : List κ) : Option β := (g.walk n path).map g.label

def Reaches (g : KeyedGraph ν κ β) (n m : ν) : Prop := ∃ path, g.walk n path = some m

/-- `n` shows in `g` what `m` shows in `h`. -/
def SameAs (g : KeyedGraph ν κ β) (n : ν) (h : KeyedGraph ν κ β) (m : ν) : Prop :=
  ∀ path, g.seen n path = h.seen m path

/-- The node has its label and its edges in both graphs. -/
structure Agree (g h : KeyedGraph ν κ β) (n : ν) : Prop where
  label : g.label n = h.label n
  child : ∀ k, g.child n k = h.child n k

variable {g h : KeyedGraph ν κ β} {n m p : ν}

@[simp] theorem seen_nil : g.seen n [] = some (g.label n) := rfl

theorem seen_cons (k : κ) (path : List κ) :
    g.seen n (k :: path) = (g.child n k).bind fun m => g.seen m path := by
  rw [seen, walk]
  cases g.child n k with
  | none => rfl
  | some m => rfl

theorem seen_cons_some {k : κ} (hchild : g.child n k = some m) (path : List κ) :
    g.seen n (k :: path) = g.seen m path := by
  rw [seen_cons, hchild, Option.bind_some]

theorem seen_cons_none {k : κ} (hchild : g.child n k = none) (path : List κ) :
    g.seen n (k :: path) = none := by
  rw [seen_cons, hchild, Option.bind_none]

theorem walk_append (n : ν) (path rest : List κ) :
    g.walk n (path ++ rest) = (g.walk n path).bind fun m => g.walk m rest := by
  induction path generalizing n with
  | nil => rfl
  | cons k path ih =>
      rw [List.cons_append, walk, walk]
      cases g.child n k with
      | none => rfl
      | some m => exact ih m

theorem seen_append {path : List κ} (hwalk : g.walk n path = some m) (rest : List κ) :
    g.seen n (path ++ rest) = g.seen m rest := by
  rw [seen, walk_append, hwalk]
  rfl

theorem Reaches.refl (g : KeyedGraph ν κ β) (n : ν) : g.Reaches n n := ⟨[], rfl⟩

theorem Reaches.step {k : κ} (hreach : g.Reaches n m) (hchild : g.child m k = some p) :
    g.Reaches n p := by
  obtain ⟨path, hpath⟩ := hreach
  refine ⟨path ++ [k], ?_⟩
  rw [walk_append, hpath, Option.bind_some, walk, hchild]
  rfl

theorem Reaches.trans (hnm : g.Reaches n m) (hmp : g.Reaches m p) : g.Reaches n p := by
  obtain ⟨front, hfront⟩ := hnm
  obtain ⟨rest, hrest⟩ := hmp
  refine ⟨front ++ rest, ?_⟩
  rw [walk_append, hfront, Option.bind_some, hrest]

/-- What holds of a node and goes along edges holds of all that the node reaches. -/
theorem Reaches.invariant {P : ν → Prop} (hreach : g.Reaches n m) (hn : P n)
    (hstep : ∀ i k j, g.Reaches n i → P i → g.child i k = some j → P j) : P m := by
  obtain ⟨path, hpath⟩ := hreach
  suffices hall : ∀ (path : List κ) (i : ν), g.Reaches n i → P i → g.walk i path = some m → P m by
    exact hall path n (.refl g n) hn hpath
  intro path
  induction path with
  | nil =>
      intro i _ hi hwalk
      cases hwalk
      exact hi
  | cons k path ih =>
      intro i hreach hi hwalk
      obtain ⟨j, hchild, hrest⟩ := Option.bind_eq_some_iff.1 hwalk
      exact ih j (hreach.step hchild) (hstep i k j hreach hi hchild) hrest

theorem SameAs.refl (g : KeyedGraph ν κ β) (n : ν) : g.SameAs n g n := fun _ => rfl

theorem SameAs.symm (hsame : g.SameAs n h m) : h.SameAs m g n := fun path => (hsame path).symm

theorem SameAs.trans {f : KeyedGraph ν κ β} (hgh : g.SameAs n h m) (hhf : h.SameAs m f p) :
    g.SameAs n f p := fun path => (hgh path).trans (hhf path)

/-- Nodes with one label whose edges lead to nodes that show the same show the same. -/
theorem sameAs_of_children (hlabel : g.label n = h.label m)
    (hnone : ∀ k, g.child n k = none → h.child m k = none)
    (hsome : ∀ k i, g.child n k = some i → ∃ j, h.child m k = some j ∧ g.SameAs i h j) :
    g.SameAs n h m := by
  intro path
  cases path with
  | nil => rw [seen_nil, seen_nil, hlabel]
  | cons k path =>
      cases hn : g.child n k with
      | none => rw [seen_cons_none hn, seen_cons_none (hnone k hn)]
      | some i =>
          obtain ⟨j, hm, hsame⟩ := hsome k i hn
          rw [seen_cons_some hn, seen_cons_some hm, hsame path]

/-- Nodes with one label and the same edges show the same. -/
theorem sameAs_of_twins (hlabel : g.label n = g.label m) (hchild : ∀ k, g.child n k = g.child m k) :
    g.SameAs n g m := by
  intro path
  cases path with
  | nil => rw [seen_nil, seen_nil, hlabel]
  | cons k path => rw [seen_cons, seen_cons, hchild k]

/-- What a node reaches is all that it shows. -/
theorem walk_eq_of_agree (hagree : ∀ i, g.Reaches n i → Agree h g i) (path : List κ) :
    h.walk n path = g.walk n path := by
  suffices hall : ∀ (path : List κ) (i : ν), g.Reaches n i → h.walk i path = g.walk i path by
    exact hall path n (.refl g n)
  intro path
  induction path with
  | nil => exact fun i _ => rfl
  | cons k path ih =>
      intro i hreach
      rw [walk, walk, (hagree i hreach).child k]
      cases hchild : g.child i k with
      | none => rfl
      | some j => exact ih j (hreach.step hchild)

theorem sameAs_of_agree (hagree : ∀ i, g.Reaches n i → Agree h g i) : h.SameAs n g n := by
  intro path
  rw [seen, seen, walk_eq_of_agree hagree path]
  cases hwalk : g.walk n path with
  | none => rfl
  | some i => rw [Option.map_some, Option.map_some, (hagree i ⟨path, hwalk⟩).label]

theorem reaches_iff_of_agree (hagree : ∀ i, g.Reaches n i → Agree h g i) :
    h.Reaches n m ↔ g.Reaches n m := by
  simp only [Reaches, walk_eq_of_agree hagree]

/-! ## Giving a node the edges of another one -/

/-- In `h` the node `m` has the label and the edges that `n` has in `g`; the nodes that `n`
reaches without passing `m` are kept and have their own. -/
structure Redirects (g h : KeyedGraph ν κ β) (n m : ν) (kept : ν → Prop) : Prop where
  label : h.label m = g.label n
  child : ∀ k, h.child m k = g.child n k
  start : kept n
  step : ∀ i k j, kept i → i ≠ m → g.child i k = some j → kept j
  agree : ∀ i, kept i → i ≠ m → Agree h g i

namespace Redirects

variable {kept : ν → Prop}

/-- A node that reaches `m` also reaches it after the edges of `m` changed. -/
theorem walk_both (hr : Redirects g h n m kept) {i : ν} (hi : kept i) (hreach : g.Reaches i m) :
    ∃ path, g.walk i path = some m ∧ h.walk i path = some m := by
  obtain ⟨path, hpath⟩ := hreach
  induction path generalizing i with
  | nil => exact ⟨[], hpath, hpath⟩
  | cons k path ih =>
      by_cases him : i = m
      · exact ⟨[], congrArg some him, congrArg some him⟩
      · obtain ⟨j, hchild, hrest⟩ := Option.bind_eq_some_iff.1 hpath
        obtain ⟨path', hg, hh⟩ := ih (hr.step i k j hi him hchild) hrest
        refine ⟨k :: path', ?_, ?_⟩
        · rw [walk, hchild, Option.bind_some, hg]
        · rw [walk, (hr.agree i hi him).child k, hchild, Option.bind_some, hh]

/-- If `m` showed already what `n` shows, the change is not seen. -/
theorem sameAs_of_same (hr : Redirects g h n m kept) (hne : n ≠ m) (hsame : g.SameAs n g m)
    {i : ν} (hi : kept i) : h.SameAs i g i := by
  intro path
  induction path generalizing i with
  | nil =>
      by_cases him : i = m
      · subst him
        rw [seen_nil, hr.label, ← seen_nil, hsame []]
      · rw [seen_nil, seen_nil, (hr.agree i hi him).label]
  | cons k path ih =>
      by_cases him : i = m
      · -- the edges of `i` are those of `n` now
        subst him
        calc h.seen i (k :: path)
            = (g.child n k).bind fun j => h.seen j path := by rw [seen_cons, hr.child k]
          _ = g.seen n (k :: path) := by
              rw [seen_cons]
              cases hchild : g.child n k with
              | none => rfl
              | some j => exact ih (hr.step n k j hr.start hne hchild)
          _ = g.seen i (k :: path) := hsame (k :: path)
      · rw [seen_cons, seen_cons, (hr.agree i hi him).child k]
        cases hchild : g.child i k with
        | none => rfl
        | some j => exact ih (hr.step i k j hi him hchild)

/-- `m` shows what `n` showed if the edges lead where nothing changed. -/
theorem sameAs_target (hr : Redirects g h n m kept)
    (hkept : ∀ k i, g.child n k = some i → h.SameAs i g i) : h.SameAs m g n := by
  refine sameAs_of_children hr.label (fun k hk => ?_) (fun k i hk => ?_)
  · rw [← hr.child k, hk]
  · rw [hr.child k] at hk
    exact ⟨i, hk, hkept k i hk⟩

/-- `m` comes to show what `n` showed, unless `n` reached `m` and `m` showed something else. -/
theorem sameAs_iff (hr : Redirects g h n m kept) (hne : n ≠ m) :
    h.SameAs m g n ↔ ¬ g.Reaches n m ∨ g.SameAs n g m := by
  constructor
  · intro hsame
    refine Classical.or_iff_not_imp_left.2 fun hreach path => ?_
    obtain ⟨front, hg, hh⟩ := hr.walk_both hr.start (Classical.not_not.1 hreach)
    cases front with
    | nil => exact absurd (Option.some.inj hg) hne
    | cons k front =>
        -- the way from `n` to `m` leads from `m` back to `m` now
        have hround : h.walk m (k :: front) = some m := by
          rw [walk, hr.child k, ← (hr.agree n hr.start hne).child k]
          exact hh
        calc g.seen n path
            = h.seen m path := (hsame path).symm
          _ = h.seen m ((k :: front) ++ path) := (seen_append hround path).symm
          _ = g.seen n ((k :: front) ++ path) := hsame _
          _ = g.seen m path := seen_append hg path
  · rintro (hfar | hsame)
    · have hagree : ∀ i, g.Reaches n i → kept i ∧ Agree h g i := by
        intro i hi
        have hkept : kept i := by
          refine hi.invariant hr.start fun i k j hni hkept hchild => ?_
          refine hr.step i k j hkept ?_ hchild
          rintro rfl
          exact hfar hni
        refine ⟨hkept, hr.agree i hkept ?_⟩
        rintro rfl
        exact hfar hi
      refine hr.sameAs_target fun k i hchild => sameAs_of_agree fun j hj => ?_
      exact (hagree j (((Reaches.refl g n).step hchild).trans hj)).2
    · exact hr.sameAs_target fun k i hchild =>
        hr.sameAs_of_same hne hsame (hr.step n k i hr.start hne hchild)

end Redirects

end KeyedGraph

end Vin64.Lib
