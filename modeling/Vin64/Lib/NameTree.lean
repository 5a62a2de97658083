import Mathlib.Data.Fintype.Card
import Mathlib.Data.Set.Finite.Basic
import Mathlib.Logic.Relation

/-!
# Trees of names with links

A place of the tree is the list of the names that lead to it from the root, the last name
first.  A link is a place with a path of its own; a lookup that comes to it goes on from the
place this path leads to.  A creating walk makes the places that are missing; at a link it
drops the rest of its path and starts again with the path of the link.
-/

namespace Vin64.Lib

open Relation

variable {α : Type}

/-! ## Endless chains -/

/-- `x` leads to a cycle of `r`. -/
def Loops (r : α → α → Prop) (x : α) : Prop := ∃ y, ReflTransGen r x y ∧ TransGen r y y

theorem not_loops_of_acc {r : α → α → Prop} {x : α} (h : Acc (fun a b => r b a) x) :
    ¬ Loops r x := by
  induction h with
  | intro x _ ih =>
      intro hloop
      obtain ⟨y, hxy, hy⟩ := hloop
      rcases hxy.cases_head with rfl | ⟨z, hxz, hzy⟩
      · obtain ⟨z, hxz, hzx⟩ := TransGen.head'_iff.1 hy
        exact ih z hxz ⟨z, .refl, TransGen.tail' hzx hxz⟩
      · exact ih z hxz ⟨y, hzy, hy⟩

/-- With finitely many sources a chain that does not end comes to a cycle. -/
theorem acc_iff_not_loops {r : α → α → Prop} (hfinite : {x | ∃ y, r x y}.Finite) {x : α} :
    Acc (fun a b => r b a) x ↔ ¬ Loops r x := by
  refine ⟨not_loops_of_acc, fun hx => ?_⟩
  let Source := {y // ReflTransGen r x y ∧ ∃ z, r y z}
  let After : Source → Source → Prop := fun a b => TransGen r b.1 a.1
  have hsource : Finite Source := (hfinite.subset fun y hy => hy.2).to_subtype
  have htrans : IsTrans Source After := ⟨fun _ _ _ hba hcb => hcb.trans hba⟩
  have hirrefl : Std.Irrefl After := ⟨fun a ha => hx ⟨a.1, a.2.1, ha⟩⟩
  have hwf : WellFounded After := Finite.wellFounded_of_trans_of_irrefl After
  have hreached : ∀ y, ReflTransGen r x y → (∀ a : Source, r y a.1 → Acc (fun a b => r b a) a.1) →
      Acc (fun a b => r b a) y := by
    intro y hxy hnext
    refine Acc.intro y fun z hyz => ?_
    by_cases hz : ∃ u, r z u
    · exact hnext ⟨z, hxy.tail hyz, hz⟩ hyz
    · exact Acc.intro z fun u hzu => absurd ⟨u, hzu⟩ hz
  have hall : ∀ a : Source, Acc (fun a b => r b a) a.1 := fun a =>
    hwf.induction a fun a ih => hreached a.1 a.2.1 fun b hab => ih b (.single hab)
  exact hreached x .refl fun a _ => hall a

/-! ## Places and paths -/

inductive PathPart (α : Type) where
  | here
  | up
  | down (a : α)
deriving Repr, DecidableEq

structure NameTree (α : Type) where
  has : List α → Bool
  link : List α → Option (List (PathPart α))

namespace NameTree

/-- Where one part leads; the root has no parent. -/
def next (t : NameTree α) : List α → PathPart α → Option (List α)
  | q, .here => some q
  | [], .up => none
  | _ :: q, .up => some q
  | q, .down a => if t.has (a :: q) then some (a :: q) else none

/-- `t.Finds q ds x`: from `q` the parts lead to `x`, or nowhere. -/
inductive Finds (t : NameTree α) : List α → List (PathPart α) → Option (List α) → Prop
  | nil (q : List α) : Finds t q [] (some q)
  | absent {q : List α} {d : PathPart α} {ds : List (PathPart α)} : t.next q d = none →
      Finds t q (d :: ds) none
  | on {q p : List α} {d : PathPart α} {ds : List (PathPart α)} {x : Option (List α)} :
      t.next q d = some p → t.link p = none → Finds t p ds x → Finds t q (d :: ds) x
  | dangling {q p : List α} {d : PathPart α} {ds path : List (PathPart α)} :
      t.next q d = some p → t.link p = some path → Finds t [] path none →
      Finds t q (d :: ds) none
  | through {q p m : List α} {d : PathPart α} {ds path : List (PathPart α)} {x : Option (List α)} :
      t.next q d = some p → t.link p = some path → Finds t [] path (some m) → Finds t m ds x →
      Finds t q (d :: ds) x

variable {t : NameTree α} {p q : List α} {d : PathPart α} {ds es : List (PathPart α)}

@[simp] theorem next_here : t.next q .here = some q := by cases q <;> rfl

@[simp] theorem next_down (a : α) :
    t.next q (.down a) = if t.has (a :: q) then some (a :: q) else none := by
  cases q <;> rfl

/-- A part stays, goes to the parent, or goes down to a place that is there. -/
theorem next_eq_some_iff : t.next q d = some p ↔ (d = .here ∧ p = q) ∨
    (d = .up ∧ ∃ a, q = a :: p) ∨ ∃ a, d = .down a ∧ p = a :: q ∧ t.has p := by
  cases d with
  | here =>
      have hcomm : q = p ↔ p = q := eq_comm
      simp [hcomm]
  | up => cases q <;> simp [next]
  | down a =>
      rw [next_down, Option.ite_none_right_eq_some, Option.some.injEq]
      constructor
      · rintro ⟨hhas, rfl⟩
        exact .inr (.inr ⟨a, rfl, rfl, hhas⟩)
      · rintro (⟨h, -⟩ | ⟨h, -⟩ | ⟨b, h, rfl, hb⟩)
        · cases h
        · cases h
        · cases h
          exact ⟨hb, rfl⟩

theorem Finds.unique {x y : Option (List α)} (hx : t.Finds q ds x) (hy : t.Finds q ds y) :
    x = y := by
  induction hx generalizing y with
  | nil => cases hy; rfl
  | absent hnext =>
      cases hy <;> simp_all
  | on hnext hlink _ ih =>
      cases hy with
      | absent h => simp [h] at hnext
      | on h _ hrest =>
          obtain rfl := Option.some.inj (hnext.symm.trans h)
          exact ih hrest
      | dangling h h' => simp_all
      | through h h' => simp_all
  | dangling hnext hlink _ ih =>
      cases hy with
      | absent h => rfl
      | on h h' => simp_all
      | dangling => rfl
      | through h h' htarget =>
          obtain rfl := Option.some.inj (hnext.symm.trans h)
          obtain rfl := Option.some.inj (hlink.symm.trans h')
          cases ih htarget
  | through hnext hlink _ _ ih ihrest =>
      cases hy with
      | absent h => simp [h] at hnext
      | on h h' => simp_all
      | dangling h h' htarget =>
          obtain rfl := Option.some.inj (hnext.symm.trans h)
          obtain rfl := Option.some.inj (hlink.symm.trans h')
          cases ih htarget
      | through h h' htarget hrest =>
          obtain rfl := Option.some.inj (hnext.symm.trans h)
          obtain rfl := Option.some.inj (hlink.symm.trans h')
          obtain rfl := Option.some.inj (ih htarget)
          exact ihrest hrest

theorem finds_absent_iff {x : Option (List α)} (hnext : t.next q d = none) :
    t.Finds q (d :: ds) x ↔ x = none := by
  constructor
  · intro h
    exact h.unique (.absent hnext)
  · intro h
    exact h ▸ .absent hnext

theorem finds_on_iff {x : Option (List α)} (hnext : t.next q d = some p) (hlink : t.link p = none) :
    t.Finds q (d :: ds) x ↔ t.Finds p ds x := by
  constructor
  · intro h
    cases h <;> simp_all
  · exact .on hnext hlink

theorem finds_through_iff {path : List (PathPart α)} {x : Option (List α)}
    (hnext : t.next q d = some p) (hlink : t.link p = some path) : t.Finds q (d :: ds) x ↔
      (t.Finds [] path none ∧ x = none) ∨ ∃ m, t.Finds [] path (some m) ∧ t.Finds m ds x := by
  constructor
  · intro h
    cases h with
    | absent h => simp [h] at hnext
    | on h h' => simp_all
    | dangling h h' htarget =>
        obtain rfl := Option.some.inj (hnext.symm.trans h)
        obtain rfl := Option.some.inj (hlink.symm.trans h')
        exact .inl ⟨htarget, rfl⟩
    | through h h' htarget hrest =>
        obtain rfl := Option.some.inj (hnext.symm.trans h)
        obtain rfl := Option.some.inj (hlink.symm.trans h')
        exact .inr ⟨_, htarget, hrest⟩
  · intro h
    rcases h with ⟨htarget, rfl⟩ | ⟨m, htarget, hrest⟩
    · exact .dangling hnext hlink htarget
    · exact .through hnext hlink htarget hrest

theorem finds_nil_iff {x : Option (List α)} : t.Finds q [] x ↔ x = some q := by
  constructor
  · intro h
    exact h.unique (.nil q)
  · intro h
    exact h ▸ .nil q

theorem finds_append_iff {x : Option (List α)} : t.Finds q (ds ++ es) x ↔
    (t.Finds q ds none ∧ x = none) ∨ ∃ m, t.Finds q ds (some m) ∧ t.Finds m es x := by
  induction ds generalizing q with
  | nil => simp [finds_nil_iff]
  | cons d ds ih =>
      rw [List.cons_append]
      cases hnext : t.next q d with
      | none => simp [finds_absent_iff hnext]
      | some p =>
          cases hlink : t.link p with
          | none => simp only [finds_on_iff hnext hlink, ih]
          | some path =>
              simp only [finds_through_iff hnext hlink, ih]
              constructor
              · intro h
                rcases h with ⟨htarget, rfl⟩ | ⟨k, htarget, ⟨hds, rfl⟩ | ⟨m, hds, hes⟩⟩
                · exact .inl ⟨.inl ⟨htarget, trivial⟩, rfl⟩
                · exact .inl ⟨.inr ⟨k, htarget, hds⟩, rfl⟩
                · exact .inr ⟨m, .inr ⟨k, htarget, hds⟩, hes⟩
              · intro h
                rcases h with ⟨⟨htarget, -⟩ | ⟨k, htarget, hds⟩, rfl⟩ |
                  ⟨m, ⟨-, hm⟩ | ⟨k, htarget, hds⟩, hes⟩
                · exact .inl ⟨htarget, rfl⟩
                · exact .inr ⟨k, htarget, .inl ⟨hds, rfl⟩⟩
                · cases hm
                · exact .inr ⟨k, htarget, .inr ⟨m, hds, hes⟩⟩

/-- A link stands for its path. -/
theorem finds_link_iff {path : List (PathPart α)} {x : Option (List α)}
    (hnext : t.next q d = some p) (hlink : t.link p = some path) :
    t.Finds q (d :: ds) x ↔ t.Finds [] (path ++ ds) x := by
  rw [finds_through_iff hnext hlink, finds_append_iff]

/-! ## Lookups that end -/

/-- `t.Meets q ds l`: the walk of the parts from `q` comes to the link `l`, the walks of the
paths of links apart. -/
inductive Meets (t : NameTree α) : List α → List (PathPart α) → List α → Prop
  | on {q p l : List α} {d : PathPart α} {ds : List (PathPart α)} : t.next q d = some p →
      t.link p = none → Meets t p ds l → Meets t q (d :: ds) l
  | here {q p : List α} {d : PathPart α} {ds path : List (PathPart α)} : t.next q d = some p →
      t.link p = some path → Meets t q (d :: ds) p
  | past {q p m l : List α} {d : PathPart α} {ds path : List (PathPart α)} : t.next q d = some p →
      t.link p = some path → t.Finds [] path (some m) → Meets t m ds l → Meets t q (d :: ds) l

/-- The lookup of the path of `l` comes to the link `m`. -/
def Resolves (t : NameTree α) (l m : List α) : Prop :=
  ∃ path, t.link l = some path ∧ t.Meets [] path m

theorem exists_finds_of_meets
    (h : ∀ l, t.Meets q ds l → ∀ path, t.link l = some path → ∃ y, t.Finds [] path y) :
    ∃ x, t.Finds q ds x := by
  induction ds generalizing q with
  | nil => exact ⟨some q, .nil q⟩
  | cons d ds ih =>
      cases hnext : t.next q d with
      | none => exact ⟨none, .absent hnext⟩
      | some p =>
          cases hlink : t.link p with
          | none =>
              obtain ⟨x, hx⟩ := ih fun l hl => h l (.on hnext hlink hl)
              exact ⟨x, .on hnext hlink hx⟩
          | some path =>
              obtain ⟨y, hy⟩ := h p (.here hnext hlink) path hlink
              cases y with
              | none => exact ⟨none, .dangling hnext hlink hy⟩
              | some m =>
                  obtain ⟨x, hx⟩ := ih fun l hl => h l (.past hnext hlink hy hl)
                  exact ⟨x, .through hnext hlink hy hx⟩

theorem exists_finds_of_acc {l : List α} (h : Acc (fun a b => t.Resolves b a) l)
    {path : List (PathPart α)} (hpath : t.link l = some path) : ∃ x, t.Finds [] path x := by
  induction h generalizing path with
  | intro l _ ih =>
      exact exists_finds_of_meets fun m hm target htarget => ih m ⟨path, hpath, hm⟩ htarget

theorem Finds.acc {x : Option (List α)} (h : t.Finds q ds x) {l : List α} (hl : t.Meets q ds l) :
    Acc (fun a b => t.Resolves b a) l := by
  have hlinked : ∀ {p path}, t.link p = some path →
      (∀ m, t.Meets [] path m → Acc (fun a b => t.Resolves b a) m) →
      Acc (fun a b => t.Resolves b a) p := by
    intro p path hlink htarget
    refine Acc.intro p fun m hm => ?_
    obtain ⟨path', hlink', hmeets⟩ := hm
    exact htarget m (Option.some.inj (hlink'.symm.trans hlink) ▸ hmeets)
  induction h generalizing l with
  | nil => cases hl
  | absent hnext => cases hl <;> simp_all
  | on hnext hlink _ ih =>
      cases hl with
      | on h _ hrest => exact ih (Option.some.inj (h.symm.trans hnext) ▸ hrest)
      | here h h' => simp_all
      | past h h' => simp_all
  | dangling hnext hlink htarget ih =>
      cases hl with
      | on h h' => simp_all
      | here h h' =>
          obtain rfl := Option.some.inj (hnext.symm.trans h)
          exact hlinked hlink fun m hm => ih hm
      | past h h' hfinds =>
          obtain rfl := Option.some.inj (hnext.symm.trans h)
          obtain rfl := Option.some.inj (hlink.symm.trans h')
          cases hfinds.unique htarget
  | through hnext hlink htarget hrest ih ihrest =>
      cases hl with
      | on h h' => simp_all
      | here h h' =>
          obtain rfl := Option.some.inj (hnext.symm.trans h)
          exact hlinked hlink fun m hm => ih hm
      | past h h' hfinds hmeets =>
          obtain rfl := Option.some.inj (hnext.symm.trans h)
          obtain rfl := Option.some.inj (hlink.symm.trans h')
          obtain rfl := Option.some.inj (hfinds.unique htarget)
          exact ihrest hmeets

theorem finite_resolves (hfinite : {l | (t.link l).isSome}.Finite) :
    {l | ∃ m, t.Resolves l m}.Finite := by
  refine hfinite.subset fun l hl => ?_
  obtain ⟨m, path, hpath, -⟩ := hl
  exact Option.isSome_iff_exists.2 ⟨path, hpath⟩

/-- A lookup ends when no link it meets leads back to itself. -/
theorem exists_finds_iff (hfinite : {l | (t.link l).isSome}.Finite) :
    (∃ x, t.Finds q ds x) ↔ ∀ l, t.Meets q ds l → ¬ Loops t.Resolves l := by
  constructor
  · intro h l hl
    obtain ⟨x, hx⟩ := h
    exact not_loops_of_acc (hx.acc hl)
  · intro h
    refine exists_finds_of_meets fun l hl path hpath => ?_
    exact exists_finds_of_acc ((acc_iff_not_loops (finite_resolves hfinite)).2 (h l hl)) hpath

/-! ## Creating walks -/

/-- Where one part of a creating walk leads; for the parent of the root it makes the place
`top` below the root. -/
def make (top : α) : List α → PathPart α → List α
  | q, .here => q
  | [], .up => [top]
  | _ :: q, .up => q
  | q, .down a => a :: q

/-- `t.Makes top q ds n made dropped`: from `q` the walk ends at `n`.  It made the places
`made`, as far as they were missing; `dropped` is what it left of its paths at links, the rest
of the last path first. -/
inductive Makes (t : NameTree α) (top : α) :
    List α → List (PathPart α) → List α → List (List α) → List (PathPart α) → Prop
  | nil (q : List α) : Makes t top q [] q [] []
  | on {q n : List α} {d : PathPart α} {ds dropped : List (PathPart α)} {made : List (List α)} :
      t.link (make top q d) = none → Makes t top (make top q d) ds n made dropped →
      Makes t top q (d :: ds) n (make top q d :: made) dropped
  | again {q n : List α} {d : PathPart α} {ds path dropped : List (PathPart α)}
      {made : List (List α)} : t.link (make top q d) = some path →
      Makes t top [] path n made dropped →
      Makes t top q (d :: ds) n (make top q d :: made) (dropped ++ ds)

/-- The walk asks for the parent of the root. -/
inductive Above (t : NameTree α) (top : α) : List α → List (PathPart α) → Prop
  | root (ds : List (PathPart α)) : Above t top [] (.up :: ds)
  | on {q : List α} {d : PathPart α} {ds : List (PathPart α)} : t.link (make top q d) = none →
      Above t top (make top q d) ds → Above t top q (d :: ds)
  | again {q : List α} {d : PathPart α} {ds path : List (PathPart α)} :
      t.link (make top q d) = some path → Above t top [] path → Above t top q (d :: ds)

/-- The first link of the walk. -/
inductive First (t : NameTree α) (top : α) : List α → List (PathPart α) → List α → Prop
  | on {q l : List α} {d : PathPart α} {ds : List (PathPart α)} : t.link (make top q d) = none →
      First t top (make top q d) ds l → First t top q (d :: ds) l
  | here {q : List α} {d : PathPart α} {ds path : List (PathPart α)} :
      t.link (make top q d) = some path → First t top q (d :: ds) (make top q d)

/-- The walk of the path of `l` comes to the link `m` first. -/
def Restarts (t : NameTree α) (top : α) (l m : List α) : Prop :=
  ∃ path, t.link l = some path ∧ t.First top [] path m

/-- A walk that makes nothing comes to a part that leads nowhere; at a link it drops the rest
of its path too. -/
inductive Lacks (t : NameTree α) : List α → List (PathPart α) → Prop
  | absent {q : List α} {d : PathPart α} (ds : List (PathPart α)) : t.next q d = none →
      Lacks t q (d :: ds)
  | on {q p : List α} {d : PathPart α} {ds : List (PathPart α)} : t.next q d = some p →
      t.link p = none → Lacks t p ds → Lacks t q (d :: ds)
  | again {q p : List α} {d : PathPart α} {ds path : List (PathPart α)} : t.next q d = some p →
      t.link p = some path → Lacks t [] path → Lacks t q (d :: ds)

/-- The tree with more places. -/
def grow [DecidableEq α] (t : NameTree α) (made : List (List α)) : NameTree α :=
  { t with has := fun p => t.has p || decide (p ∈ made) }

variable {top : α} {n : List α} {made : List (List α)} {dropped : List (PathPart α)}

theorem not_above_on (hlink : t.link (make top q d) = none) (hroot : d = .up → q ≠ [])
    (hrest : ¬ t.Above top (make top q d) ds) : ¬ t.Above top q (d :: ds) := by
  intro h
  cases h with
  | root => exact hroot rfl rfl
  | on _ h => exact hrest h
  | again h _ => cases hlink.symm.trans h

theorem not_above_again {path : List (PathPart α)} (hlink : t.link (make top q d) = some path)
    (hroot : d = .up → q ≠ []) (hpath : ¬ t.Above top [] path) : ¬ t.Above top q (d :: ds) := by
  intro h
  cases h with
  | root => exact hroot rfl rfl
  | on h _ => cases hlink.symm.trans h
  | again h habove => exact hpath (Option.some.inj (hlink.symm.trans h) ▸ habove)

theorem Makes.unique {n' : List α} {made' : List (List α)} {dropped' : List (PathPart α)}
    (h : t.Makes top q ds n made dropped) (h' : t.Makes top q ds n' made' dropped') :
    n = n' ∧ made = made' ∧ dropped = dropped' := by
  induction h generalizing n' made' dropped' with
  | nil => cases h'; exact ⟨rfl, rfl, rfl⟩
  | on hlink _ ih =>
      cases h' with
      | on _ hrest =>
          obtain ⟨rfl, rfl, rfl⟩ := ih hrest
          exact ⟨rfl, rfl, rfl⟩
      | again h => simp [h] at hlink
  | again hlink _ ih =>
      cases h' with
      | on h => simp [h] at hlink
      | again h hrest =>
          obtain rfl := Option.some.inj (hlink.symm.trans h)
          obtain ⟨rfl, rfl, rfl⟩ := ih hrest
          exact ⟨rfl, rfl, rfl⟩

/-- A creating walk depends on the links only. -/
theorem Makes.of_link {u : NameTree α} (hlink : u.link = t.link)
    (h : t.Makes top q ds n made dropped) : u.Makes top q ds n made dropped := by
  induction h with
  | nil q => exact .nil q
  | on hnone _ ih => exact .on (hlink ▸ hnone) ih
  | again hsome _ ih => exact .again (hlink ▸ hsome) ih

@[simp] theorem make_here (top : α) : make top q .here = q := by cases q <;> rfl

@[simp] theorem make_down (top a : α) : make top q (.down a) = a :: q := by cases q <;> rfl

theorem next_eq_make {u : NameTree α} (hhas : u.has (make top q d))
    (hroot : ¬ (q = [] ∧ d = .up)) : u.next q d = some (make top q d) := by
  cases d with
  | here => rw [next_here, make_here]
  | up =>
      cases q with
      | nil => exact absurd ⟨rfl, rfl⟩ hroot
      | cons a q => rfl
  | down a =>
      rw [make_down] at hhas ⊢
      rw [next_down, if_pos hhas]

/-- Where the walk does not ask for the parent of the root, a lookup of its parts comes to the
place it ends at, and goes on with the parts it dropped. -/
theorem Makes.finds_iff {u : NameTree α} (h : t.Makes top q ds n made dropped)
    (hroot : ¬ t.Above top q ds) (hlink : u.link = t.link) (hhas : ∀ p ∈ made, u.has p)
    {x : Option (List α)} : u.Finds q ds x ↔ u.Finds n dropped x := by
  induction h generalizing x with
  | nil => rfl
  | on hnone _ ih =>
      have hnext := next_eq_make (hhas _ List.mem_cons_self)
        fun heq => hroot (heq.1 ▸ heq.2 ▸ .root _)
      rw [finds_on_iff hnext (hlink ▸ hnone)]
      exact ih (fun habove => hroot (.on hnone habove)) fun p hp => hhas p (.tail _ hp)
  | again hsome _ ih =>
      have hnext := next_eq_make (hhas _ List.mem_cons_self)
        fun heq => hroot (heq.1 ▸ heq.2 ▸ .root _)
      have hpath := fun {y} => ih (fun habove => hroot (.again hsome habove))
        (fun p hp => hhas p (.tail _ hp)) (x := y)
      rw [finds_link_iff hnext (hlink ▸ hsome), finds_append_iff, finds_append_iff]
      simp only [hpath]

/-- Where the walk asks for the parent of the root, a lookup of its parts fails. -/
theorem Makes.finds_above {u : NameTree α} (h : t.Makes top q ds n made dropped)
    (hroot : t.Above top q ds) (hlink : u.link = t.link) (hhas : ∀ p ∈ made, u.has p)
    {x : Option (List α)} (hx : u.Finds q ds x) : x = none := by
  induction h generalizing x with
  | nil => cases hroot
  | @on q n d ds _ _ hnone _ ih =>
      by_cases hup : q = [] ∧ d = .up
      · obtain ⟨rfl, rfl⟩ := hup
        exact (finds_absent_iff rfl).1 hx
      · have hnext := next_eq_make (hhas _ List.mem_cons_self) hup
        rw [finds_on_iff hnext (hlink ▸ hnone)] at hx
        cases hroot with
        | root => exact absurd ⟨rfl, rfl⟩ hup
        | on _ hrest => exact ih hrest (fun p hp => hhas p (.tail _ hp)) hx
        | again h => simp [h] at hnone
  | @again q n d ds path _ _ hsome _ ih =>
      by_cases hup : q = [] ∧ d = .up
      · obtain ⟨rfl, rfl⟩ := hup
        exact (finds_absent_iff rfl).1 hx
      · have hnext := next_eq_make (hhas _ List.mem_cons_self) hup
        rw [finds_link_iff hnext (hlink ▸ hsome), finds_append_iff] at hx
        cases hroot with
        | root => exact absurd ⟨rfl, rfl⟩ hup
        | on h => simp [h] at hsome
        | again h hrest =>
            obtain rfl := Option.some.inj (hsome.symm.trans h)
            rcases hx with ⟨-, hx⟩ | ⟨m, hm, -⟩
            · exact hx
            · cases ih hrest (fun p hp => hhas p (.tail _ hp)) hm

/-! ## Places above the root -/

/-- No part is the name that a creating walk gives to the parent of the root. -/
def Avoids (top : α) (ds : List (PathPart α)) : Prop := ∀ d ∈ ds, d ≠ .down top

/-- From a place that is not below `top`, only the parent of the root leads there. -/
theorem not_below_make (hq : ¬ [top] <:+ q) (hd : d ≠ .down top)
    (hroot : ¬ (q = [] ∧ d = .up)) : ¬ [top] <:+ make top q d := by
  cases d with
  | here =>
      rw [make_here]
      exact hq
  | up =>
      cases q with
      | nil => exact absurd ⟨rfl, rfl⟩ hroot
      | cons a q => exact fun h => hq (h.trans (List.suffix_cons a q))
  | down a =>
      rw [make_down, List.suffix_cons_iff]
      intro h
      rcases h with heq | hbelow
      · exact hd (by rw [(List.cons_eq_cons.1 heq).1])
      · exact hq hbelow

/-- A walk makes a place at or below `top` only when it asks for the parent of the root. -/
theorem Makes.above_of_below (h : t.Makes top q ds n made dropped) (hq : ¬ [top] <:+ q)
    (hds : Avoids top ds) (hlinks : ∀ l path, t.link l = some path → Avoids top path)
    {p : List α} (hp : p ∈ made) (hbelow : [top] <:+ p) : t.Above top q ds := by
  induction h with
  | nil => cases hp
  | @on q n d ds _ _ hlink _ ih =>
      by_cases hroot : q = [] ∧ d = .up
      · obtain ⟨rfl, rfl⟩ := hroot
        exact .root ds
      · have hmake := not_below_make hq (hds d List.mem_cons_self) hroot
        rcases List.mem_cons.1 hp with rfl | hrest
        · exact absurd hbelow hmake
        · exact .on hlink (ih hmake (fun e he => hds e (.tail _ he)) hrest)
  | @again q n d ds path _ _ hlink _ ih =>
      by_cases hroot : q = [] ∧ d = .up
      · obtain ⟨rfl, rfl⟩ := hroot
        exact .root ds
      · rcases List.mem_cons.1 hp with rfl | hrest
        · exact absurd hbelow (not_below_make hq (hds d List.mem_cons_self) hroot)
        · exact .again hlink (ih (by simp) (hlinks _ path hlink) hrest)

/-- A walk that asks for the parent of the root makes `top`. -/
theorem Makes.top_mem (h : t.Makes top q ds n made dropped) (habove : t.Above top q ds) :
    [top] ∈ made := by
  induction h with
  | nil => cases habove
  | on hlink _ ih =>
      cases habove with
      | root => exact List.mem_cons_self
      | on _ hrest => exact .tail _ (ih hrest)
      | again h => simp [h] at hlink
  | again hlink _ ih =>
      cases habove with
      | root => exact List.mem_cons_self
      | on h => simp [h] at hlink
      | again h hrest =>
          obtain rfl := Option.some.inj (hlink.symm.trans h)
          exact .tail _ (ih hrest)

theorem exists_makes_of_first (h : ∀ l, t.First top q ds l → ∀ path, t.link l = some path →
    ∃ n made dropped, t.Makes top [] path n made dropped) :
    ∃ n made dropped, t.Makes top q ds n made dropped := by
  induction ds generalizing q with
  | nil => exact ⟨q, [], [], .nil q⟩
  | cons d ds ih =>
      cases hlink : t.link (make top q d) with
      | none =>
          obtain ⟨n, made, dropped, hm⟩ := ih fun l hl => h l (.on hlink hl)
          exact ⟨n, _, dropped, .on hlink hm⟩
      | some path =>
          obtain ⟨n, made, dropped, hm⟩ := h _ (.here hlink) path hlink
          exact ⟨n, _, _, .again hlink hm⟩

theorem exists_makes_of_acc {l : List α} (h : Acc (fun a b => t.Restarts top b a) l)
    {path : List (PathPart α)} (hpath : t.link l = some path) :
    ∃ n made dropped, t.Makes top [] path n made dropped := by
  induction h generalizing path with
  | intro l _ ih =>
      exact exists_makes_of_first fun m hm target htarget => ih m ⟨path, hpath, hm⟩ htarget

theorem Makes.acc (h : t.Makes top q ds n made dropped) {l : List α}
    (hl : t.First top q ds l) : Acc (fun a b => t.Restarts top b a) l := by
  induction h generalizing l with
  | nil => cases hl
  | on hlink _ ih =>
      cases hl with
      | on _ hrest => exact ih hrest
      | here h => simp [h] at hlink
  | again hlink _ ih =>
      cases hl with
      | on h => simp [h] at hlink
      | here =>
          refine Acc.intro _ fun m hm => ?_
          obtain ⟨path, hpath, hfirst⟩ := hm
          exact ih (Option.some.inj (hpath.symm.trans hlink) ▸ hfirst)

/-- A creating walk ends when its first link does not lead back to itself. -/
theorem exists_makes_iff (hfinite : {l | (t.link l).isSome}.Finite) :
    (∃ n made dropped, t.Makes top q ds n made dropped) ↔
      ∀ l, t.First top q ds l → ¬ Loops (t.Restarts top) l := by
  have hsources : {l | ∃ m, t.Restarts top l m}.Finite := by
    refine hfinite.subset fun l hl => ?_
    obtain ⟨m, path, hpath, -⟩ := hl
    exact Option.isSome_iff_exists.2 ⟨path, hpath⟩
  constructor
  · intro h l hl
    obtain ⟨n, made, dropped, hm⟩ := h
    exact not_loops_of_acc (hm.acc hl)
  · intro h
    refine exists_makes_of_first fun l hl path hpath => ?_
    exact exists_makes_of_acc ((acc_iff_not_loops hsources).2 (h l hl)) hpath

/-! ## The places of a walk -/

theorem makes_on_iff (hlink : t.link (make top q d) = none) :
    (∃ dropped, t.Makes top q (d :: ds) n made dropped) ↔ ∃ made' dropped,
      made = make top q d :: made' ∧ t.Makes top (make top q d) ds n made' dropped := by
  constructor
  · intro h
    obtain ⟨dropped, h⟩ := h
    cases h with
    | on _ hrest => exact ⟨_, _, rfl, hrest⟩
    | again h => simp [h] at hlink
  · intro h
    obtain ⟨made', dropped, rfl, hrest⟩ := h
    exact ⟨dropped, .on hlink hrest⟩

theorem makes_again_iff {path : List (PathPart α)} (hlink : t.link (make top q d) = some path) :
    (∃ dropped, t.Makes top q (d :: ds) n made dropped) ↔ ∃ made' dropped,
      made = make top q d :: made' ∧ t.Makes top [] path n made' dropped := by
  constructor
  · intro h
    obtain ⟨dropped, h⟩ := h
    cases h with
    | on h => simp [h] at hlink
    | again h hrest =>
        obtain rfl := Option.some.inj (hlink.symm.trans h)
        exact ⟨_, _, rfl, hrest⟩
  · intro h
    obtain ⟨made', dropped, rfl, hrest⟩ := h
    exact ⟨_, .again hlink hrest⟩

/-- `P` holds where a walk goes on from, and `Q` where it comes to. -/
theorem Makes.forall_made {P Q : List α → Prop} {D : PathPart α → Prop}
    (h : t.Makes top q ds n made dropped) (hq : P q) (hroot : P []) (hds : ∀ d ∈ ds, D d)
    (hlinks : ∀ l path, t.link l = some path → ∀ d ∈ path, D d)
    (hmake : ∀ q d, P q → D d → Q (make top q d)) (hon : ∀ p, Q p → t.link p = none → P p) :
    ∀ p ∈ made, Q p := by
  induction h with
  | nil => exact nofun
  | @on q n d ds _ _ hlink _ ih =>
      obtain ⟨hd, hrest⟩ := List.forall_mem_cons.1 hds
      have hp := hmake q d hq hd
      exact List.forall_mem_cons.2 ⟨hp, ih (hon _ hp hlink) hrest⟩
  | @again q n d ds path _ _ hlink _ ih =>
      have hp := hmake q d hq (hds d List.mem_cons_self)
      exact List.forall_mem_cons.2 ⟨hp, ih hroot (hlinks _ path hlink)⟩

/-- A place that a walk from the root comes to, and that is no link, has no link above it; its
names are those of parts, unless it is at or below `top`. -/
theorem Makes.made_plain {D : PathPart α → Prop} (h : t.Makes top [] ds n made dropped)
    (hds : ∀ d ∈ ds, D d) (hlinks : ∀ l path, t.link l = some path → ∀ d ∈ path, D d)
    (hp : p ∈ made) (hlink : t.link p = none) :
    ([top] <:+ p ∨ ∀ a ∈ p, D (.down a)) ∧ ∀ s, s <:+ p → s ≠ [] → t.link s = none := by
  let Named : List α → Prop := fun q => [top] <:+ q ∨ ∀ a ∈ q, D (.down a)
  let Clear : List α → Prop := fun q => ∀ s, s <:+ q → s ≠ [] → t.link s = none
  have hon : ∀ p, (Named p ∧ Clear p.tail) → t.link p = none → Named p ∧ Clear p := by
    intro p hp hnone
    refine ⟨hp.1, fun s hs hne => ?_⟩
    cases p with
    | nil => exact absurd (List.suffix_nil.1 hs) hne
    | cons a q =>
        rcases List.suffix_cons_iff.1 hs with rfl | hrest
        · exact hnone
        · exact hp.2 s hrest hne
  have hmake : ∀ q d, (Named q ∧ Clear q) → D d →
      Named (make top q d) ∧ Clear (make top q d).tail := by
    intro q d hq hd
    have htail : Clear q.tail := fun s hs => hq.2 s (hs.trans (List.tail_suffix q))
    cases d with
    | here =>
        rw [make_here]
        exact ⟨hq.1, htail⟩
    | up =>
        cases q with
        | nil =>
            exact ⟨.inl (List.suffix_refl _), fun s hs hne => absurd (List.suffix_nil.1 hs) hne⟩
        | cons a q =>
            refine ⟨?_, fun s hs => htail s (hs.trans (List.tail_suffix q))⟩
            rcases hq.1 with hbelow | hnames
            · rcases List.suffix_cons_iff.1 hbelow with heq | hrest
              · obtain ⟨-, rfl⟩ := List.cons_eq_cons.1 heq
                exact .inr nofun
              · exact .inl hrest
            · exact .inr fun b hb => hnames b (.tail _ hb)
    | down a =>
        rw [make_down]
        refine ⟨?_, hq.2⟩
        rcases hq.1 with hbelow | hnames
        · exact .inl (hbelow.trans (List.suffix_cons a q))
        · exact .inr (List.forall_mem_cons.2 ⟨hd, hnames⟩)
  have hroot : Named [] ∧ Clear [] :=
    ⟨.inr nofun, fun s hs hne => absurd (List.suffix_nil.1 hs) hne⟩
  exact hon p (h.forall_made hroot hroot hds hlinks hmake hon p hp) hlink

/-- The names of a place lead to it when there is no link above it. -/
theorem finds_downs (h : ∀ s, s <:+ p → s ≠ [] → t.has s ∧ t.link s = none) :
    t.Finds [] (p.reverse.map .down) (some p) := by
  induction p with
  | nil => exact .nil []
  | cons a p ih =>
      obtain ⟨hhas, hlink⟩ := h (a :: p) (List.suffix_refl _) (by simp)
      have hnext : t.next p (.down a) = some (a :: p) := by
        have hdown : t.next p (.down a) = if t.has (a :: p) then some (a :: p) else none := by
          cases p <;> rfl
        rw [hdown, if_pos hhas]
      rw [List.reverse_cons, List.map_append, finds_append_iff]
      exact .inr ⟨p, ih fun s hs => h s (hs.trans (List.suffix_cons a p)),
        .on hnext hlink (.nil _)⟩

/-! ## Trees that differ above the root only -/

theorem eq_make_of_next (top : α) (h : t.next q d = some p) :
    p = make top q d ∧ ¬ (q = [] ∧ d = .up) := by
  obtain ⟨rfl, rfl⟩ | ⟨rfl, a, rfl⟩ | ⟨a, rfl, rfl, -⟩ := next_eq_some_iff.1 h
  · exact ⟨(make_here top).symm, by simp⟩
  · exact ⟨rfl, by simp⟩
  · exact ⟨(make_down top a).symm, by simp⟩

theorem next_congr {u : NameTree α} (hhas : ∀ p, ¬ [top] <:+ p → u.has p = t.has p)
    (hq : ¬ [top] <:+ q) (hd : d ≠ .down top) : u.next q d = t.next q d := by
  cases d with
  | here => rw [next_here, next_here]
  | up => cases q <;> rfl
  | down a =>
      have hbelow := not_below_make hq hd (by simp)
      rw [make_down] at hbelow
      rw [next_down, next_down, hhas _ hbelow]

/-- What is at or below `top` has no part in a lookup whose parts avoid it. -/
theorem Finds.congr {u : NameTree α} {x : Option (List α)} (h : t.Finds q ds x)
    (hlink : u.link = t.link) (hhas : ∀ p, ¬ [top] <:+ p → u.has p = t.has p)
    (hq : ¬ [top] <:+ q) (hds : Avoids top ds)
    (hlinks : ∀ l path, t.link l = some path → Avoids top path) :
    u.Finds q ds x ∧ ∀ m, x = some m → ¬ [top] <:+ m := by
  have hpart : ∀ {q d p}, t.next q d = some p → ¬ [top] <:+ q → d ≠ .down top →
      u.next q d = some p ∧ ¬ [top] <:+ p := by
    intro q d p hnext hq hd
    obtain ⟨hp, hroot⟩ := eq_make_of_next top hnext
    exact ⟨(next_congr hhas hq hd).trans hnext, hp ▸ not_below_make hq hd hroot⟩
  induction h with
  | nil q => exact ⟨.nil q, fun m hm => Option.some.inj hm ▸ hq⟩
  | absent hnext =>
      have hd := hds _ List.mem_cons_self
      exact ⟨.absent ((next_congr hhas hq hd).trans hnext), nofun⟩
  | on hnext hnone _ ih =>
      obtain ⟨hnext', hp⟩ := hpart hnext hq (hds _ List.mem_cons_self)
      obtain ⟨hrest, hm⟩ := ih hp fun e he => hds e (.tail _ he)
      exact ⟨.on hnext' (hlink ▸ hnone) hrest, hm⟩
  | dangling hnext hsome _ ih =>
      obtain ⟨hnext', -⟩ := hpart hnext hq (hds _ List.mem_cons_self)
      exact ⟨.dangling hnext' (hlink ▸ hsome) (ih (by simp) (hlinks _ _ hsome)).1, nofun⟩
  | through hnext hsome _ _ ih ihrest =>
      obtain ⟨hnext', -⟩ := hpart hnext hq (hds _ List.mem_cons_self)
      obtain ⟨htarget, hm⟩ := ih (by simp) (hlinks _ _ hsome)
      obtain ⟨hrest, hx⟩ := ihrest (hm _ rfl) fun e he => hds e (.tail _ he)
      exact ⟨.through hnext' (hlink ▸ hsome) htarget hrest, hx⟩

theorem has_of_next (hparent : ∀ a q, t.has (a :: q) → t.has q) (hq : t.has q)
    (h : t.next q d = some p) : t.has p := by
  obtain ⟨-, rfl⟩ | ⟨-, a, rfl⟩ | ⟨a, -, -, hp⟩ := next_eq_some_iff.1 h
  · exact hq
  · exact hparent a p hq
  · exact hp

/-- Where the parents of places are places, a lookup finds places. -/
theorem Finds.has {x : Option (List α)} (h : t.Finds q ds x) (hroot : t.has [])
    (hparent : ∀ a q, t.has (a :: q) → t.has q) (hq : t.has q) : ∀ m, x = some m → t.has m := by
  induction h with
  | nil q => exact fun m hm => Option.some.inj hm ▸ hq
  | absent _ => exact nofun
  | on hnext _ _ ih => exact ih (has_of_next hparent hq hnext)
  | dangling _ _ _ _ => exact nofun
  | through _ _ _ _ ih ihrest => exact ihrest (ih hroot _ rfl)

/-! ## A new link -/

/-- A walk that does not come to the new link is as before. -/
theorem Makes.of_not_mem {u : NameTree α} {l : List α} (h : t.Makes top q ds n made dropped)
    (hother : ∀ p, p ≠ l → u.link p = t.link p) (hl : l ∉ made) :
    u.Makes top q ds n made dropped := by
  induction h with
  | nil q => exact .nil q
  | on hlink _ ih =>
      obtain ⟨hne, hrest⟩ := List.ne_and_not_mem_of_not_mem_cons hl
      exact .on ((hother _ (Ne.symm hne)).trans hlink) (ih hrest)
  | again hlink _ ih =>
      obtain ⟨hne, hrest⟩ := List.ne_and_not_mem_of_not_mem_cons hl
      exact .again ((hother _ (Ne.symm hne)).trans hlink) (ih hrest)

/-- A walk that comes to the new link starts again with its path. -/
theorem Makes.restart {u : NameTree α} {l : List α} {path : List (PathPart α)}
    (h : t.Makes top q ds n made dropped) (hother : ∀ p, p ≠ l → u.link p = t.link p)
    (hnone : t.link l = none) (hsome : u.link l = some path) (hl : l ∈ made) :
    ∃ before, before ⊆ made ∧ ∀ n' made', (∃ dropped', u.Makes top q ds n' made' dropped') ↔
      ∃ after dropped', made' = before ++ after ∧ u.Makes top [] path n' after dropped' := by
  induction h with
  | nil => cases hl
  | @on q n d ds dropped made hlink _ ih =>
      by_cases hp : make top q d = l
      · refine ⟨[make top q d], by simp, fun n' made' => ?_⟩
        rw [makes_again_iff (hp ▸ hsome)]
        rfl
      · obtain ⟨before, hsub, hiff⟩ := ih ((List.mem_cons.1 hl).resolve_left (Ne.symm hp))
        refine ⟨make top q d :: before, List.cons_subset_cons _ hsub, fun n' made' => ?_⟩
        rw [makes_on_iff ((hother _ hp).trans hlink)]
        constructor
        · intro h
          obtain ⟨made'', dropped', rfl, hrest⟩ := h
          obtain ⟨after, dropped'', rfl, hafter⟩ := (hiff n' made'').1 ⟨dropped', hrest⟩
          exact ⟨after, dropped'', rfl, hafter⟩
        · intro h
          obtain ⟨after, dropped', rfl, hafter⟩ := h
          obtain ⟨dropped'', hrest⟩ := (hiff n' (before ++ after)).2 ⟨after, dropped', rfl, hafter⟩
          exact ⟨before ++ after, dropped'', rfl, hrest⟩
  | @again q n d ds path' dropped made hlink _ ih =>
      have hp : make top q d ≠ l := by
        intro heq
        rw [heq, hnone] at hlink
        cases hlink
      obtain ⟨before, hsub, hiff⟩ := ih ((List.mem_cons.1 hl).resolve_left (Ne.symm hp))
      refine ⟨make top q d :: before, List.cons_subset_cons _ hsub, fun n' made' => ?_⟩
      rw [makes_again_iff ((hother _ hp).trans hlink)]
      constructor
      · intro h
        obtain ⟨made'', dropped', rfl, hrest⟩ := h
        obtain ⟨after, dropped'', rfl, hafter⟩ := (hiff n' made'').1 ⟨dropped', hrest⟩
        exact ⟨after, dropped'', rfl, hafter⟩
      · intro h
        obtain ⟨after, dropped', rfl, hafter⟩ := h
        obtain ⟨dropped'', hrest⟩ := (hiff n' (before ++ after)).2 ⟨after, dropped', rfl, hafter⟩
        exact ⟨before ++ after, dropped'', rfl, hrest⟩

end NameTree

end Vin64.Lib
