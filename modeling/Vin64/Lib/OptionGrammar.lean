import Mathlib.Data.List.Basic

/-!
# Words read as options with values

Words are read in groups, an option and its values.  An option takes a fixed number of values, or
all words up to the next option.
-/

namespace Vin64.Lib

/-- An option and its values. -/
structure OptionGroup (α : Type) where
  name : α
  values : List α

def OptionGroup.words {α : Type} (g : OptionGroup α) : List α := g.name :: g.values

namespace OptionGrammar

variable {α : Type} (arity : α → Option (Option Nat))

/-- The values of a group are no options, and as many as the option takes.  The values of an
option that takes any number end where the next group begins. -/
structure Complete (g : OptionGroup α) : Prop where
  option : (arity g.name).isSome
  plain : ∀ v ∈ g.values, arity v = none
  full : ∀ n, arity g.name = some (some n) → g.values.length = n

/-- Why there are no more groups: there are no more words, a word is no option, or an option has
too few values. -/
inductive Ending (α : Type) where
  | done
  | stray (x : α) (rest : List α)
  | short (g : OptionGroup α)

/-- The group that is left incomplete. -/
def Ending.started : Ending α → List (OptionGroup α)
  | .short g => [g]
  | _ => []

/-- The groups at the front of a list of words, and why they end. -/
inductive Reads : List α → List (OptionGroup α) → Ending α → Prop where
  | done : Reads [] [] .done
  | stray {x : α} {rest : List α} (h : arity x = none) : Reads (x :: rest) [] (.stray x rest)
  | short {o : α} {vs rest : List α} {n : Nat} (ho : arity o = some (some n))
      (hvs : ∀ v ∈ vs, arity v = none) (hlen : vs.length < n)
      (hnext : ∀ x ∈ rest.head?, (arity x).isSome) : Reads (o :: (vs ++ rest)) [] (.short ⟨o, vs⟩)
  | group {g : OptionGroup α} {rest : List α} {gs : List (OptionGroup α)} {e : Ending α}
      (hg : Complete arity g)
      (hnext : arity g.name = some none → ∀ x ∈ rest.head?, (arity x).isSome)
      (h : Reads rest gs e) : Reads (g.words ++ rest) (g :: gs) e

variable {args : List α} {gs : List (OptionGroup α)} {e : Ending α}

/-- Words are values up to the next option. -/
theorem exists_run (args : List α) : ∃ vs rest, args = vs ++ rest ∧ (∀ v ∈ vs, arity v = none) ∧
    ∀ x ∈ rest.head?, (arity x).isSome := by
  induction args with
  | nil => exact ⟨[], [], rfl, by simp, by simp⟩
  | cons x xs ih =>
      cases hx : arity x with
      | none =>
          obtain ⟨vs, rest, hxs, hvs, hrest⟩ := ih
          refine ⟨x :: vs, rest, by rw [hxs, List.cons_append], ?_, hrest⟩
          simpa [hx] using hvs
      | some n => exact ⟨[], x :: xs, rfl, by simp, by simp [hx]⟩

/-- Every list of words is read in some way. -/
theorem exists_reads (args : List α) : ∃ gs e, Reads arity args gs e := by
  induction hlen : args.length using Nat.strongRecOn generalizing args with
  | ind len ih =>
    cases args with
    | nil => exact ⟨[], .done, .done⟩
    | cons o rest =>
        obtain ⟨vs, tail, rfl, hvs, htail⟩ := exists_run arity rest
        rw [List.length_cons, List.length_append] at hlen
        cases ho : arity o with
        | none => exact ⟨[], _, .stray ho⟩
        | some limit =>
            cases limit with
            | none =>
                obtain ⟨gs, e, hreads⟩ := ih tail.length (by omega) tail rfl
                refine ⟨⟨o, vs⟩ :: gs, e, .group (g := ⟨o, vs⟩) ⟨by simp [ho], hvs, ?_⟩
                  (fun _ => htail) hreads⟩
                intro n hn
                rw [ho] at hn
                cases hn
            | some n =>
                by_cases hn : vs.length < n
                · exact ⟨[], _, .short ho hvs hn htail⟩
                · -- the values beyond the n-th are read as options
                  obtain ⟨gs, e, hreads⟩ := ih (vs.drop n ++ tail).length
                    (by rw [List.length_append, List.length_drop]; omega) _ rfl
                  have hsplit : o :: (vs ++ tail) =
                      (OptionGroup.mk o (vs.take n)).words ++ (vs.drop n ++ tail) := by
                    rw [OptionGroup.words, List.cons_append, ← List.append_assoc,
                      List.take_append_drop]
                  rw [hsplit]
                  refine ⟨⟨o, vs.take n⟩ :: gs, e, .group ⟨by simp [ho],
                    fun v hv => hvs v (List.mem_of_mem_take hv), ?_⟩ ?_ hreads⟩
                  · intro m hm
                    have hmn : n = m := by
                      rw [ho] at hm
                      cases hm
                      rfl
                    rw [List.length_take]
                    omega
                  · intro hm
                    rw [ho] at hm
                    cases hm

variable {arity}

/-- The words are the groups, one after the other, if nothing is left. -/
theorem reads_done_iff : Reads arity args gs .done ↔
    args = gs.flatMap OptionGroup.words ∧ ∀ g ∈ gs, Complete arity g := by
  constructor
  · intro h
    generalize he : Ending.done = e at h
    induction h with
    | done => exact ⟨rfl, by simp⟩
    | stray | short => cases he
    | group hg hnext h ih =>
        obtain ⟨hargs, hgs⟩ := ih he
        refine ⟨by rw [List.flatMap_cons, ← hargs], ?_⟩
        simpa using And.intro hg hgs
  · rintro ⟨rfl, hgs⟩
    induction gs with
    | nil => exact .done
    | cons g gs ih =>
        refine .group (hgs g List.mem_cons_self) (fun _ x hx => ?_)
          (ih fun g' hg' => hgs g' (List.mem_cons_of_mem g hg'))
        -- the next group begins with an option
        cases gs with
        | nil => cases hx
        | cons g' gs =>
            cases hx
            exact (hgs g' (by simp)).option

/-- Every group begins with an option, and its values are among the words. -/
theorem Reads.isSome_name (h : Reads arity args gs e) :
    ∀ g ∈ gs ++ e.started, (arity g.name).isSome := by
  induction h with
  | done | stray => simp [Ending.started]
  | short ho => simp [Ending.started, ho]
  | group hg hnext h ih => simpa using And.intro hg.option ih

theorem Reads.mem_args (h : Reads arity args gs e) {g : OptionGroup α} (hg : g ∈ gs ++ e.started)
    {v : α} (hv : v ∈ g.values) : v ∈ args := by
  induction h with
  | done | stray => cases hg
  | short ho hvs hlen hnext =>
      rw [List.nil_append, Ending.started, List.mem_singleton] at hg
      subst hg
      exact List.mem_cons_of_mem _ (List.mem_append_left _ hv)
  | @group g' rest gs e hg' hnext h ih =>
      rw [List.cons_append] at hg
      rcases List.mem_cons.1 hg with rfl | hg
      · exact List.mem_append_left _ (List.mem_cons_of_mem _ hv)
      · exact List.mem_append_right _ (ih hg)

theorem Reads.stray_none {x : α} {rest : List α} (h : Reads arity args gs (.stray x rest)) :
    arity x = none := by
  generalize he : Ending.stray x rest = e at h
  induction h with
  | done | short => cases he
  | stray hx =>
      cases he
      exact hx
  | group hg hnext h ih => exact ih he

/-- How the words behind the groups are read when each `x` of them is replaced by `f x`. -/
def Rereads (arity : α → Option (Option Nat)) (f : α → α) :
    Ending α → List (OptionGroup α) → Ending α → Prop
  | .done, gs, e => gs = [] ∧ e = .done
  | .short g, gs, e => gs = [] ∧ e = .short g
  | .stray x rest, gs, e => Reads arity ((x :: rest).map f) gs e

/-- The groups stay when options and values are not replaced. -/
theorem Reads.map {f : α → α} (hf : ∀ x, (arity x).isSome → f x = x) (h : Reads arity args gs e)
    (hvs : ∀ g ∈ gs ++ e.started, ∀ v ∈ g.values, f v = v) {gs' : List (OptionGroup α)}
    {e' : Ending α} (he : Rereads arity f e gs' e') :
    Reads arity (args.map f) (gs ++ gs') e' := by
  have hhead : ∀ {rest : List α}, (∀ x ∈ rest.head?, (arity x).isSome) →
      ∀ x ∈ (rest.map f).head?, (arity x).isSome := by
    intro rest hrest x hx
    cases rest with
    | nil => cases hx
    | cons y rest =>
        have hy := hrest y rfl
        cases hx
        rwa [hf y hy]
  induction h with
  | done =>
      obtain ⟨rfl, rfl⟩ := he
      exact .done
  | stray => exact he
  | @short o vs rest n ho hplain hlen hnext =>
      obtain ⟨rfl, rfl⟩ := he
      have hmap : (o :: (vs ++ rest)).map f = o :: (vs ++ rest.map f) := by
        rw [List.map_cons, List.map_append, hf o (by simp [ho]),
          List.map_congr_left (hvs ⟨o, vs⟩ (by simp [Ending.started])), List.map_id']
      rw [hmap]
      exact .short ho hplain hlen (hhead hnext)
  | @group g rest gs e hg hnext h ih =>
      have hmap : (g.words ++ rest).map f = g.words ++ rest.map f := by
        rw [List.map_append, OptionGroup.words, List.map_cons, hf g.name hg.option,
          List.map_congr_left (hvs g (by simp)), List.map_id']
      rw [hmap]
      exact .group hg (fun hnone => hhead (hnext hnone))
        (ih (fun g' hg' => hvs g' (List.mem_cons_of_mem g hg')) he)

/-- The values of an option, in order. -/
def valuesOf [DecidableEq α] (x : α) (gs : List (OptionGroup α)) : List α :=
  (gs.filter (·.name = x)).flatMap (·.values)

theorem valuesOf_append [DecidableEq α] (x : α) (gs gs' : List (OptionGroup α)) :
    valuesOf x (gs ++ gs') = valuesOf x gs ++ valuesOf x gs' := by
  rw [valuesOf, List.filter_append, List.flatMap_append]
  rfl

theorem mem_valuesOf [DecidableEq α] {x v : α} {gs : List (OptionGroup α)} :
    v ∈ valuesOf x gs ↔ ∃ g ∈ gs, g.name = x ∧ v ∈ g.values := by
  simp [valuesOf, and_assoc]

end OptionGrammar

end Vin64.Lib
