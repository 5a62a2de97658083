import Vin64.Lib.OptionGrammar
import Vin64.Utils.Arguments

/-!
# What `Arguments::parse` reads

The loops read the groups of the arguments, and record each of them.
-/

namespace Vin64.Utils

open Vin64.Lib Vin64.Lib.OptionGrammar

variable {w : Nat} {a : Arguments w} {o : Opt w} {name x : WStr} {args : List WStr}
  {gs : List (OptionGroup WStr)} {e : Ending WStr}

namespace Arguments

/-- How many values an option takes. -/
def arity (a : Arguments w) (x : WStr) : Option (Option Nat) :=
  (a.wfields x).map fun o => if o.maxArgc = BitVec.allOnes w then none else some o.maxArgc.toNat

theorem isSome_arity : (a.arity x).isSome = (a.wfields x).isSome := Option.isSome_map

theorem arity_eq_none : a.arity x = none ↔ a.wfields x = none := Option.map_eq_none_iff

theorem setField_setField (a : Arguments w) (name : WStr) (o o' : Opt w) :
    (a.setField name o).setField name o' = a.setField name o' := by
  rw [setField, setField, setField]
  congr 1
  funext n
  simp only
  split
  · rfl
  · rfl

theorem setField_self (h : a.wfields name = some o) : a.setField name o = a := by
  have hfields : (fun n => if n = name then some o else a.wfields n) = a.wfields := by
    funext n
    split
    · next hn => rw [hn, h]
    · rfl
  rw [setField, hfields]

theorem setField_same (a : Arguments w) (name : WStr) (o : Opt w) :
    (a.setField name o).wfields name = some o := if_pos rfl

theorem setField_isSome (h : a.wfields name = some o) (o' : Opt w) (x : WStr) :
    ((a.setField name o').wfields x).isSome = (a.wfields x).isSome := by
  rw [setField]
  simp only
  split
  · next hx => rw [hx, h]; rfl
  · rfl

/-- The values up to the next option, or up to the limit, are recorded. -/
theorem takeValues_eq (cmax : BitVec w) (vs rest : List WStr) (c : Nat)
    (h : a.wfields name = some o) (hvs : ∀ v ∈ vs, a.wfields v = none)
    (hle : c + vs.length ≤ cmax.toNat)
    (hnext : c + vs.length < cmax.toNat → ∀ x ∈ rest.head?, (a.wfields x).isSome) :
    takeValues name cmax (vs ++ rest) c a =
      (rest, c + vs.length, a.setField name { o with values := o.values ++ vs }) := by
  induction vs generalizing a o c with
  | nil =>
      have hself : a.setField name { o with values := o.values ++ [] } = a := by
        rw [List.append_nil]
        exact setField_self h
      rw [hself, List.nil_append, List.length_nil, Nat.add_zero]
      cases rest with
      | nil => rfl
      | cons x rest =>
          rw [takeValues]
          split
          · next hc => rw [if_pos (hnext hc x rfl)]
          · rfl
  | cons v vs ih =>
      have hv : ¬ (a.wfields v).isSome = true := by
        rw [hvs v List.mem_cons_self]
        exact Bool.false_ne_true
      have hpush : a.pushValue name v = a.setField name { o with values := o.values ++ [v] } := by
        rw [pushValue, h]
      rw [List.length_cons] at hle hnext
      have hplain : ∀ u ∈ vs, ((a.pushValue name v).wfields u) = none := fun u hu => by
        have hu' := setField_isSome h { o with values := o.values ++ [v] } u
        rw [hvs u (List.mem_cons_of_mem v hu)] at hu'
        rw [hpush]
        exact Option.isSome_eq_false_iff.1 hu' |> Option.isNone_iff_eq_none.1
      have hlater : c + 1 + vs.length < cmax.toNat →
          ∀ x ∈ rest.head?, ((a.pushValue name v).wfields x).isSome := fun hc x hx => by
        rw [hpush, setField_isSome h]
        exact hnext (by omega) x hx
      have hsame : (a.pushValue name v).wfields name =
          some { o with values := o.values ++ [v] } := by
        rw [hpush, setField_same]
      rw [List.cons_append, takeValues, if_pos (by omega), if_neg hv,
        ih (c + 1) hsame hplain (by omega) hlater, hpush, setField_setField, List.length_cons]
      simp only [List.append_assoc, List.singleton_append, Nat.add_assoc, Nat.add_comm 1]

/-- The group is recorded under its option. -/
def record (a : Arguments w) (g : OptionGroup WStr) : Arguments w :=
  match a.wfields g.name with
  | none => a
  | some o => a.setField g.name { o with special := true, values := o.values ++ g.values }

def recordAll (a : Arguments w) (gs : List (OptionGroup WStr)) : Arguments w := gs.foldl record a

theorem record_wfields (a : Arguments w) (g : OptionGroup WStr) (x : WStr) :
    (a.record g).wfields x = (a.wfields x).map fun o =>
      { o with
        special := o.special || decide (g.name = x)
        values := o.values ++ valuesOf x [g] } := by
  by_cases hx : g.name = x
  · subst hx
    rw [record]
    cases h : a.wfields g.name with
    | none => simp [h]
    | some o => simp [setField_same, valuesOf]
  · have hsame : (a.record g).wfields x = a.wfields x := by
      rw [record]
      split
      · rfl
      · exact if_neg (Ne.symm hx)
    rw [hsame]
    simp [hx, valuesOf]

theorem recordAll_wfields (a : Arguments w) (gs : List (OptionGroup WStr)) (x : WStr) :
    (a.recordAll gs).wfields x = (a.wfields x).map fun o =>
      { o with
        special := o.special || decide (x ∈ gs.map (·.name))
        values := o.values ++ valuesOf x gs } := by
  induction gs generalizing a with
  | nil => simp [recordAll, valuesOf]
  | cons g gs ih =>
      have hvalues : valuesOf x (g :: gs) = valuesOf x [g] ++ valuesOf x gs :=
        valuesOf_append x [g] gs
      rw [recordAll, List.foldl_cons, ← recordAll, ih, record_wfields, Option.map_map, hvalues]
      congr 1
      funext o
      simp [Bool.or_assoc, eq_comm]

theorem recordAll_arity (a : Arguments w) (gs : List (OptionGroup WStr)) :
    (a.recordAll gs).arity = a.arity := by
  funext x
  rw [arity, recordAll_wfields, Option.map_map]
  rfl

/-- One round of the loop over the values. -/
theorem takeValues_group (g : OptionGroup WStr) (rest : List WStr) (h : a.wfields g.name = some o)
    (hvs : ∀ v ∈ g.values, a.arity v = none) (hle : g.values.length ≤ o.maxArgc.toNat)
    (hnext : g.values.length < o.maxArgc.toNat → ∀ x ∈ rest.head?, (a.arity x).isSome) :
    takeValues g.name o.maxArgc (g.values ++ rest) 0 (a.setSpecial g.name o) =
      (rest, g.values.length, a.record g) := by
  have hisSome : ∀ x, ((a.setSpecial g.name o).wfields x).isSome = (a.wfields x).isSome :=
    setField_isSome h _
  have hplain : ∀ v ∈ g.values, (a.setSpecial g.name o).wfields v = none := fun v hv => by
    have hv' := hisSome v
    rw [arity_eq_none.1 (hvs v hv)] at hv'
    simpa using hv'
  have hnext' : 0 + g.values.length < o.maxArgc.toNat →
      ∀ x ∈ rest.head?, ((a.setSpecial g.name o).wfields x).isSome := fun hlt x hx => by
    rw [hisSome, ← isSome_arity]
    exact hnext (by omega) x hx
  have hfield : (a.setSpecial g.name o).wfields g.name = some { o with special := true } :=
    setField_same a g.name _
  rw [takeValues_eq o.maxArgc g.values rest 0 hfield hplain (by omega) hnext', setSpecial,
    setField_setField, record, h, Nat.zero_add]

theorem record_arity (a : Arguments w) (g : OptionGroup WStr) : (a.record g).arity = a.arity :=
  recordAll_arity a [g]

theorem arity_eq_some {limit : Option Nat} (h : a.arity name = some limit) :
    ∃ o, a.wfields name = some o ∧
      (if o.maxArgc = BitVec.allOnes w then none else some o.maxArgc.toNat) = limit :=
  Option.map_eq_some_iff.1 h

/-- What `parse` returns for the groups it read. -/
def result (ac : Nat) (gs : List (OptionGroup WStr)) : Ending WStr → Nat
  | .done => ac + gs.length
  | _ => 0

/-- All groups are recorded, with the one that is left incomplete. -/
theorem parseFrom_eq (ac : Nat) (h : Reads a.arity args gs e) (hlen : args.length < 2 ^ w) :
    parseFrom args ac a = (result ac gs e, a.recordAll (gs ++ e.started)) := by
  generalize harity : a.arity = f at h
  induction h generalizing a ac with
  | done =>
      rw [parseFrom]
      rfl
  | stray hx =>
      rw [← harity] at hx
      rw [parseFrom, arity_eq_none.1 hx]
      rfl
  | @short name vs rest n ho hvs hshort hnext =>
      subst harity
      obtain ⟨o, hfield, hlimit⟩ := arity_eq_some ho
      split at hlimit
      · cases hlimit
      · next hmax =>
        have hn : o.maxArgc.toNat = n := Option.some.inj hlimit
        have htake := takeValues_group ⟨name, vs⟩ rest hfield hvs
          (by rw [hn]; exact Nat.le_of_lt hshort) (fun _ => hnext)
        simp only at htake
        rw [parseFrom, hfield]
        simp only [htake]
        rw [if_pos ⟨hmax, by omega⟩]
        rfl
  | @group g rest gs e hg hnext h ih =>
      subst harity
      obtain ⟨limit, ho⟩ := Option.isSome_iff_exists.1 hg.option
      obtain ⟨o, hfield, hlimit⟩ := arity_eq_some ho
      rw [OptionGroup.words, List.cons_append, List.length_cons, List.length_append] at hlen
      have hrest := ih (a := a.record g) (ac + 1) (by omega) (record_arity a g)
      have hcount : result (ac + 1) gs e = result ac (g :: gs) e := by
        cases e with
        | done => simp only [result, List.length_cons]; omega
        | stray => rfl
        | short => rfl
      split at hlimit
      · next hmax =>
        have hmaxNat : o.maxArgc.toNat = 2 ^ w - 1 := by rw [hmax, BitVec.toNat_allOnes]
        have htake := takeValues_group g rest hfield hg.plain (by omega)
          (fun _ => hnext (by rw [ho, ← hlimit]))
        rw [OptionGroup.words, List.cons_append, parseFrom, hfield]
        simp only [htake]
        rw [if_neg (fun hne => hne.1 hmax), hrest, hcount]
        rfl
      · have hfull : g.values.length = o.maxArgc.toNat := hg.full _ (by rw [ho, ← hlimit])
        have htake := takeValues_group g rest hfield hg.plain (Nat.le_of_eq hfull)
          (fun hlt => absurd hlt (by omega))
        rw [OptionGroup.words, List.cons_append, parseFrom, hfield]
        simp only [htake]
        rw [if_neg (fun hne => hne.2 hfull), hrest, hcount]
        rfl

/-! ## Fresh tables -/

/-- No option has occurred. -/
def Fresh (a : Arguments w) : Prop :=
  ∀ x o, a.wfields x = some o → o.special = false ∧ o.values = []

theorem Fresh.setField (h : a.Fresh) (name : WStr) (hs : o.special = false)
    (hv : o.values = []) : (a.setField name o).Fresh := by
  intro x o' ho'
  rw [Arguments.setField] at ho'
  simp only at ho'
  split at ho'
  · cases ho'
    exact ⟨hs, hv⟩
  · exact h x o' ho'

theorem Fresh.setup (h : a.Fresh) (call : Setup w) : (a.setup call).Fresh := by
  cases call with
  | addAlais alais name =>
      rw [Arguments.setup, addAlais.eq_def]
      split
      · split <;> exact h
      · exact h
  | addOption name maxOpt desc =>
      rw [Arguments.setup, addOption.eq_def]
      split
      · split
        · exact h
        · exact h.setField _ rfl rfl
      · exact h
  | addDesc name desc =>
      rw [Arguments.setup, addDesc.eq_def]
      split
      · split
        · exact h
        · split
          · exact h
          · next o ho => exact h.setField _ (h _ o ho).1 (h _ o ho).2
      · exact h
  | setFoot desc => exact h

theorem after_fresh (calls : List (Setup w)) : (after calls).Fresh := by
  have hfold : ∀ a : Arguments w, a.Fresh → (calls.foldl Arguments.setup a).Fresh := by
    induction calls with
    | nil => exact fun a h => h
    | cons call calls ih => exact fun a h => ih _ (h.setup call)
  exact hfold ctor fun x o h => by cases h

theorem Fresh.recordAll (h : a.Fresh) (gs : List (OptionGroup WStr)) (x : WStr) :
    (a.recordAll gs).wfields x = (a.wfields x).map fun o =>
      { o with special := decide (x ∈ gs.map (·.name)), values := valuesOf x gs } := by
  rw [recordAll_wfields]
  cases hx : a.wfields x with
  | none => rfl
  | some o => simp [(h x o hx).1, (h x o hx).2]

/-- `parse` returns the number of groups that the arguments are made of, and 0 when they are not;
it records the values of the groups, in order, and `getOption` finds the options that occurred. -/
theorem parse_groups (calls : List (Setup w)) (wargs : ArgVec w) (argi : BitVec w) :
    (∀ k > 0, ((after calls).parse wargs argi).1 = k ↔
      ∃ gs : List (OptionGroup WStr), gs.length = k ∧
        wargs.words.drop argi.toNat = gs.flatMap OptionGroup.words ∧
        ∀ g ∈ gs, Complete (after calls).arity g) ∧
    ∀ gs : List (OptionGroup WStr),
      wargs.words.drop argi.toNat = gs.flatMap OptionGroup.words →
      (∀ g ∈ gs, Complete (after calls).arity g) → ∀ name,
        ((after calls).parse wargs argi).2.wfields name = ((after calls).wfields name).map (fun o =>
          { o with special := decide (name ∈ gs.map (·.name)), values := valuesOf name gs }) ∧
        ((after calls).parse wargs argi).2.getOption name =
          (if name ∈ gs.map (·.name) then ((after calls).parse wargs argi).2.wfields name
            else none) ∧
        ((((after calls).parse wargs argi).2.getOption name).isSome ↔
          name ∈ gs.map (·.name)) := by
  have hlen : (wargs.words.drop argi.toNat).length < 2 ^ w := by
    have hshort := wargs.short
    rw [List.length_drop]
    omega
  have hread : ∀ {gs e}, Reads (after calls).arity (wargs.words.drop argi.toNat) gs e →
      (after calls).parse wargs argi =
        (result 0 gs e, (after calls).recordAll (gs ++ e.started)) :=
    fun h => parseFrom_eq 0 h hlen
  refine ⟨fun k hk => ⟨fun hparse => ?_, ?_⟩, fun gs hargs hgs name => ?_⟩
  · obtain ⟨gs, e, h⟩ := exists_reads (after calls).arity
      (wargs.words.drop argi.toNat)
    rw [hread h] at hparse
    cases e with
    | done =>
        have hgs := reads_done_iff.1 h
        exact ⟨gs, by simpa [result] using hparse, hgs.1, hgs.2⟩
    | stray => exact absurd hparse (by simp only [result]; omega)
    | short => exact absurd hparse (by simp only [result]; omega)
  · rintro ⟨gs, rfl, hargs, hgs⟩
    rw [hread (reads_done_iff.2 ⟨hargs, hgs⟩), result, Nat.zero_add]
  · have hfield := (after_fresh calls).recordAll gs name
    have hparse := hread (reads_done_iff.2 ⟨hargs, hgs⟩)
    rw [show (Ending.done : Ending WStr).started = [] from rfl, List.append_nil] at hparse
    rw [hparse]
    have hget : ((after calls).recordAll gs).getOption name =
        if name ∈ gs.map (·.name) then ((after calls).recordAll gs).wfields name else none := by
      rw [getOption, hfield]
      cases (after calls).wfields name with
      | none => simp
      | some o =>
          by_cases hname : name ∈ gs.map (·.name)
          · simp only [hname, decide_true]
            rfl
          · simp only [hname, decide_false]
            rfl
    refine ⟨hfield, hget, ?_⟩
    rw [hget]
    split
    · next hname =>
      obtain ⟨g, hg, hgname⟩ := List.mem_map.1 hname
      have hsome := (hgs g hg).option
      rw [hgname, isSome_arity] at hsome
      rw [hfield, Option.isSome_map]
      exact ⟨fun _ => hname, fun _ => hsome⟩
    · next hname => exact ⟨fun h => absurd h Bool.false_ne_true, fun h => absurd h hname⟩

end Arguments

end Vin64.Utils
