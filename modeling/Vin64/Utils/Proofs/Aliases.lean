import Vin64.Utils.Proofs.Options

/-!
# Aliases

`parse` looks arguments up among the options only.
-/

namespace Vin64.Utils

open Vin64.Lib Vin64.Lib.OptionGrammar

variable {w : Nat} {a : Arguments w} {args : List WStr}

namespace Arguments

/-- The name an alias stands for; other words stay. -/
def resolve (a : Arguments w) (x : WStr) : WStr := (a.walais x).getD x

/-- Every alias names an option, and is none itself. -/
def NamesOptions (a : Arguments w) : Prop :=
  ∀ x n, a.walais x = some n → (a.wfields n).isSome ∧ a.wfields x = none

end Arguments

def ArgVec.resolve (v : ArgVec w) (a : Arguments w) : ArgVec w where
  words := v.words.map a.resolve
  short := by
    rw [List.length_map]
    exact v.short

namespace Arguments

/-- No alias is taken for a value; and if the arguments, read without the aliases, end at one in
the place of an option, they end as well when the aliases are replaced, and up to there the
options that follow have occurred before and have no values. -/
def Unnoticed (a : Arguments w) (args : List WStr) : Prop :=
  ∃ gs e, Reads a.arity args gs e ∧
    (∀ g ∈ gs ++ e.started, ∀ v ∈ g.values, a.walais v = none) ∧
    ∀ x rest, e = .stray x rest → a.walais x ≠ none →
      ∃ gs' e', Reads a.arity ((x :: rest).map a.resolve) gs' e' ∧ e' ≠ .done ∧
        ∀ g ∈ gs' ++ e'.started, g.values = [] ∧ g.name ∈ gs.map (·.name)

theorem resolve_of_none {x : WStr} (h : a.walais x = none) : a.resolve x = x := by
  rw [resolve, h]
  rfl

theorem NamesOptions.option (h : a.NamesOptions) {x : WStr} (hx : (a.arity x).isSome) :
    a.resolve x = x := by
  cases hn : a.walais x with
  | none => exact resolve_of_none hn
  | some n =>
      rw [isSome_arity, (h x n hn).2] at hx
      cases hx

theorem NamesOptions.not_alias (h : a.NamesOptions) (x : WStr) : a.walais (a.resolve x) = none := by
  cases hx : a.walais x with
  | none => rwa [resolve_of_none hx]
  | some n =>
      have hresolve : a.resolve x = n := by rw [resolve, hx]; rfl
      rw [hresolve]
      cases hn : a.walais n with
      | none => rfl
      | some m =>
          have hsome := (h x n hx).1
          rw [(h n m hn).2] at hsome
          cases hsome

/-! ## The tables -/

theorem recordAll_eq (a : Arguments w) (gs : List (OptionGroup WStr)) :
    a.recordAll gs = { a with wfields := (a.recordAll gs).wfields } := by
  induction gs generalizing a with
  | nil => rfl
  | cons g gs ih =>
      have hrecord : a.record g = { a with wfields := (a.record g).wfields } := by
        rw [record]
        split <;> rfl
      rw [recordAll, List.foldl_cons, ← recordAll, ih]
      rw [hrecord]

/-- Groups without values, of options that have occurred, change nothing. -/
theorem recordAll_known {gs gs' : List (OptionGroup WStr)}
    (h : ∀ g ∈ gs', g.values = [] ∧ g.name ∈ gs.map (·.name)) :
    a.recordAll (gs ++ gs') = a.recordAll gs := by
  rw [recordAll_eq a (gs ++ gs'), recordAll_eq a gs]
  congr 1
  funext x
  have hvalues : valuesOf x gs' = [] := by
    refine List.eq_nil_iff_forall_not_mem.2 fun v hv => ?_
    obtain ⟨g, hg, -, hv⟩ := mem_valuesOf.1 hv
    rw [(h g hg).1] at hv
    cases hv
  have hnames : x ∈ (gs ++ gs').map (·.name) ↔ x ∈ gs.map (·.name) := by
    rw [List.map_append, List.mem_append]
    refine ⟨fun hx => hx.elim id fun hx => ?_, .inl⟩
    obtain ⟨g, hg, rfl⟩ := List.mem_map.1 hx
    exact (h g hg).2
  rw [recordAll_wfields, recordAll_wfields, valuesOf_append, hvalues, List.append_nil]
  simp only [hnames]

/-- What a fresh table has recorded tells the values, and which options occurred. -/
theorem Fresh.values_eq (h : a.Fresh) {gs gs' : List (OptionGroup WStr)}
    (heq : a.recordAll gs = a.recordAll gs') {x : WStr} (hx : (a.arity x).isSome) :
    valuesOf x gs = valuesOf x gs' ∧ (x ∈ gs.map (·.name) ↔ x ∈ gs'.map (·.name)) := by
  have hfield := congrArg (fun b => b.wfields x) heq
  rw [isSome_arity] at hx
  obtain ⟨o, ho⟩ := Option.isSome_iff_exists.1 hx
  simp only [h.recordAll, ho, Option.map_some, Option.some.injEq, Opt.mk.injEq] at hfield
  exact ⟨hfield.2.2.2.2, by simpa using hfield.2.2.1⟩

/-! ## Reading the aliases -/

variable {gs : List (OptionGroup WStr)} {e : Ending WStr}

/-- The groups before the ending are the same when the aliases are replaced. -/
theorem NamesOptions.reads (hn : a.NamesOptions) (h : Reads a.arity args gs e)
    (hvs : ∀ g ∈ gs ++ e.started, ∀ v ∈ g.values, a.walais v = none)
    {gs' : List (OptionGroup WStr)} {e' : Ending WStr} (he : Rereads a.arity a.resolve e gs' e') :
    Reads a.arity (args.map a.resolve) (gs ++ gs') e' :=
  h.map (fun _ hx => hn.option hx) (fun g hg v hv => resolve_of_none (hvs g hg v hv)) he

theorem result_of_not_done (h : e ≠ .done) (ac : Nat) : result ac gs e = 0 := by
  cases e with
  | done => exact absurd rfl h
  | stray => rfl
  | short => rfl

theorem parse_of_unnoticed (hn : a.NamesOptions) (hlen : args.length < 2 ^ w)
    (h : a.Unnoticed args) : parseFrom (args.map a.resolve) 0 a = parseFrom args 0 a := by
  obtain ⟨gs, e, hread, hvs, hstray⟩ := h
  have hlen' : (args.map a.resolve).length < 2 ^ w := by rwa [List.length_map]
  rw [parseFrom_eq 0 hread hlen]
  cases e with
  | done =>
      have hread' := hn.reads hread hvs ⟨rfl, rfl⟩
      rw [parseFrom_eq 0 hread' hlen', List.append_nil]
  | short g =>
      have hread' := hn.reads hread hvs ⟨rfl, rfl⟩
      rw [parseFrom_eq 0 hread' hlen', List.append_nil]
  | stray x rest =>
      by_cases hx : a.walais x = none
      · have hplain : Reads a.arity ((x :: rest).map a.resolve) []
            (.stray x (rest.map a.resolve)) := by
          rw [List.map_cons, resolve_of_none hx]
          exact .stray hread.stray_none
        rw [parseFrom_eq 0 (hn.reads hread hvs hplain) hlen', List.append_nil]
        rfl
      · obtain ⟨gs', e', hread', hdone, hknown⟩ := hstray x rest rfl hx
        rw [parseFrom_eq 0 (hn.reads hread hvs hread') hlen', result_of_not_done hdone,
          List.append_assoc, recordAll_known hknown]
        simp [result, Ending.started]

theorem unnoticed_of_parse (hn : a.NamesOptions) (hf : a.Fresh) (hlen : args.length < 2 ^ w)
    (heq : parseFrom (args.map a.resolve) 0 a = parseFrom args 0 a) : a.Unnoticed args := by
  have hlen' : (args.map a.resolve).length < 2 ^ w := by rwa [List.length_map]
  obtain ⟨gs, e, hread⟩ := exists_reads a.arity args
  rw [parseFrom_eq 0 hread hlen] at heq
  have hvs : ∀ g ∈ gs ++ e.started, ∀ v ∈ g.values, a.walais v = none := by
    intro g hg v hv
    obtain ⟨gs', e', hread'⟩ := exists_reads a.arity (args.map a.resolve)
    rw [parseFrom_eq 0 hread' hlen'] at heq
    -- the value is recorded in the other table as well, where no alias is
    have hvalues := (hf.values_eq (congrArg Prod.snd heq) (hread.isSome_name g hg)).1
    have hmem : v ∈ valuesOf g.name (gs ++ e.started) := mem_valuesOf.2 ⟨g, hg, rfl, hv⟩
    rw [← hvalues] at hmem
    obtain ⟨g', hg', -, hv'⟩ := mem_valuesOf.1 hmem
    obtain ⟨u, -, rfl⟩ := List.mem_map.1 (hread'.mem_args hg' hv')
    exact hn.not_alias u
  refine ⟨gs, e, hread, hvs, ?_⟩
  rintro x rest rfl hx
  obtain ⟨gs', e', hread'⟩ := exists_reads a.arity ((x :: rest).map a.resolve)
  rw [parseFrom_eq 0 (hn.reads hread hvs hread') hlen', List.append_assoc] at heq
  rw [show (Ending.stray x rest).started = [] from rfl, List.append_nil] at heq
  have hdone : e' ≠ .done := by
    rintro rfl
    have hzero : (gs ++ gs').length = 0 := by simpa [result] using congrArg Prod.fst heq
    rw [List.length_append] at hzero
    have hgs' : gs' = [] := List.eq_nil_of_length_eq_zero (by omega)
    have hargs := (reads_done_iff.1 hread').1
    rw [hgs'] at hargs
    cases hargs
  refine ⟨gs', e', hread', hdone, fun g hg => ?_⟩
  have htable := hf.values_eq (congrArg Prod.snd heq) (hread'.isSome_name g hg)
  rw [valuesOf_append] at htable
  refine ⟨List.eq_nil_iff_forall_not_mem.2 fun v hv => ?_, htable.2.1 ?_⟩
  · have hnil : valuesOf g.name (gs' ++ e'.started) = [] := List.append_right_eq_self.1 htable.1
    have hmem : v ∈ valuesOf g.name (gs' ++ e'.started) := mem_valuesOf.2 ⟨g, hg, rfl, hv⟩
    rw [hnil] at hmem
    cases hmem
  · rw [List.map_append]
    exact List.mem_append_right _ (List.mem_map_of_mem hg)

theorem parse_resolve (a : Arguments w) (wargs : ArgVec w) (argi : BitVec w) :
    a.parse (wargs.resolve a) argi =
      parseFrom ((wargs.words.drop argi.toNat).map a.resolve) 0 a := by
  rw [parse, ArgVec.resolve, List.map_drop]

/-- Replacing the aliases changes nothing exactly when they go unnoticed. -/
theorem parse_resolve_iff (calls : List (Setup w)) (hn : (after calls).NamesOptions)
    (wargs : ArgVec w) (argi : BitVec w) :
    (after calls).parse wargs argi =
        (after calls).parse (wargs.resolve (after calls)) argi ↔
      (after calls).Unnoticed (wargs.words.drop argi.toNat) := by
  have hlen : (wargs.words.drop argi.toNat).length < 2 ^ w := by
    have hshort := wargs.short
    rw [List.length_drop]
    omega
  rw [parse_resolve, parse]
  exact ⟨fun h => unnoticed_of_parse hn (after_fresh calls) hlen h.symm,
    fun h => (parse_of_unnoticed hn hlen h).symm⟩

def optionName : WStr := ⟨[0x2D#16, 0x6F#16], by decide⟩

def aliasName : WStr := ⟨[0x41#16], by decide⟩

/-- An option without values, and an alias of it. -/
def oneAlias : List (Setup 32) :=
  [.addOption (some optionName) 0 none, .addAlais (some aliasName) (some optionName)]

theorem oneAlias_namesOptions : (after oneAlias).NamesOptions := by
  intro x n h
  have hx : x = aliasName := by
    by_contra hne
    have hnone : (after oneAlias).walais x = none := if_neg hne
    rw [hnone] at h
    cases h
  subst hx
  cases h
  exact ⟨rfl, rfl⟩

def otherName : WStr := ⟨[0x7A#16, 0x7A#16, 0x7A#16], by decide⟩

/-- The option has occurred before its alias, and what follows ends both. -/
theorem parse_resolve_repeated :
    (after oneAlias).parse ⟨[optionName, aliasName, otherName], by decide⟩ 0 =
      (after oneAlias).parse
        (ArgVec.resolve ⟨[optionName, aliasName, otherName], by decide⟩ (after oneAlias)) 0 := by
  have hoption : (after oneAlias).arity optionName = some (some 0) := rfl
  have hgroup : ∀ {rest gs e}, Reads (after oneAlias).arity rest gs e →
      Reads (after oneAlias).arity (optionName :: rest) (⟨optionName, []⟩ :: gs) e := by
    intro rest gs e h
    refine .group (g := ⟨optionName, []⟩) ⟨rfl, by simp, fun n hn => ?_⟩ (fun hn => ?_) h
    · rw [hoption] at hn
      cases hn
      rfl
    · rw [hoption] at hn
      cases hn
  refine (parse_resolve_iff oneAlias oneAlias_namesOptions
    ⟨[optionName, aliasName, otherName], by decide⟩ 0).2 ?_
  refine ⟨[⟨optionName, []⟩], .stray aliasName [otherName], hgroup (.stray rfl), ?_, ?_⟩
  · intro g hg v hv
    cases List.mem_singleton.1 hg
    cases hv
  · rintro x rest h -
    obtain ⟨rfl, rfl⟩ := Ending.stray.inj h
    refine ⟨[⟨optionName, []⟩], .stray otherName [], hgroup (.stray rfl), nofun, fun g hg => ?_⟩
    cases List.mem_singleton.1 hg
    exact ⟨rfl, List.mem_singleton_self _⟩

/-- The alias alone is no option. -/
theorem not_parse_resolve :
    ¬ ∀ (w : Nat) (calls : List (Setup w)), (after calls).NamesOptions →
      ∀ (wargs : ArgVec w) (argi : BitVec w),
        (after calls).parse wargs argi =
          (after calls).parse (wargs.resolve (after calls)) argi := by
  intro h
  have hparse := congrArg Prod.fst
    (h 32 oneAlias oneAlias_namesOptions ⟨[aliasName], by decide⟩ 0)
  have hplain : ((after oneAlias).parse ⟨[aliasName], by decide⟩ 0).1 = 0 := by
    have hnone : (after oneAlias).wfields aliasName = none := rfl
    simp [parse, parseFrom, hnone]
  have hresolved : ((after oneAlias).parse
      (ArgVec.resolve ⟨[aliasName], by decide⟩ (after oneAlias)) 0).1 = 1 := by
    have hname : (after oneAlias).resolve aliasName = optionName := rfl
    have hsome : (after oneAlias).wfields optionName = some (Opt.make 0 none) := rfl
    simp [parse, ArgVec.resolve, hname, parseFrom, hsome, takeValues, Opt.make]
  rw [hplain, hresolved] at hparse
  cases hparse

end Arguments

end Vin64.Utils
