import Vin64.Tools.Dll2desc

/-!
# What the descriptions say of an export

No line says that an export is data.
-/

namespace Vin64.Tools

variable {overflow : Int → BitVec 32} {symbols : List DiaSymbol} {exports : List ExportedFunction}
  {d : DiaSymbol} {rva : BitVec 32}

def publics (symbols : List DiaSymbol) : List DiaSymbol :=
  symbols.filter (·.symTag = SymTagPublicSymbol)

/-- Every public symbol has an address of its own. -/
structure Reported (symbols : List DiaSymbol) : Prop where
  rvas : ∀ d ∈ publics symbols, d.relativeVirtualAddress.isSome
  distinct : ((publics symbols).map (·.relativeVirtualAddress)).Nodup

/-- A quarter of the number behind the last `@`, if there is one. -/
def paramCount (name : List UInt8) : Int :=
  (((afterLastAt name).bind decimal).getD 0).tdiv 4

/-- What a line should tell of an export. -/
structure Describes (symbols : List DiaSymbol) (f : ExportedFunction) (l : DescLine) : Prop where
  rva : l.rva = f.rva
  exportName : l.exportName = exportName f
  isData : l.isData = true ↔
    ∃ d ∈ publics symbols, d.relativeVirtualAddress = some f.rva ∧ d.isFunction = false
  paramNum : ∀ d ∈ publics symbols, d.relativeVirtualAddress = some f.rva → d.isFunction = true →
    l.paramNum = paramCount d.name
  unknown : (∀ d ∈ publics symbols, d.relativeVirtualAddress ≠ some f.rva) → l.paramNum = 0

/-- One line for every export that is not forwarded, in order. -/
def DescribesAll (overflow : Int → BitVec 32) (symbols : List DiaSymbol)
    (exports : List ExportedFunction) : Prop :=
  List.Forall₂ (Describes symbols) (exports.filter fun f => !f.forwarded)
    (generateDesc overflow symbols exports)

/-- No described export is data, and the numbers of the functions fit in an `int`. -/
def OnlyFunctions (symbols : List DiaSymbol) (exports : List ExportedFunction) : Prop :=
  ∀ f ∈ exports, f.forwarded = false → ∀ d ∈ publics symbols,
    d.relativeVirtualAddress = some f.rva →
      d.isFunction = true ∧ ∀ n, (afterLastAt d.name).bind decimal = some n → FitsInt n

/-! ## The sorted symbols -/

theorem publicSymbol_eq (h : d.symTag = SymTagPublicSymbol) :
    publicSymbol d =
      some ⟨.Function, d.name, d.relativeVirtualAddress.getD 0xFFFFFFFF#32⟩ := by
  rw [publicSymbol, if_neg (not_not_intro h)]
  split <;> rfl

theorem mem_sorted {s : PdbPublicSymbol} :
    s ∈ sortSymbols (getPublicSymbols symbols) ↔ ∃ d ∈ publics symbols,
      s = ⟨.Function, d.name, d.relativeVirtualAddress.getD 0xFFFFFFFF#32⟩ := by
  rw [sortSymbols, List.mem_mergeSort, getPublicSymbols, List.mem_filterMap]
  constructor
  · rintro ⟨d, hd, hs⟩
    by_cases htag : d.symTag = SymTagPublicSymbol
    · rw [publicSymbol_eq htag] at hs
      exact ⟨d, List.mem_filter.2 ⟨hd, decide_eq_true htag⟩, (Option.some.inj hs).symm⟩
    · rw [publicSymbol, if_pos htag] at hs
      cases hs
  · rintro ⟨d, hd, rfl⟩
    obtain ⟨hd, htag⟩ := List.mem_filter.1 hd
    exact ⟨d, hd, publicSymbol_eq (of_decide_eq_true htag)⟩

theorem pairwise_sorted (symbols : List PdbPublicSymbol) :
    (sortSymbols symbols).Pairwise fun a b => a.rva ≤ b.rva := by
  have htrans : ∀ a b c : PdbPublicSymbol, decide (a.rva ≤ b.rva) = true →
      decide (b.rva ≤ c.rva) = true → decide (a.rva ≤ c.rva) = true := by
    intro a b c hab hbc
    simp only [decide_eq_true_eq, BitVec.le_def] at *
    omega
  have htotal : ∀ a b : PdbPublicSymbol,
      (decide (a.rva ≤ b.rva) || decide (b.rva ≤ a.rva)) = true := by
    intro a b
    simp only [Bool.or_eq_true, decide_eq_true_eq, BitVec.le_def]
    omega
  simpa [sortSymbols] using List.pairwise_mergeSort htrans htotal symbols

/-- The search finds a symbol at the address if there is one. -/
theorem lowerBound_of_mem {sorted : List PdbPublicSymbol}
    (hsorted : sorted.Pairwise fun a b => a.rva ≤ b.rva) {s : PdbPublicSymbol} (hs : s ∈ sorted)
    (hrva : s.rva = rva) : ∃ t ∈ sorted, lowerBound sorted rva = some t ∧ t.rva = rva := by
  induction sorted with
  | nil => cases hs
  | cons t ts ih =>
      obtain ⟨ht, hts⟩ := List.pairwise_cons.1 hsorted
      by_cases hlt : t.rva < rva
      · have hmem : s ∈ ts := by
          rcases List.mem_cons.1 hs with rfl | hs
          · rw [hrva, BitVec.lt_def] at hlt
            omega
          · exact hs
        obtain ⟨u, hu, hfound, hurva⟩ := ih hts hmem
        refine ⟨u, List.mem_cons_of_mem t hu, ?_, hurva⟩
        rw [lowerBound, List.dropWhile_cons_of_pos (by simpa using hlt)]
        exact hfound
      · refine ⟨t, List.mem_cons_self, ?_, ?_⟩
        · rw [lowerBound, List.dropWhile_cons_of_neg (by simpa using hlt)]
          rfl
        · rcases List.mem_cons.1 hs with rfl | hs
          · exact hrva
          · have hle := ht s hs
            rw [hrva, BitVec.le_def] at hle
            rw [BitVec.lt_def] at hlt
            exact BitVec.eq_of_toNat_eq (by omega)

theorem lowerBound_mem {sorted : List PdbPublicSymbol} {s : PdbPublicSymbol}
    (h : lowerBound sorted rva = some s) : s ∈ sorted :=
  (List.dropWhile_suffix _).subset (List.mem_of_mem_head? h)

/-! ## One export -/

theorem Reported.rva_eq (h : Reported symbols) (hd : d ∈ publics symbols) :
    d.relativeVirtualAddress = some (d.relativeVirtualAddress.getD 0xFFFFFFFF#32) := by
  obtain ⟨r, hr⟩ := Option.isSome_iff_exists.1 (h.rvas d hd)
  rw [hr]
  rfl

/-- An address has one public symbol at most. -/
theorem Reported.unique (h : Reported symbols) {d' : DiaSymbol} (hd : d ∈ publics symbols)
    (hd' : d' ∈ publics symbols)
    (heq : d.relativeVirtualAddress = d'.relativeVirtualAddress) : d = d' :=
  List.inj_on_of_nodup_map h.distinct hd hd' heq

theorem classify_of_mem (h : Reported symbols) (hd : d ∈ publics symbols)
    (hrva : d.relativeVirtualAddress = some rva) :
    classify overflow (sortSymbols (getPublicSymbols symbols)) rva =
      (functionParams overflow d.name, false) := by
  have hgetD : d.relativeVirtualAddress.getD 0xFFFFFFFF#32 = rva := by
    rw [hrva]
    rfl
  obtain ⟨t, ht, hfound, htrva⟩ := lowerBound_of_mem (pairwise_sorted (getPublicSymbols symbols))
    (mem_sorted.2 ⟨d, hd, rfl⟩) hgetD
  obtain ⟨d', hd', rfl⟩ := mem_sorted.1 ht
  have hsame : d = d' := by
    refine h.unique hd hd' ?_
    rw [hrva, h.rva_eq hd']
    exact congrArg some htrva.symm
  subst hsame
  rw [classify, hfound]
  exact if_pos hgetD

theorem classify_of_not_mem (h : Reported symbols)
    (hnone : ∀ d ∈ publics symbols, d.relativeVirtualAddress ≠ some rva) :
    classify overflow (sortSymbols (getPublicSymbols symbols)) rva = (0, false) := by
  rw [classify]
  cases hfound : lowerBound (sortSymbols (getPublicSymbols symbols)) rva with
  | none => rfl
  | some s =>
      obtain ⟨d, hd, rfl⟩ := mem_sorted.1 (lowerBound_mem hfound)
      refine if_neg fun hrva => hnone d hd ?_
      rw [h.rva_eq hd]
      exact congrArg some hrva

/-- A quarter of what is stored. -/
theorem functionParams_eq (overflow : Int → BitVec 32) (name : List UInt8) :
    functionParams overflow name =
      ((((afterLastAt name).bind decimal).map (stored overflow)).getD 0).tdiv 4 := by
  rw [functionParams]
  cases afterLastAt name with
  | none => rfl
  | some text => rfl

/-- The kind is never data. -/
theorem classify_snd (h : Reported symbols) (rva : BitVec 32) :
    (classify overflow (sortSymbols (getPublicSymbols symbols)) rva).2 = false := by
  by_cases hmem : ∃ d ∈ publics symbols, d.relativeVirtualAddress = some rva
  · obtain ⟨d, hd, hrva⟩ := hmem
    rw [classify_of_mem h hd hrva]
  · have hnone : ∀ d ∈ publics symbols, d.relativeVirtualAddress ≠ some rva :=
      fun d hd hrva => hmem ⟨d, hd, hrva⟩
    rw [classify_of_not_mem h hnone]

/-- The line of an export. -/
def lineOf (overflow : Int → BitVec 32) (symbols : List DiaSymbol) (f : ExportedFunction) :
    DescLine :=
  let r := classify overflow (sortSymbols (getPublicSymbols symbols)) f.rva
  ⟨f.rva, exportName f, r.1, r.2⟩

theorem generateDesc_eq (overflow : Int → BitVec 32) (symbols : List DiaSymbol)
    (exports : List ExportedFunction) : generateDesc overflow symbols exports =
      (exports.filter fun f => !f.forwarded).map (lineOf overflow symbols) := by
  induction exports with
  | nil => rfl
  | cons f fs ih =>
      rw [generateDesc] at ih ⊢
      cases hf : f.forwarded with
      | true => simpa [hf] using ih
      | false => simpa [hf, lineOf] using ih

theorem describesAll_iff : DescribesAll overflow symbols exports ↔
    ∀ f ∈ exports, f.forwarded = false → Describes symbols f (lineOf overflow symbols f) := by
  rw [DescribesAll, generateDesc_eq, List.forall₂_map_right_iff, List.forall₂_same]
  simp only [List.mem_filter, Bool.not_eq_true', and_imp]

/-- A number that does not fit in an `int` has a quarter. -/
theorem tdiv_ne_zero {n : Int} (h : ¬ FitsInt n) : n.tdiv 4 ≠ 0 := by
  intro hzero
  rw [FitsInt] at h
  have hsplit := Int.tmod_add_mul_tdiv n 4
  have hsmall := Int.tmod_lt_of_pos n (show (0 : Int) < 4 by decide)
  have hlarge : -4 < n.tmod 4 := Int.lt_tmod_of_pos n (by decide)
  omega

/-- Whatever is stored for a number that is too large, every line is right if and only if only
functions are described, and their numbers fit. -/
theorem describesAll_iff_onlyFunctions (symbols : List DiaSymbol) (exports : List ExportedFunction)
    (h : Reported symbols) :
    (∀ overflow, DescribesAll overflow symbols exports) ↔ OnlyFunctions symbols exports := by
  constructor
  · intro hall f hf hnot d hd hrva
    have hline := fun overflow => describesAll_iff.1 (hall overflow) f hf hnot
    have hfun : d.isFunction = true := by
      by_contra hdata
      have hisData := (hline fun _ => 0#32).isData.2 ⟨d, hd, hrva, Bool.eq_false_iff.2 hdata⟩
      rw [lineOf, classify_snd h] at hisData
      cases hisData
    refine ⟨hfun, fun n hn => ?_⟩
    by_contra hfit
    have hcount := (hline fun _ => 0#32).paramNum d hd hrva hfun
    have hstored : stored (fun _ => 0#32) n = 0 := if_neg hfit
    rw [lineOf, classify_of_mem h hd hrva, functionParams_eq, paramCount, hn, Option.map_some,
      hstored] at hcount
    exact tdiv_ne_zero hfit hcount.symm
  · intro honly overflow
    refine describesAll_iff.2 fun f hf hnot =>
      ⟨rfl, rfl, ?_, fun d hd hrva _ => ?_, fun hnone => ?_⟩
    · rw [lineOf, classify_snd h]
      refine ⟨fun hfalse => absurd hfalse Bool.false_ne_true, ?_⟩
      rintro ⟨d, hd, hrva, hdata⟩
      rw [(honly f hf hnot d hd hrva).1] at hdata
      cases hdata
    · have hfits := (honly f hf hnot d hd hrva).2
      rw [lineOf, classify_of_mem h hd hrva, functionParams_eq, paramCount]
      cases hn : (afterLastAt d.name).bind decimal with
      | none => rfl
      | some n =>
          have hstored : stored overflow n = n := if_pos (hfits n hn)
          rw [Option.map_some, hstored]
    · rw [lineOf, classify_of_not_mem h hnone]

/-- The function `f@8`, and an export at its address. -/
theorem describesAll_function : DescribesAll (fun _ => 0#32)
    [⟨10, some 0x1000#32, [0x66, 0x40, 0x38], true⟩] [⟨0x1000#32, none, 1#16, false⟩] := by
  refine (describesAll_iff_onlyFunctions [⟨10, some 0x1000#32, [0x66, 0x40, 0x38], true⟩]
    [⟨0x1000#32, none, 1#16, false⟩] ⟨?_, ?_⟩).2 ?_ _
  · decide
  · decide
  · intro f hf _ d hd _
    cases List.mem_singleton.1 hf
    have hd' : d = ⟨10, some 0x1000#32, [0x66, 0x40, 0x38], true⟩ := by
      simpa [publics, SymTagPublicSymbol] using hd
    subst hd'
    refine ⟨rfl, fun n hn => ?_⟩
    have height : (afterLastAt [0x66, 0x40, 0x38]).bind decimal = some 8 := by decide
    rw [height] at hn
    cases hn
    decide

/-- An exported variable is described as a function. -/
theorem not_describesAll : ¬ ∀ (overflow : Int → BitVec 32) (symbols : List DiaSymbol)
    (exports : List ExportedFunction), Reported symbols →
      DescribesAll overflow symbols exports := by
  intro h
  have hall := h (fun _ => 0#32) [⟨10, some 0x1000#32, [0x76], false⟩]
    [⟨0x1000#32, none, 1#16, false⟩] ⟨by decide, by decide⟩
  have hline := describesAll_iff.1 hall ⟨0x1000#32, none, 1#16, false⟩ List.mem_cons_self rfl
  have hdata := hline.isData.2 ⟨⟨10, some 0x1000#32, [0x76], false⟩, by decide, rfl, rfl⟩
  rw [lineOf, classify_snd ⟨by decide, by decide⟩] at hdata
  cases hdata

end Vin64.Tools
