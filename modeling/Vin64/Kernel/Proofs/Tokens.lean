import Vin64.Kernel.Tokens
import Vin64.Kernel.Proofs.Paths

/-!
# No component is lost between two calls of `parse`

A call delivers the components in order and leaves the path behind the one it stops at, so
the components of the path are those that were delivered and those of the rest.
-/

namespace Vin64.Kernel

variable {σ : Type} {f : σ → List Char → Int × σ} {s : σ} {p : List Char}

/-! ## The first component -/

theorem components_slashes {q : List Char} (hq : ∀ c ∈ q, c = '\\') (r : List Char) :
    components (q ++ r) = components r := by
  induction q with
  | nil => rfl
  | cons c q ih =>
      rw [hq c List.mem_cons_self, List.cons_append, components_slash]
      exact ih fun d hd => hq d (List.mem_cons_of_mem c hd)

/-- A path is at its end or in front of a slash. -/
def AtSlash (r : List Char) : Prop := r = [] ∨ ∃ r', r = '\\' :: r'

/-- A run of characters that ends at a slash -/
theorem components_run {dir r : List Char} (hne : dir ≠ []) (hdir : ∀ c ∈ dir, c ≠ '\\')
    (hr : AtSlash r) : components (dir ++ r) = dir :: components r := by
  have hnone : ∀ c ∈ dir, (c == '\\') = false := fun c hc => by simpa using hdir c hc
  have hsingle : components dir = [dir] := by
    rw [components, List.splitOnP_eq_singleton hnone]
    simp [hne]
  rcases hr with rfl | ⟨r', rfl⟩
  · rw [List.append_nil, hsingle, components_nil]
  · rw [components_append, hsingle, components_slash]
    rfl

/-- What is in front of the first component, and what is behind. -/
structure FirstPart (p slashes dir rest : List Char) : Prop where
  path : p = slashes ++ dir ++ rest
  slashes : ∀ c ∈ slashes, c = '\\'
  ne_nil : dir ≠ []
  dir : ∀ c ∈ dir, c ≠ '\\'
  rest : AtSlash rest

theorem FirstPart.components_prefix {slashes dir rest before : List Char}
    (h : FirstPart p slashes dir rest) (hbefore : AtSlash before) :
    components (slashes ++ dir ++ before) = dir :: components before := by
  rw [List.append_assoc, components_slashes h.slashes, components_run h.ne_nil h.dir hbefore]

theorem FirstPart.components_before {slashes dir rest : List Char}
    (h : FirstPart p slashes dir rest) : components slashes = [] := by
  have hslashes := components_slashes h.slashes []
  rwa [List.append_nil, components_nil] at hslashes

theorem FirstPart.components_eq {slashes dir rest : List Char}
    (h : FirstPart p slashes dir rest) : components p = dir :: components rest := by
  rw [h.path, h.components_prefix h.rest]

/-- The first component is what `parse` skips to and takes. -/
theorem firstPart_skip (hp : components p ≠ []) :
    FirstPart p (p.takeWhile (· == '\\')) ((skip_slash p).takeWhile (· != '\\'))
      (skip_not_slash (skip_slash p)) := by
  have hsplit : p.takeWhile (· == '\\') ++ skip_slash p = p := List.takeWhile_append_dropWhile
  have hrest : (skip_slash p).takeWhile (· != '\\') ++ skip_not_slash (skip_slash p) =
      skip_slash p := List.takeWhile_append_dropWhile
  rcases skip_slash_cases p with hskip | ⟨c, r, hskip, hc⟩
  · exact absurd (skip_slash_eq_nil_iff.1 hskip) hp
  · refine ⟨by rw [List.append_assoc, hrest, hsplit], ?_, ?_, ?_, ?_⟩
    · intro d hd
      simpa using List.mem_takeWhile_imp hd
    · rw [hskip]
      simp [hc]
    · intro d hd
      simpa using List.mem_takeWhile_imp hd
    · cases hleft : skip_not_slash (skip_slash p) with
      | nil => exact .inl rfl
      | cons d r' =>
          have hhead := List.head_dropWhile_not (· != '\\') (l := skip_slash p) (by
            unfold skip_not_slash at hleft
            simp [hleft])
          unfold skip_not_slash at hleft
          simp only [hleft, List.head_cons] at hhead
          exact .inr ⟨r', by simpa using hhead⟩

theorem parse_first (hp : components p ≠ []) :
    ∃ slashes dir rest, FirstPart p slashes dir rest ∧
      ∀ (f : σ → List Char → Int × σ) (s : σ), parse f s p =
        if (f s dir).1 < 0 then ((f s dir).1, (f s dir).2, rest)
        else parse f (f s dir).2 rest := by
  exact ⟨_, _, _, firstPart_skip hp, fun f s => parse_round hp rfl rfl⟩

/-! ## One call -/

theorem PartAt.atSlash {before dir rest : List Char} (h : PartAt p before dir rest)
    (hp : AtSlash p) : AtSlash before := by
  cases before with
  | nil => exact .inl rfl
  | cons c before =>
      rcases hp with rfl | ⟨r, rfl⟩
      · cases h.path
      · have hhead := List.cons.inj h.path
        exact .inr ⟨before, by rw [← hhead.1]⟩

/-- A component of what is behind the first one -/
theorem FirstPart.partAt {slashes first left before dir rest : List Char}
    (h : FirstPart p slashes first left) (hpart : PartAt left before dir rest) :
    PartAt p (slashes ++ first ++ before) dir rest where
  path := by rw [h.path, hpart.path]; simp only [List.append_assoc]
  parts := by
    rw [h.components_eq, hpart.parts, h.components_prefix (hpart.atSlash h.rest),
      List.cons_append]

/-- Each component lies at a place of the path. -/
theorem exists_partAt {dirs : List (List Char)} {dir : List Char} {dirs' : List (List Char)}
    (h : components p = dirs ++ dir :: dirs') :
    ∃ before rest, PartAt p before dir rest ∧ components before = dirs := by
  induction dirs generalizing p with
  | nil =>
      have hfirst := firstPart_skip (p := p) (by rw [h]; simp)
      have hparts := hfirst.components_eq
      have hdir := List.cons.inj (h.symm.trans hparts)
      have hnone := hfirst.components_before
      refine ⟨_, skip_not_slash (skip_slash p), ⟨?_, ?_⟩, hnone⟩
      · rw [hdir.1]
        exact hfirst.path
      · rw [hnone, hparts, hdir.1, List.nil_append]
  | cons d dirs ih =>
      have hfirst := firstPart_skip (p := p) (by rw [h]; simp)
      have hparts := List.cons.inj (h.symm.trans hfirst.components_eq)
      obtain ⟨before, rest, hpart, hbefore⟩ := ih hparts.2.symm
      refine ⟨_, rest, hfirst.partAt hpart, ?_⟩
      rw [hfirst.components_prefix (hpart.atSlash hfirst.rest), hbefore, hparts.1]

theorem parse_delivers (f : σ → List Char → Int × σ) (s : σ) (p : List Char) :
    Delivers f s p (parse f s p) := by
  induction hn : (components p).length generalizing s p with
  | zero =>
      have hnil : components p = [] := List.eq_nil_of_length_eq_zero hn
      have hall := @Delivers.all σ f s p (by rw [hnil]; trivial)
      rw [hnil] at hall
      rw [parse_nil hnil]
      exact hall
  | succ n ih =>
      obtain ⟨slashes, dir, rest, hfirst, hparse⟩ :=
        @parse_first σ p (by intro h; rw [h] at hn; cases hn)
      have hparts := hfirst.components_eq
      rw [hparse f s]
      split
      · rename_i hneg
        have hnone := hfirst.components_before
        have hpart : PartAt p slashes dir rest :=
          ⟨hfirst.path, by rw [hparts, hnone, List.nil_append]⟩
        have hstops := @Delivers.stops σ f s p slashes dir rest hpart
        rw [hnone] at hstops
        exact hstops trivial hneg
      · rename_i hpos
        have hrest := ih (f s dir).2 rest (by rw [hparts] at hn; simpa using hn)
        generalize parse f (f s dir).2 rest = result at hrest ⊢
        cases hrest with
        | all haccepts =>
            have hall := @Delivers.all σ f s p (by
              rw [hparts]
              exact ⟨by omega, haccepts⟩)
            rw [hparts] at hall
            exact hall
        | stops hpart haccepts hneg =>
            have hbefore := hfirst.components_prefix (hpart.atSlash hfirst.rest)
            have hstops := @Delivers.stops σ f s p _ _ _ (hfirst.partAt hpart)
            rw [hbefore] at hstops
            exact hstops ⟨by omega, haccepts⟩ hneg

/-! ## All calls -/

theorem afterParts_append (s : σ) (dirs dirs' : List (List Char)) :
    afterParts f s (dirs ++ dirs') = afterParts f (afterParts f s dirs) dirs' :=
  List.foldl_append

/-- The components after a call are those of the path behind the ones it delivered. -/
theorem Delivers.after {lr : Int} {t : σ} {rest : List Char} (h : Delivers f s p (lr, t, rest)) :
    (0 ≤ lr → t = afterParts f s (components p)) ∧
      (lr < 0 → (components rest).length < (components p).length ∧
        afterParts f t (components rest) = afterParts f s (components p)) := by
  cases h with
  | all _ => exact ⟨fun _ => rfl, fun hneg => absurd hneg (by decide)⟩
  | stops hpart _ hneg =>
      refine ⟨fun hpos => absurd hneg (by omega), fun _ => ⟨?_, ?_⟩⟩
      · rw [hpart.parts, List.length_append, List.length_cons]
        omega
      · rw [hpart.parts, afterParts_append]
        rfl

theorem delivers_of_parse {r : Int × σ × List Char} (h : parse f s p = r) : Delivers f s p r := by
  rw [← h]
  exact parse_delivers f s p

theorem exists_resumes (f : σ → List Char → Int × σ) (s : σ) (p : List Char) :
    ∃ codes t, Resumes f s p codes t := by
  induction hn : (components p).length using Nat.strong_induction_on generalizing s p with
  | _ n ih =>
      obtain ⟨lr, t, rest, hparse⟩ : ∃ lr t rest, parse f s p = (lr, t, rest) := ⟨_, _, _, rfl⟩
      by_cases hneg : lr < 0
      · have hafter := (hparse ▸ parse_delivers f s p).after.2 hneg
        obtain ⟨codes, u, hrest⟩ := ih _ (hn ▸ hafter.1) t rest rfl
        exact ⟨_, _, .again hparse hneg hrest⟩
      · exact ⟨_, _, .last hparse (by omega)⟩

theorem Resumes.after {codes : List Int} {t : σ} (h : Resumes f s p codes t) :
    t = afterParts f s (components p) := by
  induction h with
  | last hparse hpos => exact (delivers_of_parse hparse).after.1 hpos
  | again hparse hneg _ ih => rw [ih, ((delivers_of_parse hparse).after.2 hneg).2]

/-- Each call of `parse` delivers components in order up to the one that it stops at, and all
calls together deliver each component of the path once. -/
theorem parse_resumes (f : σ → List Char → Int × σ) (s : σ) (p : List Char) :
    (∀ t left, Delivers f t left (parse f t left)) ∧
      (∃ codes t, Resumes f s p codes t) ∧
      ∀ codes t, Resumes f s p codes t → t = afterParts f s (components p) :=
  ⟨parse_delivers f, exists_resumes f s p, fun _ _ h => h.after⟩

end Vin64.Kernel
