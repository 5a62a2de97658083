/-!
# Runs of a system

A system takes one step for each input.  The step is a relation, so that it can fail and
can depend on outcomes the system does not control.
-/

namespace Vin64.Lib

variable {σ ι : Type}

/-- The states reached from `s` on the inputs, the last input first. -/
inductive Run (step : σ → ι → σ → Prop) (s : σ) : List ι → σ → Prop
  | nil : Run step s [] s
  | snoc {is : List ι} {i : ι} {t u : σ} : Run step s is t → step t i u → Run step s (i :: is) u

/-- The steps on inputs that meet a condition on the state before the step. -/
def When (ok : σ → ι → Prop) (step : σ → ι → σ → Prop) : σ → ι → σ → Prop :=
  fun s i t => ok s i ∧ step s i t

/-- What holds at first and is kept by every step holds in every state reached. -/
theorem Run.invariant {step : σ → ι → σ → Prop} {P : σ → Prop} {s t : σ} {is : List ι}
    (h : Run step s is t) (hs : P s) (hstep : ∀ s i t, P s → step s i t → P t) : P t := by
  induction h with
  | nil => exact hs
  | snoc _ hlast ih => exact hstep _ _ _ ih hlast

theorem Run.mono {step step' : σ → ι → σ → Prop} {s t : σ} {is : List ι} (h : Run step s is t)
    (hstep : ∀ s i t, step s i t → step' s i t) : Run step' s is t := by
  induction h with
  | nil => exact .nil
  | snoc _ hlast ih => exact ih.snoc (hstep _ _ _ hlast)

/-- The state after all inputs, the first one first. -/
def runAll (step : σ → ι → Option σ) (s : σ) (is : List ι) : Option σ := is.foldlM step s

theorem run_of_runAll {step : σ → ι → Option σ} {s t u : σ} {is js : List ι}
    (h : Run (fun s i t => step s i = some t) s is t) (hall : runAll step t js = some u) :
    Run (fun s i t => step s i = some t) s (js.reverse ++ is) u := by
  induction js generalizing t is with
  | nil =>
      obtain rfl : t = u := by simpa [runAll] using hall
      exact h
  | cons j js ih =>
      obtain ⟨v, hv, hrest⟩ := Option.bind_eq_some_iff.1 hall
      simpa using ih (h.snoc hv) hrest

/-- A run on inputs whose condition can be tested. -/
theorem run_when_of_runAll {ok : σ → ι → Prop} [∀ s, DecidablePred (ok s)]
    {step : σ → ι → Option σ} {s t : σ} {is : List ι}
    (h : runAll (fun s i => if ok s i then step s i else none) s is = some t) :
    Run (When ok fun s i t => step s i = some t) s is.reverse t := by
  have hrun := run_of_runAll Run.nil h
  rw [List.append_nil] at hrun
  exact hrun.mono fun s i t hstep => Option.ite_none_right_eq_some.1 hstep

end Vin64.Lib
