import Vin64.Kernel.Names

/-!
# Calls of `parse` that resume each other

`parse` stops behind a component that `onPathPart` answers with a negative code, and the caller
may call it again with the path that is left.  The calls of `onPathPart` show in its state,
which is any state at all.
-/

namespace Vin64.Kernel

variable {σ : Type} (onPathPart : σ → List Char → Int × σ)

/-- The state after one call of `onPathPart` for each of `dirs` -/
def afterParts (s : σ) (dirs : List (List Char)) : σ :=
  dirs.foldl (fun s dir => (onPathPart s dir).2) s

/-- None of the calls of `onPathPart` has a negative answer. -/
def Accepts (s : σ) : List (List Char) → Prop
  | [] => True
  | dir :: dirs => 0 ≤ (onPathPart s dir).1 ∧ Accepts (onPathPart s dir).2 dirs

/-- The component `dir` of a path is behind `before` and in front of `rest`. -/
structure PartAt (p before dir rest : List Char) : Prop where
  path : p = before ++ dir ++ rest
  parts : components p = components before ++ dir :: components rest

/-- What one call of `parse` should do: deliver all components, or those up to the first that
gets a negative answer, which is its result then. -/
inductive Delivers (s : σ) (p : List Char) : Int × σ × List Char → Prop
  | all : Accepts onPathPart s (components p) →
      Delivers s p (0, afterParts onPathPart s (components p), [])
  | stops {before dir rest : List Char} : PartAt p before dir rest →
      Accepts onPathPart s (components before) →
      (onPathPart (afterParts onPathPart s (components before)) dir).1 < 0 →
      Delivers s p
        ((onPathPart (afterParts onPathPart s (components before)) dir).1,
          (onPathPart (afterParts onPathPart s (components before)) dir).2, rest)

/-- The caller calls `parse` on what is left after each negative result; `codes` are the
results. -/
inductive Resumes : σ → List Char → List Int → σ → Prop
  | last {s t : σ} {p rest : List Char} {lr : Int} : parse onPathPart s p = (lr, t, rest) →
      0 ≤ lr → Resumes s p [lr] t
  | again {s t u : σ} {p rest : List Char} {lr : Int} {codes : List Int} :
      parse onPathPart s p = (lr, t, rest) → lr < 0 → Resumes t rest codes u →
      Resumes s p (lr :: codes) u

end Vin64.Kernel
