/-!
# Operations on a state

An operation ends with a value or with an error, in a state of its own, or it faults: it
makes an access that has no meaning.  `wp` is its weakest precondition; an operation that
meets it does not fault.  `wlp` is the liberal one, which lets it fault.
-/

namespace Vin64.Lib

variable {σ τ ε δ α β : Type}

def Op (σ ε α : Type) : Type := σ → Option (Except ε α × σ)

namespace Op

def ret (a : α) : Op σ ε α := fun s => some (.ok a, s)

def andThen (x : Op σ ε α) (f : α → Op σ ε β) : Op σ ε β := fun s =>
  match x s with
  | none => none
  | some (.error e, t) => some (.error e, t)
  | some (.ok a, t) => f a t

instance : Monad (Op σ ε) where
  pure := ret
  bind := andThen

def fail (e : ε) : Op σ ε α := fun s => some (.error e, s)

def fault : Op σ ε α := fun _ => none

def get : Op σ ε σ := fun s => some (.ok s, s)

def modify (f : σ → σ) : Op σ ε Unit := fun s => some (.ok (), f s)

/-- Goes on after an error, as a caller that drops the result does. -/
def ignore (x : Op σ ε Unit) : Op σ ε Unit := fun s =>
  match x s with
  | none => none
  | some (_, t) => some (.ok (), t)

/-- The result of an operation, a value or an error, for a caller that tests it. -/
def attempt (x : Op σ ε α) : Op σ δ (Except ε α) := fun s =>
  match x s with
  | none => none
  | some (r, t) => some (.ok r, t)

/-- The operation in the states that meet a condition; in the others it faults. -/
def assuming (P : σ → Prop) [DecidablePred P] (x : Op σ ε α) : Op σ ε α := fun s =>
  if P s then x s else none

/-- An operation on a part of a state. -/
def zoom (view : τ → σ) (put : σ → τ → τ) (x : Op σ ε α) : Op τ ε α := fun t =>
  match x (view t) with
  | none => none
  | some (r, s) => some (r, put s t)

theorem bind_ok {x : Op σ ε α} {f : α → Op σ ε β} {s t : σ} {a : α}
    (h : x s = some (.ok a, t)) : (x >>= f) s = f a t := by
  show andThen x f s = f a t
  unfold andThen
  rw [h]

theorem bind_error {x : Op σ ε α} {f : α → Op σ ε β} {s t : σ} {e : ε}
    (h : x s = some (.error e, t)) : (x >>= f) s = some (.error e, t) := by
  show andThen x f s = some (.error e, t)
  unfold andThen
  rw [h]

theorem bind_none {x : Op σ ε α} {f : α → Op σ ε β} {s : σ} (h : x s = none) :
    (x >>= f) s = none := by
  show andThen x f s = none
  unfold andThen
  rw [h]

theorem bind_assoc {γ : Type} (x : Op σ ε α) (f : α → Op σ ε β) (g : β → Op σ ε γ) :
    x >>= f >>= g = x >>= fun a => f a >>= g := by
  funext s
  show andThen (andThen x f) g s = andThen x (fun a => andThen (f a) g) s
  unfold andThen
  rcases x s with _ | ⟨_ | _, _⟩ <;> rfl

/-- Two operations that go on in the same way from where they come to. -/
theorem bind_congr {x y : Op σ ε α} {f g : α → Op σ ε β} {s : σ} (h : x s = y s)
    (hf : ∀ a t, x s = some (.ok a, t) → f a t = g a t) : (x >>= f) s = (y >>= g) s := by
  rcases hx : x s with _ | ⟨e | a, t⟩
  · rw [bind_none hx, bind_none (h.symm.trans hx)]
  · rw [bind_error hx, bind_error (h.symm.trans hx)]
  · rw [bind_ok hx, bind_ok (h.symm.trans hx)]
    exact hf a t hx

/-- An operation has one outcome. -/
theorem outcome_unique {x : Op σ ε α} {r r' : Except ε α} {s t u : σ} (h : x s = some (r, t))
    (h' : x s = some (r', u)) : r = r' ∧ t = u :=
  Prod.mk.inj (Option.some.inj (h.symm.trans h'))

/-- An operation whose value is dropped -/
theorem bind_pure_eq {x : Op σ ε α} {b : β} {s t : σ} {r : Except ε β}
    (h : (x >>= fun _ => pure b) s = some (r, t)) :
    ∃ r', x s = some (r', t) ∧ r = r'.map fun _ => b := by
  cases hx : x s with
  | none =>
      rw [bind_none hx] at h
      cases h
  | some v =>
      rcases v with ⟨e | a, u⟩
      · rw [bind_error hx] at h
        obtain ⟨rfl, rfl⟩ := Prod.mk.inj (Option.some.inj h)
        exact ⟨.error e, rfl, rfl⟩
      · rw [bind_ok hx] at h
        obtain ⟨rfl, rfl⟩ := Prod.mk.inj (Option.some.inj h)
        exact ⟨.ok a, rfl, rfl⟩

theorem isSome_bind_pure {x : Op σ ε α} {b : β} {s : σ} :
    ((x >>= fun _ => pure b) s).isSome ↔ (x s).isSome := by
  rcases hx : x s with _ | ⟨e | a, t⟩
  · rw [bind_none hx]
    exact Iff.rfl
  · rw [bind_error hx]
    exact Iff.rfl
  · rw [bind_ok hx]
    exact Iff.rfl

theorem attempt_eq {x : Op σ ε α} {s t : σ} {r : Except ε α} (h : x s = some (r, t)) :
    (attempt x : Op σ δ (Except ε α)) s = some (.ok r, t) := by
  unfold attempt
  rw [h]

theorem attempt_congr {x y : Op σ ε α} {s : σ} (h : x s = y s) :
    (attempt x : Op σ δ (Except ε α)) s = attempt y s := by
  unfold attempt
  rw [h]

theorem attempt_none {x : Op σ ε α} {s : σ} (h : x s = none) :
    (attempt x : Op σ δ (Except ε α)) s = none := by
  unfold attempt
  rw [h]

/-- From `s` the operation ends with a value in `Q` or with an error in `E`. -/
def wp (x : Op σ ε α) (Q : α → σ → Prop) (E : ε → σ → Prop) (s : σ) : Prop :=
  match x s with
  | none => False
  | some (.ok a, t) => Q a t
  | some (.error e, t) => E e t

variable {Q Q' : α → σ → Prop} {E E' : ε → σ → Prop} {s : σ}

@[simp] theorem wp_pure (a : α) : wp (pure a : Op σ ε α) Q E s ↔ Q a s := Iff.rfl

@[simp] theorem wp_fail (e : ε) : wp (fail e : Op σ ε α) Q E s ↔ E e s := Iff.rfl

@[simp] theorem wp_fault : wp (fault : Op σ ε α) Q E s ↔ False := Iff.rfl

@[simp] theorem wp_get {Q : σ → σ → Prop} : wp (get : Op σ ε σ) Q E s ↔ Q s s := Iff.rfl

@[simp] theorem wp_modify (f : σ → σ) {Q : Unit → σ → Prop} :
    wp (modify f : Op σ ε Unit) Q E s ↔ Q () (f s) := Iff.rfl

@[simp] theorem wp_bind (x : Op σ ε β) (f : β → Op σ ε α) :
    wp (x >>= f) Q E s ↔ wp x (fun b t => wp (f b) Q E t) E s := by
  have h : (x >>= f) s = andThen x f s := rfl
  unfold wp
  rw [h]
  unfold andThen
  rcases x s with _ | ⟨_ | _, _⟩ <;> rfl

@[simp] theorem wp_ignore (x : Op σ ε Unit) {Q : Unit → σ → Prop} :
    wp (ignore x) Q E s ↔ wp x Q (fun _ t => Q () t) s := by
  unfold wp ignore
  rcases x s with _ | ⟨_ | _, _⟩ <;> rfl

@[simp] theorem wp_attempt (x : Op σ ε α) {Q : Except ε α → σ → Prop} {E : δ → σ → Prop} :
    wp (attempt x) Q E s ↔ wp x (fun a t => Q (.ok a) t) (fun e t => Q (.error e) t) s := by
  unfold wp attempt
  rcases x s with _ | ⟨_ | _, _⟩ <;> rfl

@[simp] theorem wp_zoom {view : τ → σ} {put : σ → τ → τ} (x : Op σ ε α) {Q : α → τ → Prop}
    {E : ε → τ → Prop} {t : τ} : wp (zoom view put x) Q E t ↔
      wp x (fun a s => Q a (put s t)) (fun e s => E e (put s t)) (view t) := by
  unfold wp zoom
  rcases x (view t) with _ | ⟨_ | _, _⟩ <;> rfl

@[simp] theorem wp_ite (c : Prop) [Decidable c] (x y : Op σ ε α) :
    wp (if c then x else y) Q E s ↔ (c → wp x Q E s) ∧ (¬ c → wp y Q E s) := by
  by_cases h : c <;> simp [h]

theorem wp_mono {x : Op σ ε α} (h : wp x Q E s) (hQ : ∀ a t, Q a t → Q' a t)
    (hE : ∀ e t, E e t → E' e t) : wp x Q' E' s := by
  unfold wp at h ⊢
  rcases hx : x s with _ | ⟨_ | _, _⟩ <;> rw [hx] at h
  · exact h
  · exact hE _ _ h
  · exact hQ _ _ h

theorem wp_congr {x y : Op σ ε α} (h : x s = y s) : wp x Q E s ↔ wp y Q E s := by
  unfold wp
  rw [h]

theorem wp_of_ok {x : Op σ ε α} {a : α} {t : σ} (h : x s = some (.ok a, t)) :
    wp x Q E s ↔ Q a t := by
  unfold wp
  rw [h]

/-- From `s` the operation ends with a value. -/
def Succeeds (x : Op σ ε α) (s : σ) : Prop := ∃ a t, x s = some (.ok a, t)

/-- An operation ends with a value if and only if it succeeds. -/
theorem wp_succeeds {x : Op σ ε α} (h : wp x Q E s) :
    wp x (fun a t => Q a t ∧ Succeeds x s) (fun e t => E e t ∧ ¬ Succeeds x s) s := by
  unfold wp at h ⊢
  rcases hx : x s with _ | ⟨e | a, t⟩ <;> rw [hx] at h
  · exact h
  · refine ⟨h, ?_⟩
    intro ⟨a, u, hok⟩
    rw [hx] at hok
    simp at hok
  · exact ⟨h, a, t, hx⟩

/-- An operation that ends with an error does not succeed. -/
theorem wp_not_succeeds {x : Op σ ε α} (h : wp x Q E s) :
    wp x Q (fun e t => E e t ∧ ¬ Succeeds x s) s :=
  wp_mono (wp_succeeds h) (fun _ _ => And.left) fun _ _ => id

/-- The result of an operation that meets its precondition. -/
theorem wp_result {x : Op σ ε α} (h : wp x Q E s) : ∃ r t, x s = some (r, t) := by
  unfold wp at h
  rcases hx : x s with _ | ⟨r, t⟩
  · rw [hx] at h
    exact h.elim
  · exact ⟨r, t, rfl⟩

/-- An operation that meets no precondition faults. -/
theorem fault_of_not_wp {x : Op σ ε α} (h : ¬ wp x (fun _ _ => True) (fun _ _ => True) s) :
    x s = none := by
  unfold wp at h
  cases hx : x s with
  | none => rfl
  | some v =>
      rw [hx] at h
      rcases v with ⟨_ | _, _⟩ <;> exact absurd trivial h

theorem wp_ok {x : Op σ ε α} {a : α} {t : σ} (h : wp x Q E s) (hx : x s = some (.ok a, t)) :
    Q a t := by
  unfold wp at h
  rwa [hx] at h

theorem wp_error {x : Op σ ε α} {e : ε} {t : σ} (h : wp x Q E s)
    (hx : x s = some (.error e, t)) : E e t := by
  unfold wp at h
  rwa [hx] at h

/-- An operation that can only end with a value ends with one. -/
theorem ok_of_wp {x : Op σ ε α} (h : wp x Q (fun _ _ => False) s) :
    ∃ a t, x s = some (.ok a, t) ∧ Q a t := by
  obtain ⟨r, t, hr⟩ := wp_result h
  cases r with
  | ok a => exact ⟨a, t, hr, wp_ok h hr⟩
  | error e => exact (wp_error h hr).elim

theorem succeeds_of_wp {x : Op σ ε α} (h : wp x Q (fun _ _ => False) s) : Succeeds x s := by
  obtain ⟨a, t, hr, -⟩ := ok_of_wp h
  exact ⟨a, t, hr⟩

/-- An operation that ends in one state only -/
theorem eq_ok_of_wp {x : Op σ ε α} {a : α} {t : σ}
    (h : wp x (fun b u => b = a ∧ u = t) (fun _ _ => False) s) : x s = some (.ok a, t) := by
  obtain ⟨b, u, hr, rfl, rfl⟩ := ok_of_wp h
  exact hr

theorem eq_error_of_wp {x : Op σ ε α} {e : ε} {t : σ}
    (h : wp x (fun _ _ => False) (fun f u => f = e ∧ u = t) s) : x s = some (.error e, t) := by
  obtain ⟨r, u, hr⟩ := wp_result h
  cases r with
  | ok b => exact (wp_ok h hr).elim
  | error f =>
      obtain ⟨rfl, rfl⟩ := wp_error h hr
      exact hr

/-! ## The liberal precondition -/

/-- From `s` the operation faults, or it ends with a value in `Q` or with an error in `E`. -/
def wlp (x : Op σ ε α) (Q : α → σ → Prop) (E : ε → σ → Prop) (s : σ) : Prop :=
  match x s with
  | none => True
  | some (.ok a, t) => Q a t
  | some (.error e, t) => E e t

@[simp] theorem wlp_pure (a : α) : wlp (pure a : Op σ ε α) Q E s ↔ Q a s := Iff.rfl

@[simp] theorem wlp_fail (e : ε) : wlp (fail e : Op σ ε α) Q E s ↔ E e s := Iff.rfl

@[simp] theorem wlp_fault : wlp (fault : Op σ ε α) Q E s := trivial

@[simp] theorem wlp_get {Q : σ → σ → Prop} : wlp (get : Op σ ε σ) Q E s ↔ Q s s := Iff.rfl

@[simp] theorem wlp_modify (f : σ → σ) {Q : Unit → σ → Prop} :
    wlp (modify f : Op σ ε Unit) Q E s ↔ Q () (f s) := Iff.rfl

@[simp] theorem wlp_bind (x : Op σ ε β) (f : β → Op σ ε α) :
    wlp (x >>= f) Q E s ↔ wlp x (fun b t => wlp (f b) Q E t) E s := by
  have h : (x >>= f) s = andThen x f s := rfl
  unfold wlp
  rw [h]
  unfold andThen
  rcases x s with _ | ⟨_ | _, _⟩ <;> rfl

@[simp] theorem wlp_ignore (x : Op σ ε Unit) {Q : Unit → σ → Prop} :
    wlp (ignore x) Q E s ↔ wlp x Q (fun _ t => Q () t) s := by
  unfold wlp ignore
  rcases x s with _ | ⟨_ | _, _⟩ <;> rfl

@[simp] theorem wlp_attempt (x : Op σ ε α) {Q : Except ε α → σ → Prop} {E : δ → σ → Prop} :
    wlp (attempt x) Q E s ↔ wlp x (fun a t => Q (.ok a) t) (fun e t => Q (.error e) t) s := by
  unfold wlp attempt
  rcases x s with _ | ⟨_ | _, _⟩ <;> rfl

@[simp] theorem wlp_assuming {P : σ → Prop} [DecidablePred P] (x : Op σ ε α) :
    wlp (assuming P x) Q E s ↔ (P s → wlp x Q E s) := by
  unfold wlp assuming
  by_cases h : P s <;> simp [h]

@[simp] theorem wlp_zoom {view : τ → σ} {put : σ → τ → τ} (x : Op σ ε α) {Q : α → τ → Prop}
    {E : ε → τ → Prop} {t : τ} : wlp (zoom view put x) Q E t ↔
      wlp x (fun a s => Q a (put s t)) (fun e s => E e (put s t)) (view t) := by
  unfold wlp zoom
  rcases x (view t) with _ | ⟨_ | _, _⟩ <;> rfl

@[simp] theorem wlp_ite (c : Prop) [Decidable c] (x y : Op σ ε α) :
    wlp (if c then x else y) Q E s ↔ (c → wlp x Q E s) ∧ (¬ c → wlp y Q E s) := by
  by_cases h : c <;> simp [h]

@[simp] theorem wlp_true (x : Op σ ε α) : wlp x (fun _ _ => True) (fun _ _ => True) s := by
  unfold wlp
  rcases x s with _ | ⟨_ | _, _⟩ <;> trivial

theorem wlp_mono {x : Op σ ε α} (h : wlp x Q E s) (hQ : ∀ a t, Q a t → Q' a t)
    (hE : ∀ e t, E e t → E' e t) : wlp x Q' E' s := by
  unfold wlp at h ⊢
  rcases hx : x s with _ | ⟨_ | _, _⟩ <;> rw [hx] at h
  · trivial
  · exact hE _ _ h
  · exact hQ _ _ h

theorem wlp_and {x : Op σ ε α} (h : wlp x Q E s) (h' : wlp x Q' E' s) :
    wlp x (fun a t => Q a t ∧ Q' a t) (fun e t => E e t ∧ E' e t) s := by
  unfold wlp at h h' ⊢
  rcases hx : x s with _ | ⟨_ | _, _⟩ <;> rw [hx] at h h'
  · trivial
  · exact ⟨h, h'⟩
  · exact ⟨h, h'⟩

theorem wlp_congr {x y : Op σ ε α} {t : σ} (h : x s = y t) : wlp x Q E s ↔ wlp y Q E t := by
  unfold wlp
  rw [h]

theorem wlp_of_wp {x : Op σ ε α} (h : wp x Q E s) : wlp x Q E s := by
  unfold wp at h
  unfold wlp
  rcases hx : x s with _ | ⟨_ | _, _⟩ <;> rw [hx] at h
  · trivial
  · exact h
  · exact h

theorem isSome_of_wp {x : Op σ ε α} (h : wp x Q E s) : (x s).isSome := by
  obtain ⟨r, t, hr⟩ := wp_result h
  rw [hr]
  rfl

/-- What an operation does if it ends, for one that ends. -/
theorem wp_of_wlp {x : Op σ ε α} (h : wlp x Q E s) (hends : (x s).isSome) : wp x Q E s := by
  unfold wlp at h
  unfold wp
  rcases hx : x s with _ | ⟨_ | _, _⟩ <;> rw [hx] at h hends
  · cases hends
  · exact h
  · exact h

theorem wlp_ok {x : Op σ ε α} {a : α} {t : σ} (h : wlp x Q E s) (hx : x s = some (.ok a, t)) :
    Q a t := by
  unfold wlp at h
  rwa [hx] at h

theorem wlp_error {x : Op σ ε α} {e : ε} {t : σ} (h : wlp x Q E s)
    (hx : x s = some (.error e, t)) : E e t := by
  unfold wlp at h
  rwa [hx] at h

/-- What holds of both ends of an operation holds of the state it leaves. -/
theorem wlp_any {x : Op σ ε α} {P : σ → Prop} {r : Except ε α} {t : σ}
    (h : wlp x (fun _ u => P u) (fun _ u => P u) s) (hx : x s = some (r, t)) : P t := by
  cases r with
  | ok a => exact wlp_ok h hx
  | error e => exact wlp_error h hx

/-- A property of the state that an operation leaves, shown for each of its results. -/
theorem wlp_of_result {x : Op σ ε α} {P : σ → Prop} (h : ∀ r t, x s = some (r, t) → P t) :
    wlp x (fun _ u => P u) (fun _ u => P u) s := by
  unfold wlp
  rcases hx : x s with _ | ⟨_ | _, _⟩
  · trivial
  · exact h _ _ hx
  · exact h _ _ hx

/-! ## Operations that fault more often -/

/-- Where the one operation does not fault, the other does the same. -/
def Refines (x y : Op σ ε α) : Prop := ∀ s r, x s = some r → y s = some r

theorem Refines.refl (x : Op σ ε α) : Refines x x := fun _ _ h => h

theorem refines_assuming (P : σ → Prop) [DecidablePred P] (x : Op σ ε α) :
    Refines (assuming P x) x := by
  intro s r h
  unfold assuming at h
  by_cases hP : P s
  · rwa [if_pos hP] at h
  · rw [if_neg hP] at h
    simp at h

theorem Refines.bind {x y : Op σ ε α} {f g : α → Op σ ε β} (h : Refines x y)
    (hf : ∀ a, Refines (f a) (g a)) : Refines (x >>= f) (y >>= g) := by
  intro s r hr
  cases hx : x s with
  | none =>
      rw [bind_none hx] at hr
      cases hr
  | some v =>
      rcases v with ⟨e | a, t⟩
      · rw [bind_error hx] at hr
        rw [bind_error (h s _ hx), hr]
      · rw [bind_ok hx] at hr
        rw [bind_ok (h s _ hx)]
        exact hf a t r hr

theorem Refines.attempt {x y : Op σ ε α} (h : Refines x y) :
    Refines (attempt x : Op σ δ (Except ε α)) (attempt y) := by
  intro s r hr
  cases hx : x s with
  | none =>
      rw [attempt_none hx] at hr
      cases hr
  | some v =>
      rw [attempt_eq hx] at hr
      rw [attempt_eq (h s v hx), hr]

/-- An operation that does not fault where a finer one ends does what that one does. -/
theorem Refines.eq {x y : Op σ ε α} {r : Except ε α × σ} (h : Refines x y) (hx : (x s).isSome)
    (hy : y s = some r) : x s = some r := by
  obtain ⟨v, hv⟩ := Option.isSome_iff_exists.1 hx
  rw [h s v hv] at hy
  rw [hv, hy]

/-- Where the one operation succeeds, the other does the same. -/
def Covers (x y : Op σ ε α) : Prop :=
  ∀ s, wlp x (fun a t => y s = some (.ok a, t)) (fun _ _ => True) s

theorem Covers.refl (x : Op σ ε α) : Covers x x := by
  intro s
  unfold wlp
  split
  · trivial
  · assumption
  · trivial

theorem Covers.bind {x y : Op σ ε α} {f g : α → Op σ ε β} (h : Covers x y)
    (hf : ∀ a, Covers (f a) (g a)) : Covers (x >>= f) (y >>= g) := by
  intro s
  rw [wlp_bind]
  apply wlp_mono (h s)
  · intro a t ha
    rw [bind_ok ha]
    exact hf a t
  · exact fun _ _ _ => trivial

/-- An operation that faults where `x` fails -/
def strict (x : Op σ ε α) : Op σ ε α := fun s =>
  match x s with
  | some (.ok a, t) => some (.ok a, t)
  | _ => none

theorem refines_strict (x : Op σ ε α) : Refines (strict x) x := by
  intro s r h
  unfold strict at h
  split at h
  · rename_i hx
    rw [hx, h]
  · cases h

theorem covers_strict (x : Op σ ε α) : Covers x (strict x) := by
  intro s
  unfold wlp strict
  split
  · trivial
  · rename_i hx
    rw [hx]
  · trivial

theorem wlp_strict {x : Op σ ε α} (h : wlp x Q (fun _ _ => True) s) : wlp (strict x) Q E s := by
  unfold wlp strict at *
  split
  · trivial
  · rename_i hx
    split at hx
    · rename_i hok
      obtain ⟨ha, rfl⟩ := Prod.mk.inj (Option.some.inj hx)
      obtain rfl := Except.ok.inj ha
      rw [hok] at h
      exact h
    · cases hx
  · rename_i hx
    split at hx
    · cases hx
    · cases hx

/-! ## What an operation keeps -/

/-- Where the operation ends, a property that held before holds. -/
def Preserves (P : σ → Prop) (x : Op σ ε α) : Prop :=
  ∀ s, P s → wlp x (fun _ t => P t) (fun _ t => P t) s

namespace Preserves

variable {P : σ → Prop}

theorem pure (a : α) : Preserves P (Pure.pure a : Op σ ε α) := fun _ hs => hs

theorem fail (e : ε) : Preserves P (Op.fail e : Op σ ε α) := fun _ hs => hs

theorem fault : Preserves P (Op.fault : Op σ ε α) := fun _ _ => trivial

theorem get : Preserves P (Op.get : Op σ ε σ) := fun _ hs => hs

theorem modify {f : σ → σ} (hf : ∀ s, P s → P (f s)) :
    Preserves P (Op.modify f : Op σ ε Unit) := hf

theorem bind {x : Op σ ε α} {f : α → Op σ ε β} (h : Preserves P x)
    (hf : ∀ a, Preserves P (f a)) : Preserves P (x >>= f) := by
  intro s hs
  rw [wlp_bind]
  exact wlp_mono (h s hs) (fun a t ht => hf a t ht) fun _ _ ht => ht

theorem ite {c : Prop} [Decidable c] {x y : Op σ ε α} (hx : Preserves P x)
    (hy : Preserves P y) : Preserves P (if c then x else y) := by
  by_cases hc : c
  · rwa [if_pos hc]
  · rwa [if_neg hc]

theorem ignore {x : Op σ ε Unit} (h : Preserves P x) : Preserves P (Op.ignore x) := by
  intro s hs
  rw [wlp_ignore]
  exact h s hs

theorem attempt {x : Op σ ε α} (h : Preserves P x) :
    Preserves P (Op.attempt x : Op σ δ (Except ε α)) := by
  intro s hs
  rw [wlp_attempt]
  exact h s hs

/-- The state that the operation leaves -/
theorem result {x : Op σ ε α} {s t : σ} {r : Except ε α} (h : Preserves P x) (hs : P s)
    (hx : x s = some (r, t)) : P t :=
  wlp_any (h s hs) hx

end Preserves

end Op

end Vin64.Lib
