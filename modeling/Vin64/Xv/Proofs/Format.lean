import Vin64.Xv.Proofs.Fields

/-!
# Where reading leaves the buffer

Reading a value goes wrong exactly where the value holds a string that is not terminated.
`Reads` says how reading a part ends; one lemma for each kind of part puts it together from the
parts behind.
-/

namespace Vin64.Xv

open Vin64.Lib Vin64.Lib.Op Vin64.Utils

variable {x : Header} {bytes : List Byte}

/-! ## Reading a part -/

/-- Reading the part at `i` ends at an address in `Q` or with an error in `E`, whatever was read
before. -/
def Reads (x : Header) (bytes : List Byte) : Part → Nat → (Nat → Prop) → (Stop → Prop) → Prop
  | .value, i, Q, E => ∀ fuel depth s, s.current = i → bytes.length - i < fuel →
    wp (fetch x ⟨bytes, []⟩ fuel depth) (fun _ t => Q t.current) (fun e _ => E e) s
  | .elements n, i, Q, E => ∀ fuel fuel' depth k elements s, s.current = i → k ≤ i →
    bytes.length - i < fuel → bytes.length - i ≤ fuel' →
    wp (fetchElements x ⟨bytes, []⟩ (fetch x ⟨bytes, []⟩ fuel' depth) (k + n) fuel k elements)
      (fun _ t => Q t.current) (fun e _ => E e) s
  | .pairs n, i, Q, E => ∀ fuel fuel' depth k elements s, s.current = i → k ≤ i →
    bytes.length - i < fuel → bytes.length - i ≤ fuel' →
    wp (fetchPairs x ⟨bytes, []⟩ (fetch x ⟨bytes, []⟩ fuel' depth) (k + n) fuel k elements)
      (fun _ t => Q t.current) (fun e _ => E e) s

variable {i h p n : Nat} {vt : Byte} {Q Q' : Nat → Prop} {E E' : Stop → Prop}

theorem Reads.mono {part : Part} (hr : Reads x bytes part i Q E) (hQ : ∀ j, Q j → Q' j)
    (hE : ∀ e, E e → E' e) : Reads x bytes part i Q' E' := by
  cases part with
  | value =>
      intro fuel depth s hs hf
      exact wp_mono (hr fuel depth s hs hf) (fun _ t ht => hQ _ ht) fun e _ he => hE e he
  | elements n | pairs n =>
      intro fuel fuel' depth k elements s hs hk hf hf'
      exact wp_mono (hr fuel fuel' depth k elements s hs hk hf hf') (fun _ t ht => hQ _ ht)
        fun e _ he => hE e he

/-- Reading a value reads its type and goes on as the type says. -/
theorem reads_value (ht : typeAt bytes i = some vt)
    (hr : ∀ fuel depth s, s.current = i + 1 → bytes.length - i ≤ fuel →
      wp (fetchType x ⟨bytes, []⟩ vt fuel (fetch x ⟨bytes, []⟩ fuel depth))
        (fun _ t => Q t.current) (fun e _ => E e) s) : Reads x bytes .value i Q E := by
  intro fuel depth s hs hf
  cases fuel with
  | zero => omega
  | succ fuel =>
      unfold fetch
      rw [wp_bind]
      show wp _ _ _ { s with calls := s.calls + 1, deepest := max s.deepest depth }
      rw [wp_bind]
      refine wp_mono (wp_fetchBytes 1) ?_ ?_
      · intro bs t ⟨hn, hcur⟩
        unfold typeAt at ht
        have hn : numberAt bytes 1 i = some (ofBytes bs) := hs ▸ hn
        rw [hn] at ht
        obtain rfl : BitVec.ofNat 8 (ofBytes bs) = vt := Option.some_inj.1 ht
        exact hr fuel (depth + 1) t (by rw [hcur, ← hs]) (by omega)
      · intro e t ⟨_, hn⟩
        have hn : numberAt bytes 1 i = none := hs ▸ hn
        unfold typeAt at ht
        rw [hn] at ht
        cases ht

theorem reads_end (ht : typeAt bytes i = none) :
    Reads x bytes .value i (fun _ => False) (· = .failed) := by
  intro fuel depth s hs hf
  cases fuel with
  | zero => omega
  | succ fuel =>
      unfold fetch
      rw [wp_bind]
      show wp _ _ _ { s with calls := s.calls + 1, deepest := max s.deepest depth }
      rw [wp_bind]
      refine wp_mono (wp_fetchBytes 1) ?_ ?_
      · intro bs t ⟨hn, _⟩
        have hn : numberAt bytes 1 i = some (ofBytes bs) := hs ▸ hn
        simp [typeAt, hn] at ht
      · intro e t ⟨he, _⟩
        exact he

theorem reads_no_type (ht : typeAt bytes i = some vt) (htyp : x.type vt = none) :
    Reads x bytes .value i (fun _ => False) (· = .failed) := by
  refine reads_value ht fun fuel depth s _ _ => ?_
  unfold fetchType
  rw [htyp]
  exact rfl

/-- Where no count of elements can be read, the reader fails. -/
theorem wp_count_none {α : Type} {f : Nat → ReaderM α} {P : α → Reader → Prop} {s : Reader}
    (hs : s.current = i) (hc : countAt x bytes vt i = none) :
    wp (fetchX ⟨bytes, []⟩ (x.bsiz vt) >>= f) P (fun e _ => e = .failed) s := by
  rw [wp_bind]
  refine wp_mono (wp_fetchX vt) ?_ fun e t he => he.1
  intro n t hn
  rw [hs, hc] at hn
  cases hn

/-- What follows a count starts behind it. -/
theorem wp_count {α : Type} {f : Nat → ReaderM α} {P : α → Reader → Prop}
    {F : Stop → Reader → Prop} {s : Reader} (hs : s.current = i)
    (hc : countAt x bytes vt i = some (n, h)) (hrest : ∀ t, t.current = h → wp (f n) P F t) :
    wp (fetchX ⟨bytes, []⟩ (x.bsiz vt) >>= f) P F s := by
  rw [wp_bind]
  refine wp_mono (wp_fetchX vt) ?_ ?_
  · intro m t hm
    rw [hs, hc] at hm
    obtain ⟨rfl, hcur⟩ : n = m ∧ h = t.current := by simpa using hm
    exact hrest t hcur.symm
  · intro e t ⟨_, hn⟩
    rw [hs, hc] at hn
    cases hn

theorem reads_array_none (ht : typeAt bytes i = some vt) (htyp : x.type vt = some .dArray)
    (hc : countAt x bytes vt (i + 1) = none) :
    Reads x bytes .value i (fun _ => False) (· = .failed) := by
  refine reads_value ht fun fuel depth s hs hf => ?_
  unfold fetchType
  rw [htyp]
  show wp (fetchArray _ _ _ _ _) _ _ _
  exact wp_count_none hs hc

theorem reads_array (ht : typeAt bytes i = some vt) (htyp : x.type vt = some .dArray)
    (hc : countAt x bytes vt (i + 1) = some (n, h)) (hr : Reads x bytes (.elements n) h Q E) :
    Reads x bytes .value i Q E := by
  refine reads_value ht fun fuel depth s hs hf => ?_
  unfold fetchType
  rw [htyp]
  show wp (fetchArray _ _ _ _ _) _ _ _
  apply wp_count hs hc
  intro t hcur
  obtain ⟨hlt, hle⟩ := countAt_bounds hc
  rw [wp_bind]
  have hloop := hr fuel fuel depth 0 [] t hcur (Nat.zero_le h) (by omega) (by omega)
  rw [Nat.zero_add] at hloop
  exact wp_mono hloop (fun _ u hu => hu) fun e u hu => hu

theorem reads_object_none (ht : typeAt bytes i = some vt) (htyp : x.type vt = some .dObject)
    (hc : countAt x bytes vt (i + 1) = none) :
    Reads x bytes .value i (fun _ => False) (· = .failed) := by
  refine reads_value ht fun fuel depth s hs hf => ?_
  unfold fetchType
  rw [htyp]
  show wp (fetchDict _ _ _ _ _) _ _ _
  exact wp_count_none hs hc

theorem reads_object (ht : typeAt bytes i = some vt) (htyp : x.type vt = some .dObject)
    (hc : countAt x bytes vt (i + 1) = some (n, h)) (hr : Reads x bytes (.pairs n) h Q E) :
    Reads x bytes .value i Q E := by
  refine reads_value ht fun fuel depth s hs hf => ?_
  unfold fetchType
  rw [htyp]
  show wp (fetchDict _ _ _ _ _) _ _ _
  apply wp_count hs hc
  intro t hcur
  obtain ⟨hlt, hle⟩ := countAt_bounds hc
  rw [wp_bind]
  have hloop := hr fuel fuel depth 0 [] t hcur (Nat.zero_le h) (by omega) (by omega)
  rw [Nat.zero_add] at hloop
  exact wp_mono hloop (fun _ u hu => hu) fun e u hu => hu

theorem reads_noElement (hQ : Q i) : Reads x bytes (.elements 0) i Q E := by
  intro fuel fuel' depth k elements s hs _ hf _
  cases fuel with
  | zero => omega
  | succ fuel =>
      unfold fetchElements
      rw [Nat.add_zero, if_neg (Nat.lt_irrefl k)]
      show Q s.current
      rw [hs]
      exact hQ

theorem reads_noPair (hQ : Q i) : Reads x bytes (.pairs 0) i Q E := by
  intro fuel fuel' depth k elements s hs _ hf _
  cases fuel with
  | zero => omega
  | succ fuel =>
      unfold fetchPairs
      rw [Nat.add_zero, if_neg (Nat.lt_irrefl k)]
      show Q s.current
      rw [hs]
      exact hQ

theorem reads_element_none (hp : indexEnd bytes 5 i = none) :
    Reads x bytes (.elements (n + 1)) i (fun _ => False) (· = .failed) := by
  intro fuel fuel' depth k elements s hs hk hf hf'
  cases fuel with
  | zero => omega
  | succ fuel =>
      unfold fetchElements
      rw [if_pos (by omega), wp_bind]
      refine wp_mono wp_fetchLeb128 ?_ fun e t he => he.1
      intro v t ⟨hv, _⟩
      rw [hs, hp] at hv
      cases hv

/-- An element is an index and a value. -/
theorem reads_element (hlen : bytes.length < 2 ^ x.target.sizeBits) (hi : i ≤ bytes.length)
    (hp : indexEnd bytes 5 i = some p) (hval : Reads x bytes .value p Q' E)
    (hr : ∀ q, Q' q → p < q ∧ q ≤ bytes.length ∧ Reads x bytes (.elements n) q Q E) :
    Reads x bytes (.elements (n + 1)) i Q E := by
  obtain ⟨-, hple, hlt⟩ := indexEnd_bounds hp hi
  have hlt := hlt (by decide)
  intro fuel fuel' depth k elements s hs hk hf hf'
  cases fuel with
  | zero => omega
  | succ fuel =>
      unfold fetchElements
      rw [if_pos (by omega), wp_bind]
      refine wp_mono wp_fetchLeb128 ?_ ?_
      · intro v t ⟨hv, hne⟩
        rw [hs, hp] at hv
        have hcur : t.current = p := (Option.some_inj.1 hv).symm
        rw [wp_ite]
        refine ⟨fun hz => absurd hz hne, fun _ => ?_⟩
        rw [wp_bind]
        refine wp_mono (hval fuel' depth t hcur (by omega)) ?_ fun e u hu => hu
        intro elmt u hu
        obtain ⟨hpq, hqle, hloop⟩ := hr u.current hu
        have hcount : x.sizeT (k + 1) = k + 1 := sizeT_eq (by omega)
        rw [hcount, show k + (n + 1) = k + 1 + n by omega]
        exact hloop fuel fuel' depth (k + 1) _ u rfl (by omega) (by omega) (by omega)
      · intro e t ⟨_, hv⟩
        rw [hs, hp] at hv
        cases hv

theorem reads_pair_none (hp : keyEnd bytes i = none) :
    Reads x bytes (.pairs (n + 1)) i (fun _ => False) (· = .failed) := by
  intro fuel fuel' depth k elements s hs hk hf hf'
  cases fuel with
  | zero => omega
  | succ fuel =>
      unfold fetchPairs
      rw [if_pos (by omega), wp_bind]
      refine wp_mono wp_fetchKey ?_ fun e t he => he.1
      intro key t ⟨hv, _⟩
      rw [hs, hp] at hv
      cases hv

/-- The key of a pair is a string that ends with the key. -/
theorem terminated_key (hp : keyEnd bytes i = some p) : Terminated bytes 1 (i + 1) := by
  unfold keyEnd at hp
  cases hc : numberAt bytes 1 i with
  | none => simp [hc] at hp
  | some cch =>
      simp only [hc, Option.bind_eq_bind, Option.bind_some] at hp
      split_ifs at hp with hbad
      simp only [not_or, Classical.not_not] at hbad
      obtain ⟨hz, -, hlast⟩ := hbad
      exact ⟨cch - 1, by rw [← hlast]; congr 1; omega⟩

/-- A pair is a key, a value and a name that is allowed. -/
theorem reads_pair (hlen : bytes.length < 2 ^ x.target.sizeBits)
    (hp : keyEnd bytes i = some p) (hval : Reads x bytes .value p Q' E)
    (hr : ∀ q, Q' q → p < q ∧ q ≤ bytes.length ∧
      (NameOk x bytes i → Reads x bytes (.pairs n) q Q E) ∧ (¬ NameOk x bytes i → E .failed)) :
    Reads x bytes (.pairs (n + 1)) i Q E := by
  obtain ⟨hlt, hple⟩ := keyEnd_bounds hp
  intro fuel fuel' depth k elements s hs hk hf hf'
  cases fuel with
  | zero => omega
  | succ fuel =>
      unfold fetchPairs
      rw [if_pos (by omega), wp_bind]
      refine wp_mono wp_fetchKey ?_ ?_
      · intro key t ⟨hv, hkey⟩
        rw [hs, hp] at hv
        have hcur : t.current = p := (Option.some_inj.1 hv).symm
        rw [wp_bind]
        refine wp_mono (hval fuel' depth t hcur (by omega)) ?_ fun e u hu => hu
        intro item u hu
        obtain ⟨hpq, hqle, hloop, hbad⟩ := hr u.current hu
        rw [wp_bind, hkey, hs]
        refine wp_mono (wp_readStr (by decide) (i + 1)) ?_ ?_
        · intro name w ⟨hname, _, hw⟩
          subst hw
          rw [wp_ite]
          refine ⟨fun hlong => hbad ?_, fun hok => ?_⟩
          · rintro ⟨name', hname', hok⟩
            rw [hname] at hname'
            obtain rfl := Option.some_inj.1 hname'
            exact hok hlong
          · have hcount : x.sizeT (k + 1) = k + 1 := sizeT_eq (by omega)
            rw [hcount, show k + (n + 1) = k + 1 + n by omega]
            exact hloop ⟨name, hname, hok⟩ fuel fuel' depth (k + 1) _ w rfl (by omega) (by omega)
              (by omega)
        · intro e w ⟨_, hopen⟩
          exact absurd (terminated_key hp) hopen
      · intro e t ⟨_, hv⟩
        rw [hs, hp] at hv
        cases hv

theorem reads_str (hlen : bytes.length < 2 ^ x.target.sizeBits) {typ : ValueType} {size : Nat}
    (ht : typeAt bytes i = some vt) (htyp : x.type vt = some typ) (hsize : charSize typ = some size) :
    Reads x bytes .value i
      (fun j => ∃ h, stringAt x bytes size vt (i + 1) = some (h, j) ∧ Terminated bytes size h)
      (fun e => (e = .failed ∧ stringAt x bytes size vt (i + 1) = none) ∨
        (e = .fault ∧ ∃ h j, stringAt x bytes size vt (i + 1) = some (h, j) ∧
          ¬ Terminated bytes size h)) := by
  refine reads_value ht fun fuel depth s hs hf => ?_
  have hread : ∀ {α : Type} (f : List (BitVec (8 * size)) → α), size = 1 ∨ size = 2 →
      wp (fetchStr x ⟨bytes, []⟩ size (x.bsiz vt) >>= fun str => pure (f str))
        (fun _ t => ∃ h, stringAt x bytes size vt (i + 1) = some (h, t.current) ∧
          Terminated bytes size h)
        (fun e _ => (e = .failed ∧ stringAt x bytes size vt (i + 1) = none) ∨
          (e = .fault ∧ ∃ h j, stringAt x bytes size vt (i + 1) = some (h, j) ∧
            ¬ Terminated bytes size h)) s := by
    intro α f hcases
    rw [wp_bind, ← hs]
    exact wp_fetchStr hlen hcases (by omega) vt
  unfold fetchType
  rw [htyp]
  cases typ with
  | dLocalStr | dUtf8Str =>
      obtain rfl : 1 = size := Option.some_inj.1 hsize
      exact hread _ (Or.inl rfl)
  | dUniStr =>
      obtain rfl : 2 = size := Option.some_inj.1 hsize
      exact hread _ (Or.inr rfl)
  | dNull | dInt | dReal | dArray | dObject | dBuffer | dUnknown => cases hsize

theorem reads_leaf {typ : ValueType} (ht : typeAt bytes i = some vt)
    (htyp : x.type vt = some typ) (hstr : charSize typ = none) (harr : typ ≠ .dArray)
    (hobj : typ ≠ .dObject) :
    Reads x bytes .value i (fun j => leafEnd x bytes vt (i + 1) = some j)
      (fun e => e = .failed ∧ leafEnd x bytes vt (i + 1) = none) := by
  refine reads_value ht fun fuel depth s hs hf => ?_
  rw [← hs]
  exact wp_leaf htyp hstr harr hobj fuel _

theorem leafEnd_typ {j : Nat} (h : leafEnd x bytes vt i = some j) :
    ∃ typ, x.type vt = some typ ∧ charSize typ = none ∧ typ ≠ .dArray ∧ typ ≠ .dObject := by
  unfold leafEnd at h
  cases htyp : x.type vt with
  | none => simp [htyp] at h
  | some typ => cases typ <;> simp_all [charSize]

/-! ## Complete values and strings that are not terminated -/

theorem le_of_typeAt (ht : typeAt bytes i = some vt) : i + 1 ≤ bytes.length := by
  unfold typeAt at ht
  obtain ⟨n, hn, -⟩ := Option.map_eq_some_iff.1 ht
  exact le_of_numberAt hn

theorem leafEnd_bounds {j : Nat} (h : leafEnd x bytes vt i = some j) (hi : i ≤ bytes.length) :
    i ≤ j ∧ j ≤ bytes.length := by
  obtain ⟨typ, htyp, -⟩ := leafEnd_typ h
  unfold leafEnd at h
  rw [htyp] at h
  cases typ with
  | dNull =>
      obtain rfl : i = j := Option.some_inj.1 h
      exact ⟨Nat.le_refl i, hi⟩
  | dInt =>
      obtain ⟨bsiz, -, hend⟩ := Option.bind_eq_some_iff.1 h
      have := bytesEnd_eq_some.1 hend
      omega
  | dReal =>
      have := bytesEnd_eq_some.1 h
      omega
  | dBuffer =>
      obtain ⟨⟨n, k⟩, hc, hend⟩ := Option.bind_eq_some_iff.1 h
      have hk := countAt_bounds hc
      have := bytesEnd_eq_some.1 hend
      omega
  | dLocalStr | dUtf8Str | dUniStr | dArray | dObject | dUnknown => cases h

theorem stringAt_bounds {size j : Nat} (hs : stringAt x bytes size vt i = some (h, j)) :
    i < j ∧ j ≤ bytes.length := by
  unfold stringAt at hs
  obtain ⟨⟨n, k⟩, hc, hend⟩ := Option.bind_eq_some_iff.1 hs
  have hk := countAt_bounds hc
  simp only at hend
  split_ifs at hend with hbad
  obtain ⟨rfl, rfl⟩ : k = h ∧ k + x.sizeT (size * x.sizeT n) = j := by simpa using hend
  simp only [not_or] at hbad
  omega

theorem Spans.bounds {part : Part} {j : Nat} (hs : Spans x bytes part i j)
    (hi : i ≤ bytes.length) :
    i ≤ j ∧ j ≤ bytes.length ∧ (part = .value → i < j) := by
  induction hs with
  | leaf ht hend =>
      have := leafEnd_bounds hend (le_of_typeAt ht)
      exact ⟨by omega, this.2, fun _ => by omega⟩
  | str ht _ _ hstr _ =>
      have := stringAt_bounds hstr
      exact ⟨by omega, this.2, fun _ => by omega⟩
  | array ht _ hc _ ih =>
      obtain ⟨hlt, hle⟩ := countAt_bounds hc
      obtain ⟨hhj, hj, -⟩ := ih hle
      exact ⟨by omega, hj, fun _ => by omega⟩
  | object ht _ hc _ ih =>
      obtain ⟨hlt, hle⟩ := countAt_bounds hc
      obtain ⟨hhj, hj, -⟩ := ih hle
      exact ⟨by omega, hj, fun _ => by omega⟩
  | noElement => exact ⟨Nat.le_refl _, hi, fun h => nomatch h⟩
  | noPair => exact ⟨Nat.le_refl _, hi, fun h => nomatch h⟩
  | element hp _ _ ihv ihe =>
      obtain ⟨hle, hple, -⟩ := indexEnd_bounds hp hi
      obtain ⟨hpq, hq, -⟩ := ihv hple
      obtain ⟨hqj, hj, -⟩ := ihe hq
      exact ⟨by omega, hj, fun h => nomatch h⟩
  | pair hp _ _ _ ihv ihe =>
      obtain ⟨hle, hple⟩ := keyEnd_bounds hp
      obtain ⟨hpq, hq, -⟩ := ihv hple
      obtain ⟨hqj, hj, -⟩ := ihe hq
      exact ⟨by omega, hj, fun h => nomatch h⟩

/-- Reading a part ends at its end, or fails, or the part holds a string that is not terminated. -/
def Settles (x : Header) (bytes : List Byte) (part : Part) (i : Nat) : Prop :=
  Reads x bytes part i (Spans x bytes part i) fun e => e = .fault → Opens x bytes part i

theorem Settles.of_failed {part : Part}
    (h : Reads x bytes part i (fun _ => False) (· = .failed)) : Settles x bytes part i := by
  apply h.mono
  · exact fun _ hj => hj.elim
  · rintro _ rfl hf
    cases hf

theorem settles_str {typ : ValueType} {size : Nat} (hlen : bytes.length < 2 ^ x.target.sizeBits)
    (ht : typeAt bytes i = some vt) (htyp : x.type vt = some typ)
    (hsize : charSize typ = some size) : Settles x bytes .value i := by
  apply (reads_str hlen ht htyp hsize).mono
  · rintro j ⟨h, hstr, hterm⟩
    exact .str ht htyp hsize hstr hterm
  · rintro e (⟨rfl, -⟩ | ⟨-, h, j, hstr, hopen⟩) hf
    · cases hf
    · exact .str ht htyp hsize hstr hopen

theorem settles_leaf {typ : ValueType} (ht : typeAt bytes i = some vt)
    (htyp : x.type vt = some typ) (hsize : charSize typ = none) (harr : typ ≠ .dArray)
    (hobj : typ ≠ .dObject) : Settles x bytes .value i := by
  apply (reads_leaf ht htyp hsize harr hobj).mono
  · exact fun j => .leaf ht
  · rintro _ ⟨rfl, -⟩ hf
    cases hf

section Parts

variable (ih : ∀ part j, i < j → j ≤ bytes.length → Settles x bytes part j)

include ih

theorem settles_array (ht : typeAt bytes i = some vt) (htyp : x.type vt = some .dArray) :
    Settles x bytes .value i := by
  cases hc : countAt x bytes vt (i + 1) with
  | none => exact .of_failed (reads_array_none ht htyp hc)
  | some nh =>
      obtain ⟨n, h⟩ := nh
      obtain ⟨hlt, hle⟩ := countAt_bounds hc
      have hrest := ih (.elements n) h (by omega) hle
      exact reads_array ht htyp hc (hrest.mono (fun j => .array ht htyp hc)
        fun e he hf => .array ht htyp hc (he hf))

theorem settles_object (ht : typeAt bytes i = some vt) (htyp : x.type vt = some .dObject) :
    Settles x bytes .value i := by
  cases hc : countAt x bytes vt (i + 1) with
  | none => exact .of_failed (reads_object_none ht htyp hc)
  | some nh =>
      obtain ⟨n, h⟩ := nh
      obtain ⟨hlt, hle⟩ := countAt_bounds hc
      have hrest := ih (.pairs n) h (by omega) hle
      exact reads_object ht htyp hc (hrest.mono (fun j => .object ht htyp hc)
        fun e he hf => .object ht htyp hc (he hf))

theorem settles_value (hlen : bytes.length < 2 ^ x.target.sizeBits) : Settles x bytes .value i := by
  cases ht : typeAt bytes i with
  | none => exact .of_failed (reads_end ht)
  | some vt =>
      cases htyp : x.type vt with
      | none => exact .of_failed (reads_no_type ht htyp)
      | some typ =>
          cases hsize : charSize typ with
          | some size => exact settles_str hlen ht htyp hsize
          | none =>
              by_cases harr : typ = .dArray
              · subst harr
                exact settles_array ih ht htyp
              · by_cases hobj : typ = .dObject
                · subst hobj
                  exact settles_object ih ht htyp
                · exact settles_leaf ht htyp hsize harr hobj

theorem settles_elements (hlen : bytes.length < 2 ^ x.target.sizeBits) (hi : i ≤ bytes.length)
    (n : Nat) : Settles x bytes (.elements n) i := by
  cases n with
  | zero => exact reads_noElement .noElement
  | succ n =>
      cases hp : indexEnd bytes 5 i with
      | none => exact .of_failed (reads_element_none hp)
      | some p =>
          obtain ⟨-, hple, hlt⟩ := indexEnd_bounds hp hi
          have hip := hlt (by decide)
          have hval := ih .value p hip hple
          refine reads_element hlen hi hp
            (hval.mono (fun _ hq => hq) fun e he hf => .element hp (he hf)) fun q hq => ?_
          obtain ⟨-, hqle, hval_lt⟩ := hq.bounds hple
          have hpq := hval_lt rfl
          have hrest := ih (.elements n) q (by omega) hqle
          exact ⟨hpq, hqle, hrest.mono (fun j => .element hp hq)
            fun e he hf => .nextElement hp hq (he hf)⟩

theorem settles_pairs (hlen : bytes.length < 2 ^ x.target.sizeBits) (n : Nat) :
    Settles x bytes (.pairs n) i := by
  cases n with
  | zero => exact reads_noPair .noPair
  | succ n =>
      cases hp : keyEnd bytes i with
      | none => exact .of_failed (reads_pair_none hp)
      | some p =>
          obtain ⟨hip, hple⟩ := keyEnd_bounds hp
          have hval := ih .value p hip hple
          refine reads_pair hlen hp
            (hval.mono (fun _ hq => hq) fun e he hf => .pair hp (he hf)) fun q hq => ?_
          obtain ⟨-, hqle, hval_lt⟩ := hq.bounds hple
          have hpq := hval_lt rfl
          have hrest := ih (.pairs n) q (by omega) hqle
          exact ⟨hpq, hqle, fun hname => hrest.mono (fun j => .pair hp hq hname)
            fun e he hf => .nextPair hp hq hname (he hf), fun _ => nofun⟩

end Parts

/-- Every part settles, by induction on what is left of the buffer. -/
theorem reads_part (hlen : bytes.length < 2 ^ x.target.sizeBits) (part : Part) (i : Nat)
    (hi : i ≤ bytes.length) : Settles x bytes part i := by
  induction hm : bytes.length - i using Nat.strongRecOn generalizing part i with
  | ind m ih =>
      have hnext : ∀ part j, i < j → j ≤ bytes.length → Settles x bytes part j :=
        fun part j hlt hle => ih (bytes.length - j) (by omega) part j hle rfl
      cases part with
      | value => exact settles_value hnext hlen
      | elements n => exact settles_elements hnext hlen hi n
      | pairs n => exact settles_pairs hnext hlen n

/-- A complete value is read to its end. -/
theorem Spans.reads (hlen : bytes.length < 2 ^ x.target.sizeBits) {part : Part} {i j : Nat}
    (hs : Spans x bytes part i j) (hi : i ≤ bytes.length) :
    Reads x bytes part i (· = j) (fun _ => False) := by
  induction hs with
  | leaf ht hend =>
      obtain ⟨typ, htyp, hstr, harr, hobj⟩ := leafEnd_typ hend
      refine (reads_leaf ht htyp hstr harr hobj).mono (fun k hk => ?_) fun e he => ?_
      · exact Option.some_inj.1 (hk.symm.trans hend)
      · rw [hend] at he
        cases he.2
  | str ht htyp hsize hstr hterm =>
      refine (reads_str hlen ht htyp hsize).mono ?_ ?_
      · rintro k ⟨h', hk, -⟩
        rw [hstr] at hk
        exact (Prod.mk.inj (Option.some_inj.1 hk)).2.symm
      · rintro e (⟨-, hnone⟩ | ⟨-, h', k, hk, hopen⟩)
        · rw [hstr] at hnone
          cases hnone
        · rw [hstr] at hk
          obtain ⟨rfl, -⟩ := Prod.mk.inj (Option.some_inj.1 hk)
          exact hopen hterm
  | array ht htyp hc _ ih => exact reads_array ht htyp hc (ih (countAt_bounds hc).2)
  | object ht htyp hc _ ih => exact reads_object ht htyp hc (ih (countAt_bounds hc).2)
  | noElement => exact reads_noElement rfl
  | noPair => exact reads_noPair rfl
  | element hp hv _ ihv ihe =>
      obtain ⟨-, hple, -⟩ := indexEnd_bounds hp hi
      obtain ⟨-, hqle, hpq⟩ := hv.bounds hple
      refine reads_element hlen hi hp (ihv hple) fun q hq => ?_
      subst hq
      exact ⟨hpq rfl, hqle, ihe hqle⟩
  | pair hp hv hname _ ihv ihe =>
      obtain ⟨-, hple⟩ := keyEnd_bounds hp
      obtain ⟨-, hqle, hpq⟩ := hv.bounds hple
      refine reads_pair hlen hp (ihv hple) fun q hq => ?_
      subst hq
      exact ⟨hpq rfl, hqle, fun _ => ihe hqle, fun hbad => hbad hname⟩

/-- A string that is not terminated is read beyond the buffer. -/
theorem Opens.reads (hlen : bytes.length < 2 ^ x.target.sizeBits) {part : Part} {i : Nat}
    (ho : Opens x bytes part i) (hi : i ≤ bytes.length) :
    Reads x bytes part i (fun _ => False) (· = .fault) := by
  induction ho with
  | str ht htyp hsize hstr hopen =>
      refine (reads_str hlen ht htyp hsize).mono ?_ ?_
      · rintro k ⟨h', hk, hterm⟩
        rw [hstr] at hk
        obtain ⟨rfl, -⟩ := Prod.mk.inj (Option.some_inj.1 hk)
        exact hopen hterm
      · rintro e (⟨-, hnone⟩ | ⟨he, -⟩)
        · rw [hstr] at hnone
          cases hnone
        · exact he
  | array ht htyp hc _ ih => exact reads_array ht htyp hc (ih (countAt_bounds hc).2)
  | object ht htyp hc _ ih => exact reads_object ht htyp hc (ih (countAt_bounds hc).2)
  | element hp _ ih =>
      obtain ⟨-, hple, -⟩ := indexEnd_bounds hp hi
      exact reads_element hlen hi hp (ih hple) fun q hq => hq.elim
  | nextElement hp hv _ ih =>
      obtain ⟨-, hple, -⟩ := indexEnd_bounds hp hi
      obtain ⟨-, hqle, hpq⟩ := hv.bounds hple
      refine reads_element hlen hi hp ((hv.reads hlen hple).mono (fun _ hq => hq)
        fun _ he => he.elim) fun q hq => ?_
      subst hq
      exact ⟨hpq rfl, hqle, ih hqle⟩
  | pair hp _ ih =>
      obtain ⟨-, hple⟩ := keyEnd_bounds hp
      exact reads_pair hlen hp (ih hple) fun q hq => hq.elim
  | nextPair hp hv hname _ ih =>
      obtain ⟨-, hple⟩ := keyEnd_bounds hp
      obtain ⟨-, hqle, hpq⟩ := hv.bounds hple
      refine reads_pair hlen hp ((hv.reads hlen hple).mono (fun _ hq => hq)
        fun _ he => he.elim) fun q hq => ?_
      subst hq
      exact ⟨hpq rfl, hqle, fun _ => ih hqle, fun hbad => absurd hname hbad⟩

/-- `ValueLoad` reads nothing outside the buffer exactly when it comes to no string that is not
terminated. -/
theorem valueLoad_inside_iff (x : Header) (bytes : List Byte)
    (hlen : bytes.length < 2 ^ x.target.sizeBits) :
    ReadsInside x bytes ↔ ¬ Opens x bytes .value 0 := by
  constructor
  · intro hread ho
    have hne : bytes.length ≠ 0 := by
      intro hz
      have hnone : typeAt bytes 0 = none := by
        unfold typeAt numberAt
        rw [if_neg (by omega)]
        rfl
      cases ho with
      | str ht | array ht | object ht =>
          rw [hnone] at ht
          cases ht
    obtain ⟨r, t, hr, hok⟩ := hread (bytes.length + 1) (Nat.lt_succ_self _)
    have hfault := ho.reads hlen (Nat.zero_le _) (bytes.length + 1) 1 .start rfl (by omega)
    unfold valueLoad at hr
    rw [if_neg hne] at hr
    cases r with
    | ok v => exact wp_ok hfault hr
    | error e => exact hok (by rw [wp_error hfault hr])
  · intro ho fuel hf
    by_cases hz : bytes.length = 0
    · refine ⟨.error .failed, .start, ?_, by simp⟩
      unfold valueLoad
      rw [if_pos hz]
      rfl
    · have hpart := reads_part hlen .value 0 (Nat.zero_le _) fuel 1 .start rfl (by omega)
      obtain ⟨r, t, hr⟩ := wp_result hpart
      refine ⟨r, t, ?_, ?_⟩
      · unfold valueLoad
        rw [if_neg hz]
        exact hr
      · rintro rfl
        exact ho (wp_error hpart hr rfl)

/-- A type byte with the type in the low four bits and the width above. -/
def nibbles : Header where
  type vt := [.dNull, .dInt, .dReal, .dLocalStr, .dUtf8Str, .dUniStr, .dArray, .dObject,
    .dBuffer][(vt &&& 0xF).toNat]?
  bsiz vt := [.s8, .s16, .s32, .s64][(vt >>> 4).toNat]?
  MAX_KEY_LEN := 254
  target := .x64

/-- A string of one character, the zero one. -/
theorem readsInside_zero : ReadsInside nibbles [0x03#8, 1#8, 0#8] := by
  refine (valueLoad_inside_iff nibbles _ (by decide)).2 fun ho => ?_
  have htype : typeAt [0x03#8, 1#8, 0#8] 0 = some 0x03#8 := by decide
  cases ho with
  | str ht htyp hsize hstr hopen =>
      obtain rfl := Option.some_inj.1 (htype.symm.trans ht)
      obtain rfl := Option.some_inj.1 ((by decide : nibbles.type 0x03#8 = some .dLocalStr).symm.trans
        htyp)
      obtain rfl : 1 = _ := Option.some_inj.1 hsize
      rw [(by decide : stringAt nibbles [0x03#8, 1#8, 0#8] 1 0x03#8 1 = some (2, 3))] at hstr
      obtain ⟨rfl, -⟩ := Prod.mk.inj (Option.some_inj.1 hstr)
      exact hopen ⟨0, by decide⟩
  | array ht htyp | object ht htyp =>
      obtain rfl := Option.some_inj.1 (htype.symm.trans ht)
      exact absurd htyp (by decide)

/-- An empty string at the end of the buffer. -/
theorem valueLoad_reads_behind :
    ¬ ∀ (x : Header) (bytes : List Byte), bytes.length < 2 ^ x.target.sizeBits →
      ReadsInside x bytes := by
  intro hall
  obtain ⟨r, t, hr, hok⟩ := hall nibbles [0x03#8, 0#8] (by decide) 3 (by decide)
  have hfault : valueLoad nibbles ⟨[0x03#8, 0#8], []⟩ 3 .start =
      some (.error .fault, ⟨2, 1, 1⟩) := rfl
  rw [hfault] at hr
  obtain ⟨rfl, -⟩ := Prod.mk.inj (Option.some_inj.1 hr)
  exact hok rfl

end Vin64.Xv
