import Mathlib.Tactic.SplitIfs
import Vin64.Xv.Format

/-!
# The fields that the reader reads

One lemma for each operation of the reader says which field of the buffer it reads, and where it
leaves the cursor.
-/

namespace Vin64.Xv

open Vin64.Lib Vin64.Lib.Op Vin64.Utils

variable {x : Header} {bytes : List Byte} {s : Reader}

/-! ## Numbers and characters -/

theorem ofBytes_lt (bs : List Byte) : ofBytes bs < 256 ^ bs.length := by
  induction bs with
  | nil => decide
  | cons b bs ih =>
      have hb := b.isLt
      rw [ofBytes, List.length_cons, Nat.pow_succ]
      omega

theorem numberAt_lt {size i n : Nat} (h : numberAt bytes size i = some n) : n < 256 ^ size := by
  unfold numberAt at h
  split_ifs at h with hle
  obtain rfl := Option.some_inj.1 h
  have hlt := ofBytes_lt ((bytes.drop i).take size)
  rwa [List.length_take, List.length_drop, Nat.min_eq_left (by omega)] at hlt

theorem numberAt_eq_none {size i : Nat} : numberAt bytes size i = none ↔ bytes.length < i + size := by
  unfold numberAt
  split_ifs with hle
  · simp; omega
  · simp; omega

theorem charAt_eq (size i : Nat) :
    charAt bytes size i = (numberAt bytes size i).map (BitVec.ofNat (8 * size)) := by
  unfold charAt numberAt
  split_ifs <;> rfl

/-- A character is zero when its number is. -/
theorem charAt_eq_zero {size i n : Nat} (h : numberAt bytes size i = some n) :
    BitVec.ofNat (8 * size) n = 0 ↔ n = 0 := by
  have hlt := numberAt_lt h
  rw [show 256 = 2 ^ 8 from rfl, ← Nat.pow_mul] at hlt
  constructor
  · intro hz
    have := congrArg BitVec.toNat hz
    rwa [BitVec.toNat_ofNat, Nat.mod_eq_of_lt hlt] at this
  · rintro rfl
    rfl

theorem not_terminated {size i : Nat} (h : bytes.length < i + size) : ¬ Terminated bytes size i := by
  rintro ⟨k, hk⟩
  have hnone : numberAt bytes size (i + size * k) = none := numberAt_eq_none.2 (by omega)
  rw [hnone] at hk
  cases hk

/-- Behind a character that is not zero. -/
theorem terminated_next {size i n : Nat} (h : numberAt bytes size i = some n) (hn : n ≠ 0) :
    Terminated bytes size i ↔ Terminated bytes size (i + size) := by
  constructor
  · rintro ⟨k, hk⟩
    cases k with
    | zero =>
        rw [Nat.mul_zero, Nat.add_zero, h] at hk
        exact absurd (Option.some_inj.1 hk) hn
    | succ k => exact ⟨k, by rw [Nat.add_assoc, Nat.add_comm size, ← Nat.mul_succ]; exact hk⟩
  · rintro ⟨k, hk⟩
    exact ⟨k + 1, by rw [Nat.mul_succ, Nat.add_comm (size * k), ← Nat.add_assoc]; exact hk⟩

/-- A string is read to its end exactly when there is one. -/
theorem charsAt_isSome {size i fuel : Nat} (hf : bytes.length < i + size * fuel) :
    (charsAt bytes size fuel i).isSome ↔ Terminated bytes size i := by
  induction fuel generalizing i with
  | zero => exact iff_of_false (by simp [charsAt]) (not_terminated (by omega))
  | succ fuel ih =>
      rw [Nat.mul_succ] at hf
      cases hn : numberAt bytes size i with
      | none =>
          have hc : charAt bytes size i = none := by rw [charAt_eq, hn]; rfl
          refine iff_of_false ?_ (not_terminated (numberAt_eq_none.1 hn))
          simp [charsAt, hc]
      | some n =>
          have hc : charAt bytes size i = some (BitVec.ofNat (8 * size) n) := by
            rw [charAt_eq, hn]; rfl
          by_cases hz : n = 0
          · subst hz
            have hzero : BitVec.ofNat (8 * size) 0 = 0 := rfl
            refine iff_of_true ?_ ⟨0, by rw [Nat.mul_zero, Nat.add_zero, hn]⟩
            simp [charsAt, hc]
          · have hzero : ¬ BitVec.ofNat (8 * size) n = 0#(8 * size) := mt (charAt_eq_zero hn).1 hz
            rw [terminated_next hn hz, ← ih (by omega)]
            cases hcs : charsAt bytes size fuel (i + size) <;> simp [charsAt, hc, hzero, hcs]

/-! ## Operations of the reader -/

section Fields

variable {size i : Nat} {vt : Byte}

theorem wp_fetchBytes (size : Nat) :
    wp (Buffer.fetchBytes ⟨bytes, []⟩ size)
      (fun bs t => numberAt bytes size s.current = some (ofBytes bs) ∧ t.current = s.current + size)
      (fun e _ => e = .failed ∧ numberAt bytes size s.current = none) s := by
  simp only [Buffer.fetchBytes, wp_bind, wp_get, wp_ite, wp_fail, wp_modify, wp_pure, true_and]
  refine ⟨fun hlt => numberAt_eq_none.2 hlt, fun hle => ⟨?_, trivial⟩⟩
  unfold numberAt
  rw [if_pos (by omega)]

theorem wp_fetchX (vt : Byte) :
    wp (fetchX ⟨bytes, []⟩ (x.bsiz vt))
      (fun n t => countAt x bytes vt s.current = some (n, t.current))
      (fun e _ => e = .failed ∧ countAt x bytes vt s.current = none) s := by
  unfold countAt
  cases x.bsiz vt with
  | none => exact ⟨rfl, rfl⟩
  | some bsiz =>
      unfold fetchX
      rw [wp_bind]
      refine wp_mono (wp_fetchBytes bsiz.bytes) ?_ ?_
      · intro bs t ⟨hn, ht⟩
        simp [hn, ht]
      · intro e t ⟨he, hn⟩
        simp [hn, he]

/-- What the end of a run of `n` bytes is to `fetch` -/
theorem wp_fetchBytes_end (size : Nat) :
    wp (Buffer.fetchBytes ⟨bytes, []⟩ size)
      (fun _ t => bytesEnd bytes size s.current = some t.current)
      (fun e _ => e = .failed ∧ bytesEnd bytes size s.current = none) s := by
  refine wp_mono (wp_fetchBytes size) ?_ ?_
  · intro bs t ⟨hn, ht⟩
    unfold numberAt at hn
    unfold bytesEnd
    split_ifs at hn ⊢
    rw [ht]
  · intro e t ⟨he, hn⟩
    unfold numberAt at hn
    unfold bytesEnd
    split_ifs at hn ⊢
    exact ⟨he, rfl⟩

theorem wp_rest : wp (Buffer.rest ⟨bytes, []⟩)
    (fun n t => n = bytes.length - s.current ∧ t = s) (fun _ _ => False) s := ⟨rfl, rfl⟩

/-- `fetch_ptr`, when the counted bytes do not wrap -/
theorem wp_fetchPtr (size count : Nat) (hs : s.current ≤ bytes.length) :
    wp (Buffer.fetchPtr x ⟨bytes, []⟩ size count)
      (fun i t => i = s.current ∧ bytesEnd bytes (x.sizeT (size * count)) s.current = some t.current)
      (fun e _ => e = .failed ∧ bytesEnd bytes (x.sizeT (size * count)) s.current = none) s := by
  simp only [Buffer.fetchPtr, Buffer.rest, wp_bind, wp_get, wp_ite, wp_fail, wp_modify, wp_pure,
    true_and]
  unfold bytesEnd
  refine ⟨fun hlt => ?_, fun hle => ?_⟩
  · rw [if_neg (by omega)]
  · rw [if_pos (by omega)]

theorem byte_high (b : Byte) : b &&& 0x80 = 0 ↔ b.toNat < 0x80 := by
  revert b
  decide

/-- The loop of `fetch_leb128` counts the bytes it reads. -/
theorem wp_leb128Loop (bits n i : Nat) {b : Byte} (hb : b &&& 0x80 = 0) (k : BitVec bits) :
    wp (leb128Loop ⟨bytes, []⟩ bits n i b k)
      (fun v t => indexEnd bytes n s.current = some t.current ∧ i ≤ v.1 ∧ (n ≠ 0 → i < v.1))
      (fun e _ => e = .failed ∧ indexEnd bytes n s.current = none) s := by
  induction n generalizing i b k s with
  | zero => exact ⟨rfl, Nat.le_refl i, fun h => absurd rfl h⟩
  | succ n ih =>
      unfold leb128Loop
      rw [if_pos hb, wp_bind]
      refine wp_mono (wp_fetchBytes 1) ?_ ?_
      · intro bs t ⟨hn, ht⟩
        have hlt := numberAt_lt hn
        have hnat : (BitVec.ofNat 8 (ofBytes bs)).toNat = ofBytes bs := by
          rw [BitVec.toNat_ofNat, Nat.mod_eq_of_lt (by simpa using hlt)]
        simp only [indexEnd, hn, Option.bind_eq_bind, Option.bind_some]
        by_cases hlow : ofBytes bs < 0x80
        · have hmore : BitVec.ofNat 8 (ofBytes bs) &&& 0x80 = 0 :=
            (byte_high _).2 (by rw [hnat]; exact hlow)
          rw [if_pos hlow, ← ht]
          refine wp_mono (ih (i + 1) hmore _) ?_ fun e u hu => hu
          intro v u ⟨hend, hle, _⟩
          exact ⟨hend, by omega, fun _ => by omega⟩
        · have hdone : ¬ BitVec.ofNat 8 (ofBytes bs) &&& 0x80 = 0 := fun h =>
            hlow (by rw [← hnat]; exact (byte_high _).1 h)
          rw [if_neg hlow, ← ht]
          cases n with
          | zero => exact ⟨rfl, Nat.le_succ i, fun _ => Nat.lt_succ_self i⟩
          | succ n =>
              unfold leb128Loop
              rw [if_neg hdone]
              exact ⟨rfl, Nat.le_succ i, fun _ => Nat.lt_succ_self i⟩
      · intro e t ⟨he, hn⟩
        exact ⟨he, by simp [indexEnd, hn]⟩

theorem wp_fetchLeb128 : wp (fetchLeb128 x ⟨bytes, []⟩ 5)
    (fun v t => indexEnd bytes 5 s.current = some t.current ∧ v.1 ≠ 0)
    (fun e _ => e = .failed ∧ indexEnd bytes 5 s.current = none) s := by
  refine wp_mono (wp_leb128Loop x.target.sizeBits 5 0 (by decide) 0) ?_ fun e t ht => ht
  intro v t ⟨hend, _, hne⟩
  exact ⟨hend, Nat.ne_of_gt (hne (by decide))⟩

theorem bytesEnd_eq_some {n j : Nat} :
    bytesEnd bytes n i = some j ↔ i + n ≤ bytes.length ∧ i + n = j := by
  unfold bytesEnd
  split_ifs with hle <;> simp [hle]

theorem bytesEnd_eq_none {n : Nat} : bytesEnd bytes n i = none ↔ bytes.length < i + n := by
  unfold bytesEnd
  split_ifs with hle
  · simp [hle]
  · simp; omega

theorem exists_numberAt (h : i + size ≤ bytes.length) : ∃ n, numberAt bytes size i = some n := by
  unfold numberAt
  rw [if_pos h]
  exact ⟨_, rfl⟩

theorem le_of_numberAt {n : Nat} (h : numberAt bytes size i = some n) :
    i + size ≤ bytes.length := by
  unfold numberAt at h
  split_ifs at h with hle
  exact hle

theorem wp_readChar {n : Nat} (h : numberAt bytes size i = some n) :
    wp (Buffer.readChar ⟨bytes, []⟩ size i) (fun c t => (c = 0 ↔ n = 0) ∧ t = s)
      (fun _ _ => False) s := by
  have hc : charAt (Buffer.memory ⟨bytes, []⟩) size i = some (BitVec.ofNat (8 * size) n) := by
    rw [Buffer.memory, List.append_nil, charAt_eq, h]
    rfl
  unfold Buffer.readChar
  rw [hc]
  exact ⟨charAt_eq_zero h, rfl⟩

theorem sizeT_eq {n : Nat} (h : n < 2 ^ x.target.sizeBits) : x.sizeT n = n :=
  Nat.mod_eq_of_lt h

theorem sizeT_lt (n : Nat) : x.sizeT n < 2 ^ x.target.sizeBits :=
  Nat.mod_lt n (Nat.pow_pos (by decide))

theorem byte_lt_size (n : Nat) (h : n < 256) : n < 2 ^ x.target.sizeBits := by
  refine Nat.lt_trans h ?_
  cases x.target <;> decide

theorem wp_fetchKey : wp (fetchKey x ⟨bytes, []⟩)
    (fun key t => keyEnd bytes s.current = some t.current ∧ key = s.current + 1)
    (fun e _ => e = .failed ∧ keyEnd bytes s.current = none) s := by
  unfold fetchKey keyEnd
  rw [wp_bind]
  refine wp_mono (wp_fetchBytes 1) ?_ ?_
  · intro bs t ⟨hn, ht⟩
    have hle := le_of_numberAt hn
    have hlt : ofBytes bs < 256 := by simpa using numberAt_lt hn
    simp only [hn, Option.bind_eq_bind, Option.bind_some]
    rw [wp_ite]
    refine ⟨fun hz => ?_, fun hz => ?_⟩
    · rw [if_pos (Or.inl hz)]
      exact ⟨rfl, rfl⟩
    · rw [wp_bind]
      have hcount : x.sizeT (1 * ofBytes bs) = ofBytes bs := by
        rw [Nat.one_mul]
        exact sizeT_eq (byte_lt_size _ hlt)
      refine wp_mono (wp_fetchPtr 1 (ofBytes bs) (by omega)) ?_ ?_
      · intro data u ⟨hdata, hu⟩
        rw [hcount, bytesEnd_eq_some] at hu
        obtain ⟨n, hlast⟩ := @exists_numberAt bytes 1 (s.current + 1 + ofBytes bs - 1) (by omega)
        have hidx : data + (ofBytes bs - 1) = s.current + 1 + ofBytes bs - 1 := by omega
        rw [wp_bind, hidx]
        refine wp_mono (wp_readChar hlast) ?_ fun e v hv => hv.elim
        intro c v ⟨hc, hv⟩
        subst hv
        rw [wp_ite]
        refine ⟨fun hne => ?_, fun heq => ?_⟩
        · have hn0 : n ≠ 0 := fun h0 => hne (hc.2 h0)
          rw [if_pos (Or.inr (Or.inr (by rw [hlast]; simpa using hn0)))]
          exact ⟨rfl, rfl⟩
        · have hn0 : n = 0 := hc.1 (Classical.not_not.1 heq)
          have hok : ¬ (ofBytes bs = 0 ∨ bytes.length < s.current + 1 + ofBytes bs ∨
              numberAt bytes 1 (s.current + 1 + ofBytes bs - 1) ≠ some 0) := by
            rw [hlast, hn0]
            simp only [ne_eq, not_true_eq_false, or_false, not_or]
            exact ⟨hz, by omega⟩
          rw [if_neg hok]
          exact ⟨by rw [← hu.2, ht]; rfl, by omega⟩
      · intro e u ⟨he, hu⟩
        rw [hcount, bytesEnd_eq_none] at hu
        rw [if_pos (Or.inr (Or.inl (by omega)))]
        exact ⟨he, rfl⟩
  · intro e t ⟨he, hn⟩
    exact ⟨he, by simp [hn]⟩

/-- `data[cch-1]` is the character in front of the end of the contents. -/
theorem last_index (hsize : size = 1 ∨ size = 2) {cch h : Nat} (hh : size ≤ h)
    (hj : h + x.sizeT (size * x.sizeT cch) < 2 ^ x.target.sizeBits) :
    x.sizeT (h + size * x.sizeT (x.sizeT cch + (2 ^ x.target.sizeBits - 1))) =
      h + x.sizeT (size * x.sizeT cch) - size := by
  unfold Header.sizeT at hj ⊢
  generalize x.target = target at hj ⊢
  cases target <;> rcases hsize with rfl | rfl <;> simp only [Target.sizeBits] at hj ⊢ <;> omega

theorem countAt_bounds {n h : Nat} (hc : countAt x bytes vt i = some (n, h)) :
    i < h ∧ h ≤ bytes.length := by
  unfold countAt at hc
  cases hb : x.bsiz vt with
  | none => simp [hb] at hc
  | some bsiz =>
      have hpos : 0 < bsiz.bytes := by cases bsiz <;> decide
      cases hn : numberAt bytes bsiz.bytes i with
      | none => simp [hb, hn] at hc
      | some k =>
          have hle := le_of_numberAt hn
          obtain ⟨-, rfl⟩ : k = n ∧ i + bsiz.bytes = h := by simpa [hb, hn] using hc
          omega

/-- A string is read when it is terminated; otherwise reading leaves the buffer. -/
theorem wp_readStr (hsize : 0 < size) (i : Nat) :
    wp (Buffer.readStr ⟨bytes, []⟩ size i)
      (fun str t => charsAt bytes size (bytes.length + 1) i = some str ∧
        Terminated bytes size i ∧ t = s)
      (fun e _ => e = .fault ∧ ¬ Terminated bytes size i) s := by
  have hfuel : bytes.length < i + size * (bytes.length + 1) := by
    have := Nat.le_mul_of_pos_left (bytes.length + 1) hsize
    omega
  have hiff := charsAt_isSome hfuel
  unfold Buffer.readStr
  rw [Buffer.memory, List.append_nil]
  cases hc : charsAt bytes size (bytes.length + 1) i with
  | none => exact ⟨rfl, fun ht => by simpa [hc] using hiff.2 ht⟩
  | some str => exact ⟨rfl, hiff.1 (by rw [hc]; rfl), rfl⟩

theorem wp_fetchStr (hlen : bytes.length < 2 ^ x.target.sizeBits) (hsize : size = 1 ∨ size = 2)
    (hs : 1 ≤ s.current) (vt : Byte) :
    wp (fetchStr x ⟨bytes, []⟩ size (x.bsiz vt))
      (fun _ t => ∃ h, stringAt x bytes size vt s.current = some (h, t.current) ∧
        Terminated bytes size h)
      (fun e _ => (e = .failed ∧ stringAt x bytes size vt s.current = none) ∨
        (e = .fault ∧ ∃ h j, stringAt x bytes size vt s.current = some (h, j) ∧
          ¬ Terminated bytes size h)) s := by
  unfold fetchStr stringAt
  rw [wp_bind]
  refine wp_mono (wp_fetchX vt) ?_ ?_
  · intro cch t hc
    obtain ⟨hlt, hle⟩ := countAt_bounds hc
    simp only [hc, Option.bind_eq_bind, Option.bind_some]
    rw [wp_bind]
    refine wp_mono (wp_fetchPtr size (x.sizeT cch) hle) ?_ ?_
    · intro data u ⟨hdata, hu⟩
      obtain ⟨hule, hueq⟩ := bytesEnd_eq_some.1 hu
      have hsize' : size ≤ t.current := by omega
      have hidx := @last_index x size hsize cch t.current hsize' (by omega)
      obtain ⟨n, hlast⟩ := @exists_numberAt bytes size
        (t.current + x.sizeT (size * x.sizeT cch) - size) (by omega)
      rw [wp_bind, hdata, hidx]
      refine wp_mono (wp_readChar hlast) ?_ fun e v hv => hv.elim
      intro c v ⟨hc0, hv⟩
      subst hv
      rw [wp_ite]
      refine ⟨fun hne => Or.inl ⟨rfl, ?_⟩, fun heq => ?_⟩
      · have hn0 : n ≠ 0 := fun h0 => hne (hc0.2 h0)
        rw [if_pos (Or.inr (by rw [hlast]; simpa using hn0))]
      · have hn0 : n = 0 := hc0.1 (Classical.not_not.1 heq)
        have hok : ¬ (bytes.length < t.current + x.sizeT (size * x.sizeT cch) ∨
            numberAt bytes size (t.current + x.sizeT (size * x.sizeT cch) - size) ≠ some 0) := by
          rw [hlast, hn0]
          simp only [ne_eq, not_true_eq_false, or_false]
          omega
        rw [if_neg hok]
        refine wp_mono (wp_readStr (by omega) t.current) ?_ ?_
        · intro str w ⟨_, hterm, hw⟩
          subst hw
          exact ⟨t.current, by rw [← hueq]; rfl, hterm⟩
        · intro e w ⟨he, hterm⟩
          exact Or.inr ⟨he, _, _, rfl, hterm⟩
    · intro e u ⟨he, hu⟩
      rw [if_pos (Or.inl (bytesEnd_eq_none.1 hu))]
      exact Or.inl ⟨he, rfl⟩
  · intro e t ⟨he, hc⟩
    exact Or.inl ⟨he, by simp [hc]⟩

theorem sizeT_sizeT (n : Nat) : x.sizeT (1 * x.sizeT n) = x.sizeT n := by
  rw [Nat.one_mul]
  exact sizeT_eq (sizeT_lt n)

theorem wp_fetchBuf (vt : Byte) :
    wp (fetchBuf x ⟨bytes, []⟩ (x.bsiz vt))
      (fun _ t => ∃ n h, countAt x bytes vt s.current = some (n, h) ∧
        bytesEnd bytes (x.sizeT n) h = some t.current)
      (fun e _ => e = .failed ∧ ∀ n h, countAt x bytes vt s.current = some (n, h) →
        bytesEnd bytes (x.sizeT n) h = none) s := by
  unfold fetchBuf
  rw [wp_bind]
  refine wp_mono (wp_fetchX vt) ?_ ?_
  · intro ccb t hc
    obtain ⟨-, hle⟩ := countAt_bounds hc
    rw [wp_bind]
    refine wp_mono wp_rest ?_ fun e u hu => hu.elim
    intro rest u ⟨hrest, hu⟩
    subst hu
    rw [wp_ite, hrest]
    refine ⟨fun hlt => ⟨rfl, fun n h hn => ?_⟩, fun _ => ?_⟩
    · obtain ⟨rfl, rfl⟩ : ccb = n ∧ u.current = h := by simpa using hc.symm.trans hn
      exact bytesEnd_eq_none.2 (by omega)
    · rw [wp_bind]
      refine wp_mono (wp_fetchPtr 1 (x.sizeT ccb) hle) ?_ ?_
      · intro data v ⟨_, hv⟩
        rw [sizeT_sizeT] at hv
        exact ⟨ccb, u.current, hc, hv⟩
      · intro e v ⟨he, hv⟩
        rw [sizeT_sizeT] at hv
        refine ⟨he, fun n h hn => ?_⟩
        obtain ⟨rfl, rfl⟩ : ccb = n ∧ u.current = h := by simpa using hc.symm.trans hn
        exact hv
  · intro e t ⟨he, hc⟩
    refine ⟨he, fun n h hn => ?_⟩
    rw [hc] at hn
    cases hn

theorem wp_fetchNumber (bsiz : Option ValueSize) :
    wp (fetchNumber ⟨bytes, []⟩ bsiz)
      (fun _ t => (bsiz.bind fun b => bytesEnd bytes b.bytes s.current) = some t.current)
      (fun e _ => e = .failed ∧
        (bsiz.bind fun b => bytesEnd bytes b.bytes s.current) = none) s := by
  match bsiz with
  | none => exact ⟨rfl, rfl⟩
  | some .s8 | some .s16 | some .s32 | some .s64 =>
      unfold fetchNumber
      rw [wp_bind]
      exact wp_mono (wp_fetchBytes_end _) (fun bs t ht => ht) fun e t ht => ht

/-- The kinds that hold no other value and are no string. -/
theorem wp_leaf {typ : ValueType} (ht : x.type vt = some typ) (hstr : charSize typ = none)
    (harr : typ ≠ .dArray) (hobj : typ ≠ .dObject) (fuel : Nat) (op : ReaderM Val) :
    wp (fetchType x ⟨bytes, []⟩ vt fuel op)
      (fun _ t => leafEnd x bytes vt s.current = some t.current)
      (fun e _ => e = .failed ∧ leafEnd x bytes vt s.current = none) s := by
  unfold fetchType leafEnd
  rw [ht]
  cases typ with
  | dNull => exact rfl
  | dInt => exact wp_fetchNumber _
  | dReal =>
      show wp (fetchReal _) _ _ _
      unfold fetchReal
      rw [wp_bind]
      exact wp_mono (wp_fetchBytes_end 8) (fun bs t ht => ht) fun e t ht => ht
  | dBuffer =>
      refine wp_mono (wp_fetchBuf vt) ?_ ?_
      · intro v t ⟨n, h, hc, hend⟩
        simp [hc, hend]
      · intro e t ⟨he, hend⟩
        refine ⟨he, ?_⟩
        cases hc : countAt x bytes vt s.current with
        | none => simp
        | some nh => simpa using hend nh.1 nh.2 hc
  | dUnknown => exact ⟨rfl, rfl⟩
  | dLocalStr | dUtf8Str | dUniStr => cases hstr
  | dArray => exact absurd rfl harr
  | dObject => exact absurd rfl hobj

theorem indexEnd_bounds {n j : Nat} (h : indexEnd bytes n i = some j) (hi : i ≤ bytes.length) :
    i ≤ j ∧ j ≤ bytes.length ∧ (n ≠ 0 → i < j) := by
  induction n generalizing i with
  | zero =>
      obtain rfl : i = j := Option.some_inj.1 h
      exact ⟨Nat.le_refl i, hi, fun hne => absurd rfl hne⟩
  | succ n ih =>
      unfold indexEnd at h
      cases hb : numberAt bytes 1 i with
      | none => simp [hb] at h
      | some b =>
          have hle := le_of_numberAt hb
          simp only [hb, Option.bind_eq_bind, Option.bind_some] at h
          split_ifs at h
          · obtain ⟨hij, hj, -⟩ := ih h hle
            exact ⟨by omega, hj, fun _ => by omega⟩
          · obtain rfl : i + 1 = j := Option.some_inj.1 h
            exact ⟨by omega, hle, fun _ => by omega⟩

theorem keyEnd_bounds {j : Nat} (h : keyEnd bytes i = some j) : i < j ∧ j ≤ bytes.length := by
  unfold keyEnd at h
  cases hc : numberAt bytes 1 i with
  | none => simp [hc] at h
  | some cch =>
      simp only [hc, Option.bind_eq_bind, Option.bind_some] at h
      split_ifs at h with hbad
      obtain rfl : i + 1 + cch = j := Option.some_inj.1 h
      simp only [not_or] at hbad
      omega

end Fields

end Vin64.Xv
