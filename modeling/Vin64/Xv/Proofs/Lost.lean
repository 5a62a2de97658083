import Vin64.Xv.Proofs.RoundTrip

/-!
# What the reader does not get back

Some values are never returned, whatever the buffer holds.  The bytes of a null are those of what
lies behind it, and the count of a large buffer is cut.  A container that holds such a value is
read as another one, because each round of the loop stores its own entry.
-/

namespace Vin64.Xv

open Vin64.Lib Vin64.Lib.Op Vin64.Utils

variable {x : Header} {src : Buffer} {s : Reader} {fuel depth : Nat}

/-! ## Entries of a container -/

section Entries

variable {κ : Type} {lt : κ → κ → Bool} {key : κ} {item : Val} {elements : List (κ × Val)}
  {e : κ × Val}

theorem mem_setElement (h : e ∈ setElement lt key item elements) :
    e = (key, item) ∨ e ∈ elements := by
  induction elements with
  | nil => exact .inl (List.mem_singleton.1 h)
  | cons e' elements ih =>
      unfold setElement at h
      split_ifs at h with hlt hgt
      · exact List.mem_cons.1 h
      · rcases List.mem_cons.1 h with rfl | h
        · exact .inr List.mem_cons_self
        · exact (ih h).imp_right (List.mem_cons_of_mem _)
      · exact (List.mem_cons.1 h).imp_right (List.mem_cons_of_mem _)

theorem length_setElement_le (lt : κ → κ → Bool) (key : κ) (item : Val)
    (elements : List (κ × Val)) :
    (setElement lt key item elements).length ≤ elements.length + 1 := by
  induction elements with
  | nil => exact Nat.le_refl _
  | cons e' elements ih =>
      unfold setElement
      split_ifs with hlt hgt
      · exact Nat.le_refl _
      · rw [List.length_cons, List.length_cons]
        exact Nat.succ_le_succ ih
      · rw [List.length_cons, List.length_cons]
        exact Nat.le_succ _

/-- Nothing is lost when there is one entry more. -/
theorem mem_setElement_of_length
    (h : (setElement lt key item elements).length = elements.length + 1) (he : e ∈ elements) :
    e ∈ setElement lt key item elements := by
  induction elements with
  | nil => cases he
  | cons e' elements ih =>
      unfold setElement at h ⊢
      split_ifs at h ⊢ with hlt hgt
      · exact List.mem_cons_of_mem _ he
      · rw [List.length_cons, List.length_cons] at h
        rcases List.mem_cons.1 he with rfl | he
        · exact List.mem_cons_self
        · exact List.mem_cons_of_mem _ (ih (Nat.succ.inj h) he)
      · rw [List.length_cons, List.length_cons] at h
        omega

/-- A key of a container belongs to one item. -/
theorem Sorted.item_eq {item : Value} {pre post : List (κ × Value)} {e : κ × Value}
    (h : Sorted lt (pre ++ (key, item) :: post)) (hlt : ∀ k, lt k k = false)
    (he : e ∈ pre ++ (key, item) :: post) (hkey : e.1 = key) : e.2 = item := by
  rcases List.mem_append.1 he with hpre | hrest
  · have hless := h.lt_next e hpre
    rw [hkey, hlt] at hless
    cases hless
  · rcases List.mem_cons.1 hrest with rfl | hpost
    · rfl
    · have hless := List.rel_of_pairwise_cons (List.pairwise_append.1 h).2.1 hpost
      rw [hkey, hlt] at hless
      cases hless

end Entries

/-- After as many rounds as there are entries more, nothing was lost. -/
theorem fetchElements_adds {op : ReaderM Val} {elmts i : Nat} {elements : List (Nat × Val)}
    (hfit : elmts < 2 ^ x.target.sizeBits) (hi : i ≤ elmts) :
    wlp (fetchElements x src op elmts fuel i elements)
      (fun out _ => out.length ≤ elements.length + (elmts - i) ∧
        (out.length = elements.length + (elmts - i) → ∀ e ∈ elements, e ∈ out))
      (fun _ _ => True) s := by
  induction fuel generalizing i elements s with
  | zero => exact wlp_fault
  | succ fuel ih =>
      rw [fetchElements, wlp_ite]
      constructor
      · intro hlt
        rw [wlp_bind]
        refine wlp_mono (wlp_true _) (fun r t _ => ?_) fun _ _ _ => trivial
        obtain ⟨read, idx⟩ := r
        rw [wlp_ite]
        refine ⟨fun _ => trivial, fun _ => ?_⟩
        rw [wlp_bind]
        refine wlp_mono (wlp_true _) (fun elmt u _ => ?_) fun _ _ _ => trivial
        rw [sizeT_eq (by omega)]
        refine wlp_mono (ih (by omega)) (fun out v hout => ?_) fun _ _ _ => trivial
        have hle := length_setElement_le (fun a b => decide (a < b)) idx.toNat elmt elements
        refine ⟨by omega, fun heq e he => hout.2 (by omega) e (mem_setElement_of_length ?_ he)⟩
        omega
      · intro hge
        rw [wlp_pure]
        exact ⟨Nat.le_add_right _ _, fun _ e he => he⟩

theorem fetchPairs_adds {op : ReaderM Val} {pairs i : Nat} {elements : List (List Byte × Val)}
    (hfit : pairs < 2 ^ x.target.sizeBits) (hi : i ≤ pairs) :
    wlp (fetchPairs x src op pairs fuel i elements)
      (fun out _ => out.length ≤ elements.length + (pairs - i) ∧
        (out.length = elements.length + (pairs - i) → ∀ e ∈ elements, e ∈ out))
      (fun _ _ => True) s := by
  induction fuel generalizing i elements s with
  | zero => exact wlp_fault
  | succ fuel ih =>
      rw [fetchPairs, wlp_ite]
      constructor
      · intro hlt
        rw [wlp_bind]
        refine wlp_mono (wlp_true _) (fun key t _ => ?_) fun _ _ _ => trivial
        rw [wlp_bind]
        refine wlp_mono (wlp_true _) (fun item u _ => ?_) fun _ _ _ => trivial
        rw [wlp_bind]
        refine wlp_mono (wlp_true _) (fun name v _ => ?_) fun _ _ _ => trivial
        rw [wlp_ite]
        refine ⟨fun _ => trivial, fun _ => ?_⟩
        rw [sizeT_eq (by omega)]
        refine wlp_mono (ih (by omega)) (fun out v hout => ?_) fun _ _ _ => trivial
        have hle := length_setElement_le nameLt name item elements
        refine ⟨by omega, fun heq e he => hout.2 (by omega) e (mem_setElement_of_length ?_ he)⟩
        omega
      · intro hge
        rw [wlp_pure]
        exact ⟨Nat.le_add_right _ _, fun _ e he => he⟩

/-! ## What the reader returns -/

/-- What `fetch` returns for a type byte with this type, apart from what the value holds. -/
def Val.Shown (typ : Option ValueType) : Val → Prop
  | .null => typ = some .dNull
  | .int bsiz integer => IntKept bsiz integer
  | .utf8Str _ => False
  | .array elements => ∀ e ∈ elements, e.1 < 2 ^ 35
  | _ => True

variable {typ : Option ValueType}

theorem wlp_bind_pure {α : Type} {op : ReaderM α} {f : α → Val} {P : Val → Prop}
    (h : ∀ a, P (f a)) :
    wlp (op >>= fun a => pure (f a)) (fun w _ => P w) (fun _ _ => True) s := by
  rw [wlp_bind]
  refine wlp_mono (wlp_true _) (fun a t _ => ?_) fun _ _ _ => trivial
  rw [wlp_pure]
  exact h a

theorem setWidth_signExtend {w : Nat} (hw : w ≤ 64) (y : BitVec w) :
    (y.signExtend 64).setWidth w = y := by
  apply BitVec.eq_of_getLsbD_eq
  intro j hj
  have hj64 : j < 64 := by omega
  rw [BitVec.getLsbD_setWidth, BitVec.getLsbD_signExtend]
  simp [hj, hj64]

theorem fetchNumber_shown (bsiz : Option ValueSize) :
    wlp (fetchNumber src bsiz) (fun w _ => w.Shown typ) (fun _ _ => True) s := by
  match bsiz with
  | none => exact trivial
  | some .s16 => exact wlp_bind_pure fun _ => ⟨fun _ => rfl, by decide⟩
  | some .s8 | some .s32 | some .s64 =>
      refine wlp_bind_pure fun bytes => ⟨nofun, ?_⟩
      rw [setWidth_signExtend (by decide)]

/-- After `i` rounds the index has `7 * i` bits. -/
theorem leb128Loop_lt {bits n i : Nat} {b : Byte} {k : BitVec bits}
    (hk : k.toNat < 2 ^ (i * 7)) : wlp (leb128Loop src bits n i b k)
      (fun r _ => r.2.toNat < 2 ^ ((i + n) * 7)) (fun _ _ => True) s := by
  induction n generalizing i b k s with
  | zero =>
      rw [leb128Loop, wlp_pure]
      exact hk
  | succ n ih =>
      rw [leb128Loop, wlp_ite]
      constructor
      · intro _
        rw [wlp_bind]
        refine wlp_mono (wlp_true _) (fun bytes t _ => ?_) fun _ _ _ => trivial
        rw [show i + (n + 1) = i + 1 + n by omega]
        apply ih
        generalize BitVec.ofNat 8 (ofBytes bytes) = c
        have hpow : 2 ^ ((i + 1) * 7) = 128 * 2 ^ (i * 7) := by
          rw [Nat.succ_mul, Nat.pow_add, Nat.mul_comm]
        have hc : ((c &&& 0x7F).setWidth bits).toNat ≤ 127 := by
          rw [BitVec.toNat_setWidth, BitVec.toNat_and]
          exact Nat.le_trans (Nat.mod_le _ _) Nat.and_le_right
        have hpos := Nat.two_pow_pos (i * 7)
        rw [BitVec.toNat_or]
        apply Nat.or_lt_two_pow
        · omega
        · rw [BitVec.toNat_shiftLeft, Nat.shiftLeft_eq, hpow]
          refine Nat.lt_of_le_of_lt (Nat.mod_le _ _) ?_
          exact (Nat.mul_lt_mul_right hpos).2 (by omega)
      · intro _
        rw [wlp_pure]
        exact Nat.lt_of_lt_of_le hk (Nat.pow_le_pow_right (by decide) (by omega))

theorem fetchElements_lt {op : ReaderM Val} {elmts i : Nat} {elements : List (Nat × Val)}
    (h : ∀ e ∈ elements, e.1 < 2 ^ 35) : wlp (fetchElements x src op elmts fuel i elements)
      (fun out _ => ∀ e ∈ out, e.1 < 2 ^ 35) (fun _ _ => True) s := by
  induction fuel generalizing i elements s with
  | zero => exact wlp_fault
  | succ fuel ih =>
      rw [fetchElements, wlp_ite]
      constructor
      · intro _
        rw [wlp_bind]
        have hloop : wlp (fetchLeb128 x src 5) (fun r _ => r.2.toNat < 2 ^ ((0 + 5) * 7))
            (fun _ _ => True) s := leb128Loop_lt (by simp)
        refine wlp_mono hloop (fun r t hr => ?_) fun _ _ _ => trivial
        obtain ⟨read, idx⟩ := r
        rw [wlp_ite]
        refine ⟨fun _ => trivial, fun _ => ?_⟩
        rw [wlp_bind]
        refine wlp_mono (wlp_true _) (fun elmt u _ => ?_) fun _ _ _ => trivial
        apply ih
        intro e he
        rcases mem_setElement he with rfl | he
        · exact hr
        · exact h e he
      · intro _
        rw [wlp_pure]
        exact h

theorem fetchType_shown (vt : Byte) (op : ReaderM Val) :
    wlp (fetchType x src vt fuel op) (fun w _ => w.Shown (x.type vt)) (fun _ _ => True) s := by
  unfold fetchType
  split
  case h_1 h =>
      rw [wlp_pure]
      exact h
  case h_2 => exact fetchNumber_shown _
  case h_3 | h_4 | h_5 | h_6 => exact wlp_bind_pure fun _ => trivial
  case h_7 =>
      unfold fetchBuf
      rw [wlp_bind]
      refine wlp_mono (wlp_true _) (fun ccb t _ => ?_) fun _ _ _ => trivial
      rw [wlp_bind]
      refine wlp_mono (wlp_true _) (fun rest u _ => ?_) fun _ _ _ => trivial
      rw [wlp_ite]
      exact ⟨fun _ => trivial, fun _ => wlp_bind_pure fun _ => trivial⟩
  case h_8 =>
      unfold fetchArray
      rw [wlp_bind]
      refine wlp_mono (wlp_true _) (fun elmts t _ => ?_) fun _ _ _ => trivial
      rw [wlp_bind]
      have hnone : ∀ e ∈ ([] : List (Nat × Val)), e.1 < 2 ^ 35 := fun e he => by cases he
      exact wlp_mono (fetchElements_lt hnone) (fun out u hout => hout) fun _ _ _ => trivial
  case h_9 =>
      unfold fetchDict
      rw [wlp_bind]
      refine wlp_mono (wlp_true _) (fun pairs t _ => ?_) fun _ _ _ => trivial
      exact wlp_bind_pure fun _ => trivial
  case h_10 | h_11 => exact trivial

/-- A call of `fetch` that returns has read a type byte. -/
theorem fetch_shown : wlp (fetch x src fuel depth)
    (fun w _ => ∃ b rest, src.bytes.drop s.current = b :: rest ∧ w.Shown (x.type b))
    (fun _ _ => True) s := by
  cases fuel with
  | zero => exact wlp_fault
  | succ fuel =>
      rw [fetch, wlp_bind]
      show wlp _ _ _ { s with calls := s.calls + 1, deepest := max s.deepest depth }
      rw [wlp_bind]
      have hone : ∀ u : Reader, u.current = s.current → wlp (src.fetchBytes 1)
          (fun bytes _ => ∃ b rest, src.bytes.drop s.current = b :: rest ∧ bytes = [b])
          (fun _ _ => True) u := by
        intro u hu
        unfold Buffer.fetchBytes
        simp only [wlp_bind, wlp_get, wlp_ite, wlp_fail, wlp_modify, wlp_pure, implies_true,
          true_and]
        intro hle
        rw [hu] at hle ⊢
        cases hdrop : src.bytes.drop s.current with
        | nil =>
            rw [List.drop_eq_nil_iff] at hdrop
            omega
        | cons b rest => exact ⟨b, rest, rfl, rfl⟩
      refine wlp_mono (hone _ rfl) (fun bytes t h => ?_) fun _ _ _ => trivial
      obtain ⟨b, rest, hdrop, rfl⟩ := h
      rw [ofBytes_singleton]
      exact wlp_mono (fetchType_shown b _) (fun w u hw => ⟨b, rest, hdrop, hw⟩) fun _ _ _ => trivial

/-! ## Values that are missed -/

variable {l : TypeByte} {MAX_KEY_LEN : Nat} {target : Target} {rest : List Byte}

/-- Where the bytes of the value lie with `rest` behind them, `fetch` does not return it. -/
def Misses (l : TypeByte) (MAX_KEY_LEN : Nat) (target : Target) (src : Buffer) (v : Value)
    (rest : List Byte) : Prop :=
  ∀ (bytes : List Byte) (s : Reader) (fuel depth : Nat), write l target v = some bytes →
    src.bytes.drop s.current = bytes ++ rest → src.bytes.length - s.current < fuel →
    wlp (fetch (l.header MAX_KEY_LEN target) src fuel depth) (fun w _ => w ≠ v.val)
      (fun _ _ => True) s

theorem misses_of_shown {v : Value} (h : ∀ typ, ¬ v.val.Shown typ) :
    Misses l MAX_KEY_LEN target src v rest := by
  intro bytes s fuel depth _ _ _
  refine wlp_mono fetch_shown (fun w t hw heq => ?_) fun _ _ _ => trivial
  obtain ⟨b, _, _, hshown⟩ := hw
  exact h _ (heq ▸ hshown)

/-- A null is not read where no type byte with its type follows. -/
theorem misses_null (h : ∀ b ∈ rest.head?, l.type b ≠ some .dNull) :
    Misses l MAX_KEY_LEN target src .null rest := by
  intro bytes s fuel depth hw hdrop _
  obtain rfl := Option.some_inj.1 hw
  refine wlp_mono fetch_shown (fun w t hw heq => ?_) fun _ _ _ => trivial
  obtain ⟨b, more, hmore, hshown⟩ := hw
  rw [List.nil_append, hmore] at hdrop
  subst heq
  exact h b (by rw [← hdrop]; rfl) hshown

theorem misses_of_type {v : Value} (h : ∀ bytes, write l target v = some bytes →
    ∃ typ vs more, bytes = l.pack typ vs :: more ∧
      ∀ (t : Reader) (fuel depth : Nat), src.bytes.drop t.current = more ++ rest →
        src.bytes.length - t.current < fuel →
        wlp (fetchType (l.header MAX_KEY_LEN target) src (l.pack typ vs) fuel
          (fetch (l.header MAX_KEY_LEN target) src fuel depth)) (fun w _ => w ≠ v.val)
          (fun _ _ => True) t) : Misses l MAX_KEY_LEN target src v rest := by
  intro bytes s fuel depth hw hdrop hf
  obtain ⟨typ, vs, more, rfl, hread⟩ := h bytes hw
  have hholds : Holds src.bytes s.current (l.pack typ vs :: more) := ⟨rest, hdrop.symm⟩
  obtain ⟨fuel', t, hfuel, ht, -, heq⟩ :=
    fetch_type (l.header MAX_KEY_LEN target) depth hholds hf
  rw [wlp_congr heq]
  apply hread t fuel' (depth + 1) _ hfuel
  rw [ht, ← List.drop_drop, hdrop]
  rfl

/-- The count of four bytes does not hold the length. -/
theorem misses_buffer {data : List Byte} (hdata : ¬ data.length < 2 ^ 32) :
    Misses l MAX_KEY_LEN target src (.buffer data) rest := by
  apply misses_of_type
  intro bytes hw
  obtain rfl := Option.some_inj.1 hw
  rw [if_neg (by omega), if_neg (by omega)]
  refine ⟨.dBuffer, .s32, toBytes 4 data.length ++ data, rfl, fun t fuel depth hdrop _ => ?_⟩
  rw [List.append_assoc] at hdrop
  have hcount : fetchX src (some .s32) t =
      some (.ok (data.length % 256 ^ 4), t.to (t.current + 4)) := by
    have hbytes := fetchNumber_written (s := t) .s32 ⟨_, hdrop.symm⟩
    rw [← ofBytes_toBytes]
    exact bind_ok hbytes
  unfold fetchType fetchBuf
  rw [header_type, header_bsiz]
  show wlp (fetchX src (some .s32) >>= _) _ _ t
  rw [wlp_congr (bind_ok hcount), wlp_bind]
  refine wlp_mono (wlp_true _) (fun n u _ => ?_) fun _ _ _ => trivial
  rw [wlp_ite]
  refine ⟨fun _ => trivial, fun _ => wlp_bind_pure (P := fun w => w ≠ _) fun i heq => ?_⟩
  have hlen := congrArg List.length (Val.buffer.inj heq)
  have hle := List.length_take_le ((l.header MAX_KEY_LEN target).sizeT (data.length % 256 ^ 4))
    (src.bytes.drop i)
  have hmod := Nat.mod_le (data.length % 256 ^ 4)
    (2 ^ (l.header MAX_KEY_LEN target).target.sizeBits)
  have hlt := Nat.mod_lt data.length (show 256 ^ 4 > 0 by decide)
  unfold Header.sizeT at hle hlen
  omega

/-! ## Containers that hold one -/

/-- The first entry that does not fit. -/
theorem exists_first {α : Type} {P : α → Prop} {elements : List α} (h : ¬ ∀ e ∈ elements, P e) :
    ∃ pre e post, elements = pre ++ e :: post ∧ (∀ e ∈ pre, P e) ∧ ¬ P e := by
  induction elements with
  | nil => exact absurd nofun h
  | cons e elements ih =>
      by_cases hP : P e
      · have hlater : ¬ ∀ e ∈ elements, P e := fun hall => h (List.forall_mem_cons.2 ⟨hP, hall⟩)
        obtain ⟨pre, e', post, rfl, hpre, hnot⟩ := ih hlater
        exact ⟨e :: pre, e', post, rfl, List.forall_mem_cons.2 ⟨hP, hpre⟩, hnot⟩
      · exact ⟨[], e, elements, rfl, nofun, hP⟩

theorem writeElements_append {pre post : List (Nat × Value)} {bytes : List Byte}
    (h : writeElements l target (pre ++ post) = some bytes) :
    ∃ a b, writeElements l target pre = some a ∧ writeElements l target post = some b ∧
      bytes = a ++ b := by
  induction pre generalizing bytes with
  | nil => exact ⟨[], bytes, rfl, h, rfl⟩
  | cons e pre ih =>
      obtain ⟨idx, item⟩ := e
      obtain ⟨value, hvalue, hw⟩ := Option.bind_eq_some_iff.1 h
      obtain ⟨dumped, hdumped, hbytes⟩ := Option.bind_eq_some_iff.1 hw
      obtain rfl := Option.some_inj.1 hbytes
      obtain ⟨a, b, ha, hb, rfl⟩ := ih hdumped
      refine ⟨writeLeb128 target idx ++ (value ++ a), b, ?_, hb, by simp⟩
      rw [writeElements, hvalue, ha]
      rfl

theorem writePairs_append {pre post : List (List Byte × Value)} {bytes : List Byte}
    (h : writePairs l target (pre ++ post) = some bytes) :
    ∃ a b, writePairs l target pre = some a ∧ writePairs l target post = some b ∧
      bytes = a ++ b := by
  induction pre generalizing bytes with
  | nil => exact ⟨[], bytes, rfl, h, rfl⟩
  | cons e pre ih =>
      obtain ⟨name, item⟩ := e
      obtain ⟨key, hkey, hw⟩ := Option.bind_eq_some_iff.1 h
      obtain ⟨value, hvalue, hw⟩ := Option.bind_eq_some_iff.1 hw
      obtain ⟨dumped, hdumped, hbytes⟩ := Option.bind_eq_some_iff.1 hw
      obtain rfl := Option.some_inj.1 hbytes
      obtain ⟨a, b, ha, hb, rfl⟩ := ih hdumped
      refine ⟨key ++ (value ++ a), b, ?_, hb, by simp⟩
      rw [writePairs, hkey, hvalue, ha]
      rfl

theorem drop_append {bytes a b : List Byte} {i : Nat} (h : bytes.drop i = a ++ b) :
    Holds bytes i a ∧ bytes.drop (i + a.length) = b := by
  refine ⟨⟨b, h.symm⟩, ?_⟩
  rw [← List.drop_drop, h, List.drop_left]

theorem length_lt_of_writeCount {typ : ValueType} {n : Nat} {count : List Byte}
    (h : writeCount l typ n = some count) : n < 2 ^ target.sizeBits := by
  have hbits : 2 ^ 32 ≤ 2 ^ target.sizeBits := by
    cases target <;> exact Nat.pow_le_pow_right (by decide) (by decide)
  unfold writeCount at h
  split_ifs at h <;> omega

/-- Where an item is missed, the entry that is stored for it stays another one. -/
theorem fetchElements_misses {pre post : List (Nat × Value)} {idx fuel' : Nat} {item : Value}
    {value more : List Byte} (hsorted : Sorted (fun a b => a < b) (pre ++ (idx, item) :: post))
    (hsize : idx < 2 ^ target.sizeBits) (hlow : idx < 2 ^ 35)
    (hfit : (pre ++ (idx, item) :: post).length < 2 ^ target.sizeBits)
    (hw : write l target item = some value) (hmiss : Misses l MAX_KEY_LEN target src item more)
    (hdrop : src.bytes.drop s.current = writeLeb128 target idx ++ (value ++ more))
    (hf : src.bytes.length - s.current ≤ fuel') :
    wlp (fetchElements (l.header MAX_KEY_LEN target) src
        (fetch (l.header MAX_KEY_LEN target) src fuel' depth) (pre ++ (idx, item) :: post).length
        fuel pre.length (elementVals pre))
      (fun out _ => out ≠ elementVals (pre ++ (idx, item) :: post)) (fun _ _ => True) s := by
  have hcount : (pre ++ (idx, item) :: post).length = pre.length + 1 + post.length := by
    rw [List.length_append, List.length_cons]
    omega
  obtain ⟨hindex, hitem⟩ := drop_append hdrop
  have hbits : 0 < target.sizeBits := by cases target <;> decide
  have hnil : writeLeb128 target idx ≠ [] := leb128_ne_nil hbits idx
  have hpos := List.length_pos_iff.2 hnil
  have hle := hindex.length_le hnil
  have hm : (writeLeb128 target idx).length ≠ 0 := Nat.ne_of_gt hpos
  have hread : fetchLeb128 (l.header MAX_KEY_LEN target) src 5 s =
      some (.ok ((writeLeb128 target idx).length, BitVec.ofNat _ idx),
        s.to (s.current + (writeLeb128 target idx).length)) :=
    fetchLeb128_written (x := l.header MAX_KEY_LEN target) hindex hsize hlow
  have hnat : (BitVec.ofNat (l.header MAX_KEY_LEN target).target.sizeBits idx).toNat = idx :=
    (BitVec.toNat_ofNat _ _).trans (Nat.mod_eq_of_lt hsize)
  cases fuel with
  | zero => exact wlp_fault
  | succ fuel =>
      rw [fetchElements, wlp_ite]
      refine ⟨fun _ => ?_, fun hge => by omega⟩
      rw [wlp_congr (bind_ok hread)]
      simp only [if_neg hm]
      rw [wlp_bind]
      refine wlp_mono (hmiss value _ fuel' depth hw hitem (by rw [Reader.to_current]; omega))
        (fun w u hne => ?_) fun _ _ _ => trivial
      have hless : ∀ e ∈ elementVals pre,
          decide (e.1 < idx) = true ∧ decide (idx < e.1) = false := by
        intro e he
        rw [elementVals_eq] at he
        obtain ⟨e', he', rfl⟩ := List.mem_map.1 he
        have hlt := hsorted.lt_next e' he'
        simp only [decide_eq_true_eq, decide_eq_false_iff_not] at hlt ⊢
        omega
      have hround : pre.length + 1 < 2 ^ target.sizeBits := by omega
      rw [hnat, setElement_append w hless, sizeT_eq hround]
      refine wlp_mono (fetchElements_adds hfit (by omega)) (fun out v hout heq => ?_)
        fun _ _ _ => trivial
      have hlength : out.length = (elementVals pre ++ [(idx, w)]).length +
          ((pre ++ (idx, item) :: post).length - (pre.length + 1)) := by
        rw [heq, List.length_append, length_elementVals, length_elementVals, List.length_singleton]
        omega
      have hmem := hout.2 hlength (idx, w) (List.mem_append_right _ (List.mem_singleton.2 rfl))
      rw [heq, elementVals_eq] at hmem
      obtain ⟨e, he, hpair⟩ := List.mem_map.1 hmem
      have hsame := hsorted.item_eq (fun k => by simp) he (congrArg Prod.fst hpair)
      exact hne ((congrArg Prod.snd hpair).symm.trans (congrArg Value.val hsame))

/-- An array with an item that is missed is missed. -/
theorem misses_array {pre post : List (Nat × Value)} {idx : Nat} {item : Value}
    (hlen : src.bytes.length < 2 ^ target.sizeBits)
    (hsorted : Sorted (fun a b => a < b) (pre ++ (idx, item) :: post))
    (hidx : ∀ e ∈ pre ++ (idx, item) :: post, e.1 < 2 ^ target.sizeBits ∧ e.1 < 2 ^ 35)
    (hret : ∀ e ∈ pre, Returns l MAX_KEY_LEN target src e.2)
    (hmiss : ∀ dumped, writeElements l target post = some dumped →
      Misses l MAX_KEY_LEN target src item (dumped ++ rest)) :
    Misses l MAX_KEY_LEN target src (.array (pre ++ (idx, item) :: post)) rest := by
  apply misses_of_type
  intro bytes hw
  obtain ⟨count, hcount, hw⟩ := Option.bind_eq_some_iff.1 hw
  obtain ⟨dumped, hdumped, hbytes⟩ := Option.bind_eq_some_iff.1 hw
  obtain rfl := Option.some_inj.1 hbytes
  obtain ⟨vs, rfl, hlt⟩ := writeCount_eq_some hcount
  obtain ⟨before, behind, hbefore, hbehind, rfl⟩ := writeElements_append hdumped
  obtain ⟨value, hvalue, hw⟩ := Option.bind_eq_some_iff.1 hbehind
  obtain ⟨after, hafter, hbytes⟩ := Option.bind_eq_some_iff.1 hw
  obtain rfl := Option.some_inj.1 hbytes
  refine ⟨.dArray, vs, toBytes vs.bytes _ ++ (before ++ (writeLeb128 target idx ++
    (value ++ after))), rfl, fun t fuel depth hdrop hf => ?_⟩
  rw [List.append_assoc] at hdrop
  obtain ⟨hnumber, hdrop⟩ := drop_append hdrop
  rw [length_toBytes, List.append_assoc] at hdrop
  obtain ⟨hpre, hdrop⟩ := drop_append hdrop
  rw [List.append_assoc, List.append_assoc] at hdrop
  have hread := fetchX_written hnumber hlt
  obtain ⟨n, u, hn, hplaced, hcur, heq⟩ := fetchElements_written []
    (pre ++ (idx, item) :: post).length fuel fuel depth (s := t.to (t.current + vs.bytes)) hlen
    (List.pairwise_append.1 hsorted).1
    (fun e he => hidx e (List.mem_append_left _ he)) hret hbefore hpre (Nat.zero_le _)
    (by rw [List.length_append, List.length_nil]; omega) (by rw [Reader.to_current]; omega)
    (by rw [Reader.to_current]; omega)
  rw [Reader.to_current] at hcur
  rw [← hcur] at hdrop
  obtain ⟨hsize, hlow⟩ := hidx _ (List.mem_append_right _ List.mem_cons_self)
  unfold fetchType fetchArray
  rw [header_type, header_bsiz]
  show wlp (fetchX src (some vs) >>= _) _ _ t
  rw [wlp_congr (bind_ok hread), wlp_bind]
  refine (wlp_congr heq).2 ?_
  refine wlp_mono (fetchElements_misses hsorted hsize hlow (length_lt_of_writeCount hcount) hvalue
    (hmiss after hafter) hdrop (by omega)) (fun out v hne => ?_) fun _ _ _ => trivial
  rw [wlp_pure]
  exact fun h => hne (Val.array.inj h)

theorem nameLt_irrefl (name : List Byte) : nameLt name name = false := by
  rw [Bool.eq_false_iff]
  intro h
  rw [nameLt_asymm name name h] at h
  cases h

theorem fetchPairs_misses {pre post : List (List Byte × Value)} {name : List Byte} {fuel' : Nat}
    {item : Value} {key value more : List Byte} (hlen : src.bytes.length < 2 ^ target.sizeBits)
    (hsorted : Sorted nameLt (pre ++ (name, item) :: post)) (hzero : ∀ c ∈ name, c ≠ 0)
    (hfit : (pre ++ (name, item) :: post).length < 2 ^ target.sizeBits)
    (hkey : writeKey name = some key) (hw : write l target item = some value)
    (hmiss : Misses l MAX_KEY_LEN target src item more)
    (hdrop : src.bytes.drop s.current = key ++ (value ++ more))
    (hf : src.bytes.length - s.current ≤ fuel') :
    wlp (fetchPairs (l.header MAX_KEY_LEN target) src
        (fetch (l.header MAX_KEY_LEN target) src fuel' depth) (pre ++ (name, item) :: post).length
        fuel pre.length (pairVals pre))
      (fun out _ => out ≠ pairVals (pre ++ (name, item) :: post)) (fun _ _ => True) s := by
  have hcount : (pre ++ (name, item) :: post).length = pre.length + 1 + post.length := by
    rw [List.length_append, List.length_cons]
    omega
  obtain ⟨rfl, hlt⟩ := writeKey_eq_some hkey
  obtain ⟨hlead, hitem⟩ := drop_append hdrop
  have hkeyLen : (toBytes 1 (name.length + 1) ++ (name ++ [0])).length = 1 + (name.length + 1) := by
    simp
  have hle := hlead.length_le (by simp)
  rw [hkeyLen] at hle
  rw [hkeyLen, ← Nat.add_assoc] at hitem
  have hread := fetchKey_written (x := l.header MAX_KEY_LEN target) hlen hlead hlt
  have hstr : Holds src.bytes (s.current + 1) (charBytes 1 (name ++ [0])) := by
    rw [charBytes_one]
    exact (holds_append.1 hlead).2
  cases fuel with
  | zero => exact wlp_fault
  | succ fuel =>
      rw [fetchPairs, wlp_ite]
      refine ⟨fun _ => ?_, fun hge => by omega⟩
      rw [wlp_congr (bind_ok hread), wlp_bind]
      refine wlp_mono (hmiss value _ fuel' depth hw hitem (by rw [Reader.to_current]; omega))
        (fun w u hne => ?_) fun _ _ _ => trivial
      have hname : src.readStr 1 (s.current + 1) u = some (.ok name, u) :=
        readStr_written (by decide) hstr hzero
      rw [wlp_congr (bind_ok hname), wlp_ite]
      refine ⟨fun _ => trivial, fun _ => ?_⟩
      have hless : ∀ e ∈ pairVals pre, nameLt e.1 name = true ∧ nameLt name e.1 = false := by
        intro e he
        rw [pairVals_eq] at he
        obtain ⟨e', he', rfl⟩ := List.mem_map.1 he
        exact ⟨hsorted.lt_next e' he', nameLt_asymm _ _ (hsorted.lt_next e' he')⟩
      have hround : pre.length + 1 < 2 ^ target.sizeBits := by omega
      rw [setElement_append w hless, sizeT_eq hround]
      refine wlp_mono (fetchPairs_adds hfit (by omega)) (fun out v hout heq => ?_)
        fun _ _ _ => trivial
      have hlength : out.length = (pairVals pre ++ [(name, w)]).length +
          ((pre ++ (name, item) :: post).length - (pre.length + 1)) := by
        rw [heq, List.length_append, length_pairVals, length_pairVals, List.length_singleton]
        omega
      have hmem := hout.2 hlength (name, w) (List.mem_append_right _ (List.mem_singleton.2 rfl))
      rw [heq, pairVals_eq] at hmem
      obtain ⟨e, he, hpair⟩ := List.mem_map.1 hmem
      have hsame := hsorted.item_eq nameLt_irrefl he (congrArg Prod.fst hpair)
      exact hne ((congrArg Prod.snd hpair).symm.trans (congrArg Value.val hsame))

/-- An object with an item that is missed is missed. -/
theorem misses_object {pre post : List (List Byte × Value)} {name : List Byte} {item : Value}
    (hlen : src.bytes.length < 2 ^ target.sizeBits)
    (hsorted : Sorted nameLt (pre ++ (name, item) :: post))
    (hname : ∀ e ∈ pre ++ (name, item) :: post,
      (∀ c ∈ e.1, c ≠ 0) ∧ e.1.length ≠ 0 ∧ e.1.length ≤ MAX_KEY_LEN)
    (hret : ∀ e ∈ pre, Returns l MAX_KEY_LEN target src e.2)
    (hmiss : ∀ dumped, writePairs l target post = some dumped →
      Misses l MAX_KEY_LEN target src item (dumped ++ rest)) :
    Misses l MAX_KEY_LEN target src (.object (pre ++ (name, item) :: post)) rest := by
  apply misses_of_type
  intro bytes hw
  obtain ⟨count, hcount, hw⟩ := Option.bind_eq_some_iff.1 hw
  obtain ⟨dumped, hdumped, hbytes⟩ := Option.bind_eq_some_iff.1 hw
  obtain rfl := Option.some_inj.1 hbytes
  obtain ⟨vs, rfl, hlt⟩ := writeCount_eq_some hcount
  obtain ⟨before, behind, hbefore, hbehind, rfl⟩ := writePairs_append hdumped
  obtain ⟨key, hkey, hw⟩ := Option.bind_eq_some_iff.1 hbehind
  obtain ⟨value, hvalue, hw⟩ := Option.bind_eq_some_iff.1 hw
  obtain ⟨after, hafter, hbytes⟩ := Option.bind_eq_some_iff.1 hw
  obtain rfl := Option.some_inj.1 hbytes
  refine ⟨.dObject, vs, toBytes vs.bytes _ ++ (before ++ (key ++ (value ++ after))), rfl,
    fun t fuel depth hdrop hf => ?_⟩
  rw [List.append_assoc] at hdrop
  obtain ⟨hnumber, hdrop⟩ := drop_append hdrop
  rw [length_toBytes, List.append_assoc] at hdrop
  obtain ⟨hpre, hdrop⟩ := drop_append hdrop
  rw [List.append_assoc, List.append_assoc] at hdrop
  have hread := fetchX_written hnumber hlt
  obtain ⟨n, u, hn, hplaced, hcur, heq⟩ := fetchPairs_written []
    (pre ++ (name, item) :: post).length fuel fuel depth (s := t.to (t.current + vs.bytes)) hlen
    (List.pairwise_append.1 hsorted).1
    (fun e he => hname e (List.mem_append_left _ he)) hret hbefore hpre (Nat.zero_le _)
    (by rw [List.length_append, List.length_nil]; omega) (by rw [Reader.to_current]; omega)
    (by rw [Reader.to_current]; omega)
  rw [Reader.to_current] at hcur
  rw [← hcur] at hdrop
  obtain ⟨hzero, -⟩ := hname _ (List.mem_append_right _ List.mem_cons_self)
  unfold fetchType fetchDict
  rw [header_type, header_bsiz]
  show wlp (fetchX src (some vs) >>= _) _ _ t
  rw [wlp_congr (bind_ok hread), wlp_bind]
  refine (wlp_congr heq).2 ?_
  refine wlp_mono (fetchPairs_misses hlen hsorted hzero (length_lt_of_writeCount hcount) hkey hvalue
    (hmiss after hafter) hdrop (by omega)) (fun out v hne => ?_) fun _ _ _ => trivial
  rw [wlp_pure]
  exact fun h => hne (Val.object.inj h)

/-- The byte behind an item is the same for every layout of the type byte. -/
theorem writeElements_head (target : Target) (elements : List (Nat × Value)) (next : Option Byte) :
    ∃ first : Option Byte, ∀ (l : TypeByte) (dumped rest : List Byte),
      writeElements l target elements = some dumped → rest.head? = next →
      (dumped ++ rest).head? = first := by
  cases elements with
  | nil =>
      refine ⟨next, fun l dumped rest hw hrest => ?_⟩
      obtain rfl := Option.some_inj.1 hw
      exact hrest
  | cons e elements =>
      obtain ⟨idx, item⟩ := e
      have hbits : 0 < target.sizeBits := by cases target <;> decide
      obtain ⟨b, groups, hindex⟩ := List.exists_cons_of_ne_nil
        (show writeLeb128 target idx ≠ [] from leb128_ne_nil hbits idx)
      refine ⟨some b, fun l dumped rest hw _ => ?_⟩
      obtain ⟨value, _, hw⟩ := Option.bind_eq_some_iff.1 hw
      obtain ⟨more, _, hbytes⟩ := Option.bind_eq_some_iff.1 hw
      obtain rfl := Option.some_inj.1 hbytes
      rw [hindex]
      rfl

theorem writePairs_head (target : Target) (elements : List (List Byte × Value))
    (next : Option Byte) :
    ∃ first : Option Byte, ∀ (l : TypeByte) (dumped rest : List Byte),
      writePairs l target elements = some dumped → rest.head? = next →
      (dumped ++ rest).head? = first := by
  cases elements with
  | nil =>
      refine ⟨next, fun l dumped rest hw hrest => ?_⟩
      obtain rfl := Option.some_inj.1 hw
      exact hrest
  | cons e elements =>
      obtain ⟨name, item⟩ := e
      refine ⟨some (BitVec.ofNat 8 (name.length + 1)), fun l dumped rest hw _ => ?_⟩
      obtain ⟨key, hkey, hw⟩ := Option.bind_eq_some_iff.1 hw
      obtain ⟨value, _, hw⟩ := Option.bind_eq_some_iff.1 hw
      obtain ⟨more, _, hbytes⟩ := Option.bind_eq_some_iff.1 hw
      obtain rfl := Option.some_inj.1 hbytes
      rw [(writeKey_eq_some hkey).1]
      rfl

/-- By induction on the value: one that is not kept is missed, unless the null in it happens to
have a type byte of its own behind it. -/
theorem Value.Wf.missed {v : Value} (hwf : v.Wf MAX_KEY_LEN target) (hlost : ¬ v.Kept)
    (next : Option Byte) : ∃ avoid : Option Byte, ∀ l : TypeByte,
      (∀ b ∈ avoid, l.type b ≠ some .dNull) → ∀ (src : Buffer) (rest : List Byte),
      src.bytes.length < 2 ^ target.sizeBits → rest.head? = next →
      Misses l MAX_KEY_LEN target src v rest := by
  induction hwf generalizing next with
  | null => exact ⟨next, fun l h src rest _ hrest => misses_null (hrest ▸ h)⟩
  | int =>
      exact ⟨none, fun l _ src rest _ _ => misses_of_shown fun _ h => hlost (.int h)⟩
  | real => exact absurd .real hlost
  | localStr => exact absurd .localStr hlost
  | utf8Str => exact ⟨none, fun l _ src rest _ _ => misses_of_shown fun _ h => h⟩
  | uniStr => exact absurd .uniStr hlost
  | @array elements hsorted hidx hitems ih =>
      by_cases hlow : ∀ e ∈ elements, e.1 < 2 ^ 35
      · have hitem : ¬ ∀ e ∈ elements, e.2.Kept := fun h => hlost (.array hlow h)
        obtain ⟨pre, ⟨idx, item⟩, post, rfl, hpre, hnot⟩ := exists_first hitem
        obtain ⟨first, hfirst⟩ := writeElements_head target post next
        obtain ⟨avoid, h⟩ := ih _ (List.mem_append_right _ List.mem_cons_self) hnot first
        refine ⟨avoid, fun l hl src rest hlen hrest => ?_⟩
        refine misses_array hlen hsorted (fun e he => ⟨hidx e he, hlow e he⟩) (fun e he => ?_)
          fun dumped hw => h l hl src _ hlen (hfirst l dumped rest hw hrest)
        exact (hitems e (List.mem_append_left _ he)).returns (hpre e he) hlen
      · refine ⟨none, fun l _ src rest _ _ => misses_of_shown fun _ h => hlow fun e he => ?_⟩
        have hmem : (e.1, e.2.val) ∈ elementVals elements := by
          rw [elementVals_eq]
          exact List.mem_map.2 ⟨e, he, rfl⟩
        exact h _ hmem
  | @object elements hsorted hname hitems ih =>
      have hitem : ¬ ∀ e ∈ elements, e.2.Kept := fun h => hlost (.object h)
      obtain ⟨pre, ⟨name, item⟩, post, rfl, hpre, hnot⟩ := exists_first hitem
      obtain ⟨first, hfirst⟩ := writePairs_head target post next
      obtain ⟨avoid, h⟩ := ih _ (List.mem_append_right _ List.mem_cons_self) hnot first
      refine ⟨avoid, fun l hl src rest hlen hrest => ?_⟩
      refine misses_object hlen hsorted hname (fun e he => ?_)
        fun dumped hw => h l hl src _ hlen (hfirst l dumped rest hw hrest)
      exact (hitems e (List.mem_append_left _ he)).returns (hpre e he) hlen
  | buffer =>
      exact ⟨none, fun l _ src rest _ _ => misses_buffer fun h => hlost (.buffer h)⟩

/-! ## Layouts of the type byte -/

/-- Both write nothing, or both write as many bytes. -/
def SameLength (a a' : Option (List Byte)) : Prop := a.map List.length = a'.map List.length

theorem SameLength.bind {a a' : Option (List Byte)} {f f' : List Byte → Option (List Byte)}
    (h : SameLength a a')
    (hf : ∀ bytes bytes', bytes.length = bytes'.length → SameLength (f bytes) (f' bytes')) :
    SameLength (a.bind f) (a'.bind f') := by
  unfold SameLength at h
  cases a with
  | none =>
      cases a' with
      | none => rfl
      | some bytes' => cases h
  | some bytes =>
      cases a' with
      | none => cases h
      | some bytes' => exact hf bytes bytes' (Option.some_inj.1 h)

theorem sameLength_append {a a' b b' : List Byte} (ha : a.length = a'.length)
    (hb : b.length = b'.length) : SameLength (some (a ++ b)) (some (a' ++ b')) := by
  unfold SameLength
  rw [Option.map_some, Option.map_some, List.length_append, List.length_append, ha, hb]

theorem writeCount_sameLength (l l' : TypeByte) (typ : ValueType) (n : Nat) :
    SameLength (writeCount l typ n) (writeCount l' typ n) := by
  unfold writeCount
  split_ifs <;> rfl

theorem writeStr_sameLength (l l' : TypeByte) (typ : ValueType) (size : Nat)
    (str : List (BitVec (8 * size))) :
    SameLength (writeStr l typ size str) (writeStr l' typ size str) := by
  unfold writeStr
  rw [if_neg (Nat.succ_ne_zero _), if_neg (Nat.succ_ne_zero _)]
  exact (writeCount_sameLength l l' typ _).bind fun _ _ h => sameLength_append h rfl

theorem writeElements_sameLength {l l' : TypeByte} {elements : List (Nat × Value)}
    (h : ∀ e ∈ elements, SameLength (write l target e.2) (write l' target e.2)) :
    SameLength (writeElements l target elements) (writeElements l' target elements) := by
  induction elements with
  | nil => rfl
  | cons e elements ih =>
      obtain ⟨hitem, hitems⟩ := List.forall_mem_cons.1 h
      refine hitem.bind fun _ _ hvalue => (ih hitems).bind fun _ _ hdumped => ?_
      exact sameLength_append rfl (Option.some_inj.1 (sameLength_append hvalue hdumped))

theorem writePairs_sameLength {l l' : TypeByte} {elements : List (List Byte × Value)}
    (h : ∀ e ∈ elements, SameLength (write l target e.2) (write l' target e.2)) :
    SameLength (writePairs l target elements) (writePairs l' target elements) := by
  induction elements with
  | nil => rfl
  | cons e elements ih =>
      obtain ⟨hitem, hitems⟩ := List.forall_mem_cons.1 h
      have hkey : SameLength (writeKey e.1) (writeKey e.1) := rfl
      refine hkey.bind fun _ _ hkey => hitem.bind fun _ _ hvalue => (ih hitems).bind
        fun _ _ hdumped => ?_
      exact sameLength_append hkey (Option.some_inj.1 (sameLength_append hvalue hdumped))

/-- How much is written does not depend on the layout. -/
theorem Value.Wf.sameLength {v : Value} (hwf : v.Wf MAX_KEY_LEN target) (l l' : TypeByte) :
    SameLength (write l target v) (write l' target v) := by
  induction hwf with
  | null | int | real => rfl
  | localStr => exact writeStr_sameLength l l' .dLocalStr 1 _
  | utf8Str => exact writeStr_sameLength l l' .dUtf8Str 1 _
  | uniStr => exact writeStr_sameLength l l' .dUniStr 2 _
  | array _ _ _ ih =>
      refine (writeCount_sameLength l l' .dArray _).bind fun _ _ hcount => ?_
      exact (writeElements_sameLength ih).bind fun _ _ hdumped => sameLength_append hcount hdumped
  | object _ _ _ ih =>
      refine (writeCount_sameLength l l' .dObject _).bind fun _ _ hcount => ?_
      exact (writePairs_sameLength ih).bind fun _ _ hdumped => sameLength_append hcount hdumped
  | buffer =>
      refine sameLength_append ?_ rfl
      split_ifs <;> rfl

/-- A layout has the type in the low four bits, the width above it and the same highest bit
everywhere. -/
def layoutPack (high : Bool) (typ : ValueType) (vs : ValueSize) : Byte :=
  BitVec.ofNat 8 (typ.ctorIdx + 16 * vs.ctorIdx + 128 * high.toNat)

def layoutType (high : Bool) (vt : Byte) : Option ValueType :=
  if vt.msb = high then
    [.dNull, .dInt, .dReal, .dLocalStr, .dUtf8Str, .dUniStr, .dArray, .dObject, .dBuffer,
      .dUnknown][(vt &&& 0xF).toNat]?
  else none

def layoutSize (vt : Byte) : Option ValueSize :=
  [.s8, .s16, .s32, .s64][((vt >>> 4) &&& 3).toNat]?

theorem layout_type (high : Bool) (typ : ValueType) (vs : ValueSize) :
    layoutType high (layoutPack high typ vs) = some typ := by
  cases high <;> cases typ <;> cases vs <;> rfl

theorem layout_size (high : Bool) (typ : ValueType) (vs : ValueSize) :
    layoutSize (layoutPack high typ vs) = some vs := by
  cases high <;> cases typ <;> cases vs <;> rfl

def layout (high : Bool) : TypeByte :=
  ⟨layoutType high, layoutSize, layoutPack high, layout_type high, layout_size high⟩

/-- A byte can be avoided as the type byte of a null. -/
theorem exists_layout (avoid : Option Byte) :
    ∃ l : TypeByte, ∀ b ∈ avoid, l.type b ≠ some .dNull := by
  cases avoid with
  | none => exact ⟨layout false, nofun⟩
  | some b =>
      refine ⟨layout (!b.msb), fun b' hb => ?_⟩
      obtain rfl := Option.some_inj.1 hb
      show layoutType (!b.msb) b ≠ some .dNull
      unfold layoutType
      rw [if_neg (by simp)]
      simp

/-! ## The round trip -/

/-- The values that are kept are those that the reader gets back for every layout of the type
byte. -/
theorem roundTrips_iff {v : Value} {bytes : List Byte} (hwf : v.Wf MAX_KEY_LEN target)
    (hw : write l target v = some bytes) (hlen : bytes.length < 2 ^ target.sizeBits) :
    (∀ (l' : TypeByte) (bytes' : List Byte), write l' target v = some bytes' →
      RoundTrips l' MAX_KEY_LEN target v bytes') ↔ v.Kept := by
  constructor
  · intro hall
    by_cases hkept : v.Kept
    · exact hkept
    · exfalso
      obtain ⟨avoid, hmiss⟩ := hwf.missed hkept none
      obtain ⟨l', hl'⟩ := exists_layout avoid
      have hsame : SameLength (write l' target v) (write l target v) := hwf.sameLength l' l
      rw [hw] at hsame
      obtain ⟨bytes', hw', hlength⟩ := Option.map_eq_some_iff.1 hsame
      have hfits : bytes'.length < 2 ^ target.sizeBits := hlength ▸ hlen
      obtain ⟨t, ht, -⟩ := hall l' bytes' hw' [] ⟨bytes', []⟩ (bytes'.length + 1)
        (List.append_nil _).symm hfits (Nat.lt_succ_self _)
      have hread := hmiss l' hl' ⟨bytes', []⟩ [] hfits rfl bytes' .start (bytes'.length + 1) 1 hw'
        (List.append_nil _).symm (Nat.lt_succ_self _)
      exact wlp_ok hread ht rfl
  · intro hkept l bytes hw s src fuel hsrc hlen hf
    have hholds : Holds src.bytes Reader.start.current bytes := ⟨s, hsrc.symm⟩
    obtain ⟨t, ht, hcur⟩ := hwf.returns hkept hlen bytes .start fuel 1 hw hholds hf
    exact ⟨t, ht, hcur.trans (Nat.zero_add _)⟩

/-- An object with a wide string and an array whose index takes two bytes. -/
def sampleValue : Value :=
  .object [([0x61#8], .uniStr [0x4E2D#16]), ([0x62#8], .array [(300, .int .s32 (-7))])]

theorem sampleValue_wf : sampleValue.Wf 254 .x64 := by
  unfold sampleValue
  refine .object (by simp [Sorted, nameLt]) (by simp) (List.forall_mem_cons.2 ⟨?_, ?_⟩)
  · exact .uniStr (by simp)
  · exact List.forall_mem_singleton.2 (.array (List.pairwise_singleton _ _)
      (by simp [Target.sizeBits]) (List.forall_mem_singleton.2 .int))

theorem sampleValue_kept : sampleValue.Kept := by
  unfold sampleValue
  refine .object (List.forall_mem_cons.2 ⟨.uniStr, List.forall_mem_singleton.2 ?_⟩)
  exact .array (by simp) (List.forall_mem_singleton.2 (.int ⟨nofun, by decide⟩))

theorem roundTrips_sample : RoundTrips (layout false) 254 .x64 sampleValue
    [0x07, 2, 2, 0x61, 0, 0x05, 2, 0x2D, 0x4E, 0, 0, 2, 0x62, 0, 0x06, 1, 0x2C, 0x82, 0x21, 0xF9,
      0xFF, 0xFF, 0xFF] :=
  (roundTrips_iff (l := layout false) sampleValue_wf rfl (by decide)).2 sampleValue_kept
    (layout false) _ rfl

/-- An array with a null, behind which the reader takes the next index for a type byte. -/
theorem null_not_roundTrips :
    write (layout false) .x64 (.array [(0, .null), (1, .int .s8 5)]) =
      some [0x06#8, 2#8, 0x80#8, 0x81#8, 0x01#8, 5#8] ∧
    ¬ ∀ (l : TypeByte) (v : Value) (bytes : List Byte), v.Wf 254 .x64 →
      write l .x64 v = some bytes → RoundTrips l 254 .x64 v bytes := by
  refine ⟨rfl, fun hall => ?_⟩
  have hwf : (Value.array [(0, .null), (1, .int .s8 5)]).Wf 254 .x64 :=
    .array (by simp [Sorted]) (by simp [Target.sizeBits])
      (List.forall_mem_cons.2 ⟨.null, List.forall_mem_singleton.2 .int⟩)
  obtain ⟨t, ht, -⟩ := hall (layout false) _ _ hwf rfl []
    ⟨[0x06#8, 2#8, 0x80#8, 0x81#8, 0x01#8, 5#8], []⟩ 7 rfl (by decide) (by decide)
  have hfailed : fetch ((layout false).header 254 .x64)
      ⟨[0x06#8, 2#8, 0x80#8, 0x81#8, 0x01#8, 5#8], []⟩ 7 1 .start =
      some (.error .failed, ⟨4, 2, 2⟩) := rfl
  rw [hfailed] at ht
  cases ht

end Vin64.Xv
