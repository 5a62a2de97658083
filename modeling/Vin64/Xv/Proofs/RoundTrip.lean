import Vin64.Xv.Proofs.Written

/-!
# The reader gets back what the writer wrote

One lemma for each kind of value, and one for the loop of each container; a value that is kept is
read back by induction on it.
-/

namespace Vin64.Xv

open Vin64.Lib Vin64.Lib.Op Vin64.Utils

variable {l : TypeByte} {MAX_KEY_LEN : Nat} {target : Target} {src : Buffer} {s : Reader}
  {fuel depth : Nat} {bytes : List Byte}

/-- Wherever the bytes of the value lie in the buffer, `fetch` returns it and stops behind them. -/
def Returns (l : TypeByte) (MAX_KEY_LEN : Nat) (target : Target) (src : Buffer) (v : Value) :
    Prop :=
  ∀ (bytes : List Byte) (s : Reader) (fuel depth : Nat), write l target v = some bytes →
    Holds src.bytes s.current bytes → src.bytes.length - s.current < fuel →
    ∃ t, fetch (l.header MAX_KEY_LEN target) src fuel depth s = some (.ok v.val, t) ∧
      t.current = s.current + bytes.length

/-! ## The type byte -/

/-- A call of `fetch` reads the type byte. -/
theorem fetch_type (x : Header) (depth : Nat) {vt : Byte} {rest : List Byte}
    (h : Holds src.bytes s.current (vt :: rest)) (hf : src.bytes.length - s.current < fuel) :
    ∃ fuel' t, src.bytes.length - t.current < fuel' ∧ t.current = s.current + 1 ∧
      Holds src.bytes t.current rest ∧
      fetch x src fuel depth s = fetchType x src vt fuel' (fetch x src fuel' (depth + 1)) t := by
  have hsplit : Holds src.bytes s.current ([vt] ++ rest) := h
  obtain ⟨hbyte, hrest⟩ := holds_append.1 hsplit
  have hle := hbyte.length_le (by simp)
  rw [List.length_singleton] at hle
  cases fuel with
  | zero => omega
  | succ fuel =>
      have hone : ∀ u : Reader, u.current = s.current →
          src.fetchBytes 1 u = some (.ok [vt], u.to (u.current + 1)) :=
        fun u hu => fetchBytes_written (hu ▸ hbyte) (by simp)
      let u : Reader := { s with calls := s.calls + 1, deepest := max s.deepest depth }
      refine ⟨fuel, u.to (u.current + 1), ?_, rfl, hrest, ?_⟩
      · show src.bytes.length - (s.current + 1) < fuel
        omega
      · have henter : enter depth s = some (.ok (), u) := rfl
        rw [fetch, bind_ok henter, bind_ok (hone u rfl), ofBytes_singleton]

/-- The count in front of what a value holds. -/
theorem writeCount_eq_some {typ : ValueType} {n : Nat} {count : List Byte}
    (h : writeCount l typ n = some count) :
    ∃ vs, count = l.pack typ vs :: toBytes vs.bytes n ∧ n < 256 ^ vs.bytes := by
  unfold writeCount at h
  split_ifs at h with hbyte hword
  · exact ⟨.s8, (Option.some_inj.1 h).symm, hbyte⟩
  · exact ⟨.s16, (Option.some_inj.1 h).symm, hword⟩

theorem header_type (typ : ValueType) (vs : ValueSize) :
    (l.header MAX_KEY_LEN target).type (l.pack typ vs) = some typ := l.type_pack typ vs

theorem header_bsiz (typ : ValueType) (vs : ValueSize) :
    (l.header MAX_KEY_LEN target).bsiz (l.pack typ vs) = some vs := l.bsiz_pack typ vs

/-! ## Values that hold no other -/

/-- Reading the type byte and then what lies behind it is reading the value. -/
theorem returns_of_type {v : Value} (h : ∀ bytes, write l target v = some bytes →
    ∃ typ vs rest, bytes = l.pack typ vs :: rest ∧
      ∀ (t : Reader) (fuel depth : Nat), Holds src.bytes t.current rest →
        src.bytes.length - t.current < fuel →
        ∃ u, fetchType (l.header MAX_KEY_LEN target) src (l.pack typ vs) fuel
          (fetch (l.header MAX_KEY_LEN target) src fuel depth) t = some (.ok v.val, u) ∧
          u.current = t.current + rest.length) : Returns l MAX_KEY_LEN target src v := by
  intro bytes s fuel depth hw hholds hf
  obtain ⟨typ, vs, rest, rfl, hread⟩ := h bytes hw
  obtain ⟨fuel', t, hfuel, ht, hrest, heq⟩ :=
    fetch_type (l.header MAX_KEY_LEN target) depth hholds hf
  obtain ⟨u, hu, hcur⟩ := hread t fuel' (depth + 1) hrest hfuel
  refine ⟨u, heq.trans hu, ?_⟩
  rw [hcur, ht, List.length_cons]
  omega

theorem fetchNumber_kept {bsiz : ValueSize} {integer : BitVec 64} (hkept : IntKept bsiz integer)
    (h : Holds src.bytes s.current (toBytes bsiz.bytes integer.toNat)) :
    fetchNumber src (some bsiz) s =
      some (.ok (.int bsiz integer), s.to (s.current + bsiz.bytes)) := by
  have hnumber := fetchNumber_written bsiz h
  have hlow : BitVec.ofNat (8 * bsiz.bytes) (integer.toNat % 256 ^ bsiz.bytes) =
      integer.setWidth (8 * bsiz.bytes) := by
    apply BitVec.eq_of_toNat_eq
    rw [BitVec.toNat_ofNat, BitVec.toNat_setWidth, show 256 = 2 ^ 8 from rfl, ← Nat.pow_mul,
      Nat.mod_mod]
  have hread : (do
      let bytes ← src.fetchBytes bsiz.bytes
      return Val.int bsiz ((BitVec.ofNat (8 * bsiz.bytes) (ofBytes bytes)).signExtend 64)) s =
      some (.ok (.int bsiz integer), s.to (s.current + bsiz.bytes)) := by
    rw [bind_ok hnumber, ofBytes_toBytes, hlow, hkept.2]
    rfl
  cases bsiz with
  | s16 =>
      obtain rfl := hkept.1 rfl
      exact bind_ok hnumber
  | s8 | s32 | s64 => exact hread

theorem returns_int {bsiz : ValueSize} {integer : BitVec 64} (hkept : IntKept bsiz integer) :
    Returns l MAX_KEY_LEN target src (.int bsiz integer) := by
  apply returns_of_type
  intro bytes hw
  refine ⟨.dInt, bsiz, _, (Option.some_inj.1 hw).symm, fun t fuel depth h _ => ?_⟩
  refine ⟨t.to (t.current + bsiz.bytes), ?_, by simp⟩
  unfold fetchType
  rw [header_type, header_bsiz]
  exact fetchNumber_kept hkept h

theorem returns_real {bsiz : ValueSize} {bits : BitVec 64} :
    Returns l MAX_KEY_LEN target src (.real bsiz bits) := by
  apply returns_of_type
  intro bytes hw
  refine ⟨.dReal, bsiz, _, (Option.some_inj.1 hw).symm, fun t fuel depth h _ => ?_⟩
  have hbytes : src.fetchBytes 8 t = some (.ok (toBytes 8 bits.toNat), t.to (t.current + 8)) :=
    fetchNumber_written .s64 h
  have hbits : BitVec.ofNat 64 (ofBytes (toBytes 8 bits.toNat)) = bits := by
    rw [ofBytes_toBytes_of_lt bits.isLt, BitVec.ofNat_toNat, BitVec.setWidth_eq]
  refine ⟨t.to (t.current + 8), ?_, by simp⟩
  unfold fetchType fetchReal
  rw [header_type]
  show (src.fetchBytes 8 >>= fun bytes => pure (Val.real (BitVec.ofNat 64 (ofBytes bytes)))) t = _
  rw [bind_ok hbytes, hbits]
  rfl

/-- The bytes of a string. -/
theorem writeStr_eq_some {typ : ValueType} (size : Nat) {str : List (BitVec (8 * size))}
    (h : writeStr l typ size str = some bytes) :
    ∃ vs, bytes = l.pack typ vs :: (toBytes vs.bytes (str.length + 1) ++
      charBytes size (str ++ [0])) ∧ str.length + 1 < 256 ^ vs.bytes := by
  unfold writeStr at h
  rw [if_neg (Nat.succ_ne_zero _)] at h
  obtain ⟨count, hcount, hbytes⟩ := Option.bind_eq_some_iff.1 h
  obtain ⟨vs, rfl, hlt⟩ := writeCount_eq_some hcount
  exact ⟨vs, (Option.some_inj.1 hbytes).symm, hlt⟩

theorem returns_localStr {str : List Byte} (hlen : src.bytes.length < 2 ^ target.sizeBits)
    (hstr : ∀ c ∈ str, c ≠ 0) : Returns l MAX_KEY_LEN target src (.localStr str) := by
  apply returns_of_type
  intro bytes hw
  obtain ⟨vs, hbytes, hlt⟩ := writeStr_eq_some 1 hw
  refine ⟨.dLocalStr, vs, _, hbytes, fun t fuel depth h _ => ?_⟩
  have hread := fetchStr_written (l.header MAX_KEY_LEN target) (.inl rfl) hlen h hlt hstr
  refine ⟨t.to (t.current + vs.bytes + 1 * (str.length + 1)), ?_, ?_⟩
  · unfold fetchType
    rw [header_type, header_bsiz]
    exact bind_ok hread
  · simp [Nat.add_assoc]

theorem returns_uniStr {str : List (BitVec 16)} (hlen : src.bytes.length < 2 ^ target.sizeBits)
    (hstr : ∀ c ∈ str, c ≠ 0) : Returns l MAX_KEY_LEN target src (.uniStr str) := by
  apply returns_of_type
  intro bytes hw
  obtain ⟨vs, hbytes, hlt⟩ := writeStr_eq_some 2 hw
  refine ⟨.dUniStr, vs, _, hbytes, fun t fuel depth h _ => ?_⟩
  have hread := fetchStr_written (l.header MAX_KEY_LEN target) (.inr rfl) hlen h hlt hstr
  refine ⟨t.to (t.current + vs.bytes + 2 * (str.length + 1)), ?_, ?_⟩
  · unfold fetchType
    rw [header_type, header_bsiz]
    exact bind_ok hread
  · simp [Nat.add_assoc]

theorem returns_buffer {data : List Byte} (hlen : src.bytes.length < 2 ^ target.sizeBits)
    (hdata : data.length < 2 ^ 32) : Returns l MAX_KEY_LEN target src (.buffer data) := by
  apply returns_of_type
  intro bytes hw
  have hcount : ∃ vs, bytes = l.pack .dBuffer vs :: (toBytes vs.bytes data.length ++ data) ∧
      data.length < 256 ^ vs.bytes := by
    obtain rfl := Option.some_inj.1 hw
    split_ifs with hbyte hword
    · exact ⟨.s8, rfl, hbyte⟩
    · exact ⟨.s16, rfl, hword⟩
    · exact ⟨.s32, rfl, hdata⟩
  obtain ⟨vs, hbytes, hlt⟩ := hcount
  refine ⟨.dBuffer, vs, _, hbytes, fun t fuel depth h _ => ?_⟩
  have hread := fetchBuf_written (x := l.header MAX_KEY_LEN target) hlen h hlt
  refine ⟨t.to (t.current + vs.bytes + data.length), ?_, ?_⟩
  · unfold fetchType
    rw [header_type, header_bsiz]
    exact hread
  · simp [Nat.add_assoc]

/-! ## Containers -/

theorem elementVals_eq (elements : List (Nat × Value)) :
    elementVals elements = elements.map fun e => (e.1, e.2.val) := by
  induction elements with
  | nil => rfl
  | cons e elements ih => rw [elementVals, ih, List.map_cons]

theorem pairVals_eq (elements : List (List Byte × Value)) :
    pairVals elements = elements.map fun e => (e.1, e.2.val) := by
  induction elements with
  | nil => rfl
  | cons e elements ih => rw [pairVals, ih, List.map_cons]

@[simp] theorem length_elementVals (elements : List (Nat × Value)) :
    (elementVals elements).length = elements.length := by
  rw [elementVals_eq, List.length_map]

@[simp] theorem length_pairVals (elements : List (List Byte × Value)) :
    (pairVals elements).length = elements.length := by
  rw [pairVals_eq, List.length_map]

/-- The greatest key is stored last. -/
theorem setElement_append {κ : Type} {lt : κ → κ → Bool} {key : κ} (item : Val)
    {elements : List (κ × Val)}
    (h : ∀ e ∈ elements, lt e.1 key = true ∧ lt key e.1 = false) :
    setElement lt key item elements = elements ++ [(key, item)] := by
  induction elements with
  | nil => rfl
  | cons e elements ih =>
      obtain ⟨hlt, hnot⟩ := h e List.mem_cons_self
      have hrest := ih fun e' he' => h e' (List.mem_cons_of_mem _ he')
      simp [setElement, hlt, hnot, hrest]

theorem nameLt_asymm (a b : List Byte) (h : nameLt a b = true) : nameLt b a = false := by
  induction a generalizing b with
  | nil =>
      cases b with
      | nil => cases h
      | cons d b => rfl
  | cons c a ih =>
      cases b with
      | nil => cases h
      | cons d b =>
          unfold nameLt at h ⊢
          split_ifs at h with hlt hgt
          · rw [if_neg (by omega), if_pos hlt]
          · rw [if_neg hgt, if_neg hlt]
            exact ih b h

/-- The bytes of a key. -/
theorem writeKey_eq_some {name key : List Byte} (h : writeKey name = some key) :
    key = toBytes 1 (name.length + 1) ++ (name ++ [0]) ∧ name.length + 1 < 256 := by
  unfold writeKey at h
  by_cases hlong : 255 < name.length + 1
  · rw [if_pos hlong] at h
    cases h
  · rw [if_neg hlong] at h
    exact ⟨(Option.some_inj.1 h).symm, by omega⟩

/-- The keys that are stored are less than the next one. -/
theorem Sorted.lt_next {κ : Type} {lt : κ → κ → Bool} {key : κ} {item : Value}
    {done todo : List (κ × Value)} (h : Sorted lt (done ++ (key, item) :: todo)) :
    ∀ e ∈ done, lt e.1 key = true :=
  fun e he => (List.pairwise_append.1 h).2.2 e he _ List.mem_cons_self

section Loops

variable {fuel' : Nat}

/-- A round of the loop at an element that is read back. -/
theorem fetchElements_round (done : List (Nat × Value)) (elmts fuel depth : Nat) {idx : Nat}
    {item : Value} {value : List Byte} (hdone : done.length < elmts)
    (hfit : done.length + 1 < 2 ^ target.sizeBits)
    (hless : ∀ e ∈ done, decide (e.1 < idx) = true) (hsize : idx < 2 ^ target.sizeBits)
    (hlow : idx < 2 ^ 35) (hret : Returns l MAX_KEY_LEN target src item)
    (hw : write l target item = some value)
    (h : Holds src.bytes s.current (writeLeb128 target idx ++ value))
    (hf : src.bytes.length - s.current ≤ fuel') :
    ∃ t, fetchElements (l.header MAX_KEY_LEN target) src
        (fetch (l.header MAX_KEY_LEN target) src fuel' depth) elmts (fuel + 1) done.length
        (elementVals done) s =
      fetchElements (l.header MAX_KEY_LEN target) src
        (fetch (l.header MAX_KEY_LEN target) src fuel' depth) elmts fuel
        (done ++ [(idx, item)]).length (elementVals (done ++ [(idx, item)])) t ∧
      t.current = s.current + (writeLeb128 target idx ++ value).length := by
  have hbits : 0 < target.sizeBits := by cases target <;> decide
  have hnil : writeLeb128 target idx ≠ [] := leb128_ne_nil hbits idx
  have hpos := List.length_pos_iff.2 hnil
  obtain ⟨hindex, hitem⟩ := holds_append.1 h
  have hle := hindex.length_le hnil
  have hm : (writeLeb128 target idx).length ≠ 0 := Nat.ne_of_gt hpos
  have hread : fetchLeb128 (l.header MAX_KEY_LEN target) src 5 s =
      some (.ok ((writeLeb128 target idx).length, BitVec.ofNat _ idx),
        s.to (s.current + (writeLeb128 target idx).length)) :=
    fetchLeb128_written (x := l.header MAX_KEY_LEN target) hindex hsize hlow
  obtain ⟨t, ht, hcur⟩ := hret value (s.to (s.current + (writeLeb128 target idx).length)) fuel'
    depth hw hitem (by rw [Reader.to_current]; omega)
  rw [Reader.to_current] at hcur
  have hkeys : ∀ e ∈ elementVals done, decide (e.1 < idx) = true ∧ decide (idx < e.1) = false := by
    intro e he
    rw [elementVals_eq] at he
    obtain ⟨e', he', rfl⟩ := List.mem_map.1 he
    have hlt := hless e' he'
    simp only [decide_eq_true_eq, decide_eq_false_iff_not] at hlt ⊢
    omega
  have hset : setElement (fun a b => decide (a < b)) idx item.val (elementVals done) =
      elementVals (done ++ [(idx, item)]) := by
    rw [setElement_append item.val hkeys, elementVals_eq, elementVals_eq, List.map_append]
    rfl
  have hround : (l.header MAX_KEY_LEN target).sizeT (done.length + 1) =
      (done ++ [(idx, item)]).length := by
    rw [List.length_append, List.length_singleton]
    exact sizeT_eq hfit
  have hnat : (BitVec.ofNat (l.header MAX_KEY_LEN target).target.sizeBits idx).toNat = idx :=
    (BitVec.toNat_ofNat _ _).trans (Nat.mod_eq_of_lt hsize)
  refine ⟨t, ?_, by rw [List.length_append]; omega⟩
  rw [fetchElements, if_pos hdone, bind_ok hread]
  simp only [if_neg hm]
  rw [bind_ok ht, hnat, hset, hround]

/-- A round of the loop at a pair that is read back. -/
theorem fetchPairs_round (done : List (List Byte × Value)) (pairs fuel depth : Nat)
    {name : List Byte} {item : Value} {key value : List Byte}
    (hlen : src.bytes.length < 2 ^ target.sizeBits)
    (hdone : done.length < pairs) (hfit : done.length + 1 < 2 ^ target.sizeBits)
    (hless : ∀ e ∈ done, nameLt e.1 name = true) (hzero : ∀ c ∈ name, c ≠ 0)
    (hne : name.length ≠ 0) (hmax : name.length ≤ MAX_KEY_LEN)
    (hret : Returns l MAX_KEY_LEN target src item) (hkey : writeKey name = some key)
    (hw : write l target item = some value) (h : Holds src.bytes s.current (key ++ value))
    (hf : src.bytes.length - s.current ≤ fuel') :
    ∃ t, fetchPairs (l.header MAX_KEY_LEN target) src
        (fetch (l.header MAX_KEY_LEN target) src fuel' depth) pairs (fuel + 1) done.length
        (pairVals done) s =
      fetchPairs (l.header MAX_KEY_LEN target) src
        (fetch (l.header MAX_KEY_LEN target) src fuel' depth) pairs fuel
        (done ++ [(name, item)]).length (pairVals (done ++ [(name, item)])) t ∧
      t.current = s.current + (key ++ value).length := by
  obtain ⟨rfl, hlt⟩ := writeKey_eq_some hkey
  obtain ⟨hlead, hitem⟩ := holds_append.1 h
  have hle := hlead.length_le (by simp)
  have hkeyLen : (toBytes 1 (name.length + 1) ++ (name ++ [0])).length = 1 + (name.length + 1) := by
    simp
  rw [hkeyLen] at hitem hle
  have hread := fetchKey_written (x := l.header MAX_KEY_LEN target) hlen hlead hlt
  obtain ⟨t, ht, hcur⟩ := hret value (s.to (s.current + 1 + (name.length + 1))) fuel' depth hw
    (by rw [Reader.to_current, Nat.add_assoc]; exact hitem) (by rw [Reader.to_current]; omega)
  rw [Reader.to_current] at hcur
  have hstr : Holds src.bytes (s.current + 1) (charBytes 1 (name ++ [0])) := by
    rw [charBytes_one]
    exact (holds_append.1 hlead).2
  have hname : src.readStr 1 (s.current + 1) t = some (.ok name, t) :=
    readStr_written (by decide) hstr hzero
  have hkeys : ∀ e ∈ pairVals done, nameLt e.1 name = true ∧ nameLt name e.1 = false := by
    intro e he
    rw [pairVals_eq] at he
    obtain ⟨e', he', rfl⟩ := List.mem_map.1 he
    exact ⟨hless e' he', nameLt_asymm _ _ (hless e' he')⟩
  have hset : setElement nameLt name item.val (pairVals done) =
      pairVals (done ++ [(name, item)]) := by
    rw [setElement_append item.val hkeys, pairVals_eq, pairVals_eq, List.map_append]
    rfl
  have hround : (l.header MAX_KEY_LEN target).sizeT (done.length + 1) =
      (done ++ [(name, item)]).length := by
    rw [List.length_append, List.length_singleton]
    exact sizeT_eq hfit
  have hallowed : ¬ (name.length = 0 ∨
      (l.header MAX_KEY_LEN target).MAX_KEY_LEN < name.length) := by
    rintro (h | h)
    · exact hne h
    · exact absurd hmax (Nat.not_le.2 h)
  refine ⟨t, ?_, by rw [List.length_append, hkeyLen]; omega⟩
  rw [fetchPairs, if_pos hdone, bind_ok hread, bind_ok ht, bind_ok hname, if_neg hallowed, hset,
    hround]

/-- The rounds of the loop at elements that are read back. -/
theorem fetchElements_written (done : List (Nat × Value)) {todo : List (Nat × Value)}
    (elmts fuel fuel' depth : Nat)
    (hlen : src.bytes.length < 2 ^ target.sizeBits)
    (hsorted : Sorted (fun a b => a < b) (done ++ todo))
    (hidx : ∀ e ∈ todo, e.1 < 2 ^ target.sizeBits ∧ e.1 < 2 ^ 35)
    (hret : ∀ e ∈ todo, Returns l MAX_KEY_LEN target src e.2)
    (hw : writeElements l target todo = some bytes) (h : Holds src.bytes s.current bytes)
    (hdone : done.length ≤ s.current) (helmts : done.length + todo.length ≤ elmts)
    (hf : src.bytes.length - s.current < fuel) (hf' : src.bytes.length - s.current ≤ fuel') :
    ∃ n t, src.bytes.length - t.current < n ∧ (done ++ todo).length ≤ t.current ∧
      t.current = s.current + bytes.length ∧
      fetchElements (l.header MAX_KEY_LEN target) src
          (fetch (l.header MAX_KEY_LEN target) src fuel' depth) elmts fuel done.length
          (elementVals done) s =
        fetchElements (l.header MAX_KEY_LEN target) src
          (fetch (l.header MAX_KEY_LEN target) src fuel' depth) elmts n (done ++ todo).length
          (elementVals (done ++ todo)) t := by
  induction todo generalizing done s bytes fuel with
  | nil =>
      obtain rfl := Option.some_inj.1 hw
      rw [List.append_nil]
      exact ⟨fuel, s, hf, hdone, rfl, rfl⟩
  | cons e todo ih =>
      obtain ⟨idx, item⟩ := e
      obtain ⟨value, hvalue, hw⟩ := Option.bind_eq_some_iff.1 hw
      obtain ⟨dumped, hdumped, hbytes⟩ := Option.bind_eq_some_iff.1 hw
      obtain rfl := Option.some_inj.1 hbytes
      rw [← List.append_assoc] at h ⊢
      obtain ⟨hitem, hmore⟩ := holds_append.1 h
      have hbits : 0 < target.sizeBits := by cases target <;> decide
      have hnil : writeLeb128 target idx ≠ [] := leb128_ne_nil hbits idx
      have hpos : 0 < (writeLeb128 target idx ++ value).length :=
        List.length_pos_iff.2 (List.append_ne_nil_of_left_ne_nil hnil value)
      have hle := hitem.length_le (List.length_pos_iff.1 hpos)
      rw [List.length_cons] at helmts
      have hassoc : done ++ (idx, item) :: todo = done ++ [(idx, item)] ++ todo := by simp
      cases fuel with
      | zero => omega
      | succ fuel =>
          obtain ⟨hsize, hlow⟩ := hidx _ List.mem_cons_self
          obtain ⟨t, heq, hcur⟩ := fetchElements_round done elmts fuel depth (by omega)
            (by omega) hsorted.lt_next hsize hlow (hret _ List.mem_cons_self) hvalue hitem hf'
          obtain ⟨n, u, hn, hplaced, hucur, heq'⟩ := ih (done ++ [(idx, item)]) fuel (s := t)
            (hassoc ▸ hsorted) (fun e he => hidx e (List.mem_cons_of_mem _ he))
            (fun e he => hret e (List.mem_cons_of_mem _ he)) hdumped (hcur ▸ hmore)
            (by rw [List.length_append, List.length_singleton]; omega)
            (by rw [List.length_append, List.length_singleton]; omega) (by omega) (by omega)
          refine ⟨n, u, hn, hassoc ▸ hplaced, ?_, ?_⟩
          · rw [List.length_append, hucur, hcur, Nat.add_assoc]
          · rw [heq, heq', hassoc]

/-- The rounds of the loop at pairs that are read back. -/
theorem fetchPairs_written (done : List (List Byte × Value)) {todo : List (List Byte × Value)}
    (pairs fuel fuel' depth : Nat)
    (hlen : src.bytes.length < 2 ^ target.sizeBits) (hsorted : Sorted nameLt (done ++ todo))
    (hname : ∀ e ∈ todo, (∀ c ∈ e.1, c ≠ 0) ∧ e.1.length ≠ 0 ∧ e.1.length ≤ MAX_KEY_LEN)
    (hret : ∀ e ∈ todo, Returns l MAX_KEY_LEN target src e.2)
    (hw : writePairs l target todo = some bytes) (h : Holds src.bytes s.current bytes)
    (hdone : done.length ≤ s.current) (hpairs : done.length + todo.length ≤ pairs)
    (hf : src.bytes.length - s.current < fuel) (hf' : src.bytes.length - s.current ≤ fuel') :
    ∃ n t, src.bytes.length - t.current < n ∧ (done ++ todo).length ≤ t.current ∧
      t.current = s.current + bytes.length ∧
      fetchPairs (l.header MAX_KEY_LEN target) src
          (fetch (l.header MAX_KEY_LEN target) src fuel' depth) pairs fuel done.length
          (pairVals done) s =
        fetchPairs (l.header MAX_KEY_LEN target) src
          (fetch (l.header MAX_KEY_LEN target) src fuel' depth) pairs n (done ++ todo).length
          (pairVals (done ++ todo)) t := by
  induction todo generalizing done s bytes fuel with
  | nil =>
      obtain rfl := Option.some_inj.1 hw
      rw [List.append_nil]
      exact ⟨fuel, s, hf, hdone, rfl, rfl⟩
  | cons e todo ih =>
      obtain ⟨name, item⟩ := e
      obtain ⟨key, hkey, hw⟩ := Option.bind_eq_some_iff.1 hw
      obtain ⟨value, hvalue, hw⟩ := Option.bind_eq_some_iff.1 hw
      obtain ⟨dumped, hdumped, hbytes⟩ := Option.bind_eq_some_iff.1 hw
      obtain rfl := Option.some_inj.1 hbytes
      rw [← List.append_assoc] at h ⊢
      obtain ⟨hitem, hmore⟩ := holds_append.1 h
      have hpos : 0 < (key ++ value).length := by
        rw [(writeKey_eq_some hkey).1, List.length_append, List.length_append, length_toBytes]
        omega
      have hle := hitem.length_le (List.length_pos_iff.1 hpos)
      rw [List.length_cons] at hpairs
      have hassoc : done ++ (name, item) :: todo = done ++ [(name, item)] ++ todo := by simp
      cases fuel with
      | zero => omega
      | succ fuel =>
          obtain ⟨hzero, hne, hmax⟩ := hname _ List.mem_cons_self
          obtain ⟨t, heq, hcur⟩ := fetchPairs_round done pairs fuel depth hlen (by omega)
            (by omega) hsorted.lt_next hzero hne hmax (hret _ List.mem_cons_self) hkey hvalue
            hitem hf'
          obtain ⟨n, u, hn, hplaced, hucur, heq'⟩ := ih (done ++ [(name, item)]) fuel (s := t)
            (hassoc ▸ hsorted) (fun e he => hname e (List.mem_cons_of_mem _ he))
            (fun e he => hret e (List.mem_cons_of_mem _ he)) hdumped (hcur ▸ hmore)
            (by rw [List.length_append, List.length_singleton]; omega)
            (by rw [List.length_append, List.length_singleton]; omega) (by omega) (by omega)
          refine ⟨n, u, hn, hassoc ▸ hplaced, ?_, ?_⟩
          · rw [List.length_append, hucur, hcur, Nat.add_assoc]
          · rw [heq, heq', hassoc]

end Loops

/-- The loop ends when it has read all elements. -/
theorem fetchElements_end {x : Header} {op : ReaderM Val} {elmts : Nat}
    {elements : List (Nat × Val)} (hf : 0 < fuel) :
    fetchElements x src op elmts fuel elmts elements s = some (.ok elements, s) := by
  obtain ⟨fuel, rfl⟩ : ∃ n, fuel = n + 1 := ⟨fuel - 1, by omega⟩
  unfold fetchElements
  rw [if_neg (Nat.lt_irrefl _)]
  rfl

theorem fetchPairs_end {x : Header} {op : ReaderM Val} {pairs : Nat}
    {elements : List (List Byte × Val)} (hf : 0 < fuel) :
    fetchPairs x src op pairs fuel pairs elements s = some (.ok elements, s) := by
  obtain ⟨fuel, rfl⟩ : ∃ n, fuel = n + 1 := ⟨fuel - 1, by omega⟩
  unfold fetchPairs
  rw [if_neg (Nat.lt_irrefl _)]
  rfl

theorem returns_array {elements : List (Nat × Value)}
    (hlen : src.bytes.length < 2 ^ target.sizeBits)
    (hsorted : Sorted (fun a b => a < b) elements)
    (hidx : ∀ e ∈ elements, e.1 < 2 ^ target.sizeBits ∧ e.1 < 2 ^ 35)
    (hret : ∀ e ∈ elements, Returns l MAX_KEY_LEN target src e.2) :
    Returns l MAX_KEY_LEN target src (.array elements) := by
  apply returns_of_type
  intro bytes hw
  obtain ⟨count, hcount, hw⟩ := Option.bind_eq_some_iff.1 hw
  obtain ⟨dumped, hdumped, hbytes⟩ := Option.bind_eq_some_iff.1 hw
  obtain rfl := Option.some_inj.1 hbytes
  obtain ⟨vs, rfl, hlt⟩ := writeCount_eq_some hcount
  refine ⟨.dArray, vs, toBytes vs.bytes elements.length ++ dumped, rfl,
    fun t fuel depth h hf => ?_⟩
  rw [holds_append, length_toBytes] at h
  obtain ⟨n, u, hn, _, hcur, heq⟩ := fetchElements_written [] _ fuel fuel depth
    (s := t.to (t.current + vs.bytes)) hlen hsorted
    hidx hret hdumped h.2 (Nat.zero_le _) (Nat.le_of_eq (Nat.zero_add _))
    (by rw [Reader.to_current]; omega) (by rw [Reader.to_current]; omega)
  rw [Reader.to_current] at hcur
  refine ⟨u, ?_, by rw [List.length_append, length_toBytes]; omega⟩
  unfold fetchType fetchArray
  rw [header_type, header_bsiz]
  exact (bind_ok (fetchX_written h.1 hlt)).trans
    (bind_ok (heq.trans (fetchElements_end (by omega))))

theorem returns_object {elements : List (List Byte × Value)}
    (hlen : src.bytes.length < 2 ^ target.sizeBits) (hsorted : Sorted nameLt elements)
    (hname : ∀ e ∈ elements, (∀ c ∈ e.1, c ≠ 0) ∧ e.1.length ≠ 0 ∧ e.1.length ≤ MAX_KEY_LEN)
    (hret : ∀ e ∈ elements, Returns l MAX_KEY_LEN target src e.2) :
    Returns l MAX_KEY_LEN target src (.object elements) := by
  apply returns_of_type
  intro bytes hw
  obtain ⟨count, hcount, hw⟩ := Option.bind_eq_some_iff.1 hw
  obtain ⟨dumped, hdumped, hbytes⟩ := Option.bind_eq_some_iff.1 hw
  obtain rfl := Option.some_inj.1 hbytes
  obtain ⟨vs, rfl, hlt⟩ := writeCount_eq_some hcount
  refine ⟨.dObject, vs, toBytes vs.bytes elements.length ++ dumped, rfl,
    fun t fuel depth h hf => ?_⟩
  rw [holds_append, length_toBytes] at h
  obtain ⟨n, u, hn, _, hcur, heq⟩ := fetchPairs_written [] _ fuel fuel depth
    (s := t.to (t.current + vs.bytes)) hlen hsorted
    hname hret hdumped h.2 (Nat.zero_le _) (Nat.le_of_eq (Nat.zero_add _))
    (by rw [Reader.to_current]; omega) (by rw [Reader.to_current]; omega)
  rw [Reader.to_current] at hcur
  refine ⟨u, ?_, by rw [List.length_append, length_toBytes]; omega⟩
  unfold fetchType fetchDict
  rw [header_type, header_bsiz]
  exact (bind_ok (fetchX_written h.1 hlt)).trans
    (bind_ok (heq.trans (fetchPairs_end (by omega))))

/-! ## Values that are kept -/

/-- By induction on the value: what is kept is read back, wherever its bytes lie. -/
theorem Value.Wf.returns {v : Value} (hwf : v.Wf MAX_KEY_LEN target) (hkept : v.Kept)
    (hlen : src.bytes.length < 2 ^ target.sizeBits) : Returns l MAX_KEY_LEN target src v := by
  induction hwf with
  | null => cases hkept
  | int =>
      cases hkept with
      | int h => exact returns_int h
  | real => exact returns_real
  | localStr hstr => exact returns_localStr hlen hstr
  | utf8Str => cases hkept
  | uniStr hstr => exact returns_uniStr hlen hstr
  | array hsorted hidx _ ih =>
      cases hkept with
      | array hlow hitems =>
          exact returns_array hlen hsorted (fun e he => ⟨hidx e he, hlow e he⟩)
            fun e he => ih e he (hitems e he)
  | object hsorted hname _ ih =>
      cases hkept with
      | object hitems =>
          exact returns_object hlen hsorted hname fun e he => ih e he (hitems e he)
  | buffer _ =>
      cases hkept with
      | buffer h => exact returns_buffer hlen h

end Vin64.Xv
