import Vin64.Xv.Proofs.Fields
import Vin64.Xv.RoundTrip

/-!
# Reading what was written

One lemma for each operation of the reader says what it does at the bytes that the writer puts
there, and where it leaves the cursor.
-/

namespace Vin64.Xv

open Vin64.Lib Vin64.Lib.Op Vin64.Utils

/-! ## Bytes at an address -/

/-- The bytes lie at `i`. -/
def Holds (bytes : List Byte) (i : Nat) (written : List Byte) : Prop := written <+: bytes.drop i

section Holds

variable {bytes a b : List Byte} {i : Nat}

theorem holds_append : Holds bytes i (a ++ b) ↔ Holds bytes i a ∧ Holds bytes (i + a.length) b := by
  unfold Holds
  rw [← List.drop_drop]
  constructor
  · rintro ⟨t, ht⟩
    rw [← ht, List.append_assoc, List.drop_left]
    exact ⟨List.prefix_append a (b ++ t), List.prefix_append b t⟩
  · rintro ⟨⟨t, ht⟩, hb⟩
    rw [← ht, List.drop_left] at hb
    rw [← ht]
    exact (List.prefix_append_right_inj a).2 hb

theorem Holds.length_le (h : Holds bytes i a) (ha : a ≠ []) : i + a.length ≤ bytes.length := by
  have hle := List.IsPrefix.length_le h
  have hpos := List.length_pos_iff.2 ha
  rw [List.length_drop] at hle
  omega

theorem Holds.take_eq (h : Holds bytes i a) : (bytes.drop i).take a.length = a :=
  (List.prefix_iff_eq_take.1 h).symm

/-- What lies in the buffer lies in the memory. -/
theorem Holds.append_right (h : Holds bytes i a) (behind : List Byte) :
    Holds (bytes ++ behind) i a := by
  by_cases ha : a = []
  · subst ha
    exact List.nil_prefix
  · have hle := h.length_le ha
    unfold Holds
    rw [List.drop_append_of_le_length (by omega)]
    exact List.IsPrefix.trans h (List.prefix_append _ behind)

end Holds

/-! ## Numbers -/

@[simp] theorem length_toBytes (size n : Nat) : (toBytes size n).length = size := by
  induction size generalizing n with
  | zero => rfl
  | succ size ih => rw [toBytes, List.length_cons, ih]

theorem toBytes_ne_nil {size : Nat} (h : 0 < size) (n : Nat) : toBytes size n ≠ [] := by
  intro hnil
  have := length_toBytes size n
  rw [hnil, List.length_nil] at this
  omega

theorem ofBytes_toBytes (size n : Nat) : ofBytes (toBytes size n) = n % 256 ^ size := by
  induction size generalizing n with
  | zero => rw [Nat.pow_zero, Nat.mod_one]; rfl
  | succ size ih =>
      have hpow : 256 ^ (size + 1) = 256 * 256 ^ size := by rw [Nat.pow_succ, Nat.mul_comm]
      rw [toBytes, ofBytes, ih, BitVec.toNat_ofNat, hpow, Nat.mod_mul]

theorem ofBytes_toBytes_of_lt {size n : Nat} (h : n < 256 ^ size) :
    ofBytes (toBytes size n) = n := by
  rw [ofBytes_toBytes, Nat.mod_eq_of_lt h]

theorem ofBytes_singleton (b : Byte) : BitVec.ofNat 8 (ofBytes [b]) = b := by
  show BitVec.ofNat 8 (b.toNat + 256 * 0) = b
  rw [Nat.mul_zero, Nat.add_zero, BitVec.ofNat_toNat, BitVec.setWidth_eq]

@[simp] theorem length_charBytes (size : Nat) (str : List (BitVec (8 * size))) :
    (charBytes size str).length = size * str.length := by
  induction str with
  | nil => rfl
  | cons c str ih =>
      show (toBytes size c.toNat ++ charBytes size str).length = _
      rw [List.length_append, length_toBytes, ih, List.length_cons, Nat.mul_succ, Nat.add_comm]

/-- Characters of one byte are the bytes. -/
theorem charBytes_one (str : List Byte) : charBytes 1 str = str := by
  induction str with
  | nil => rfl
  | cons c str ih =>
      show toBytes 1 c.toNat ++ charBytes 1 str = _
      rw [ih]
      show BitVec.ofNat 8 c.toNat :: str = c :: str
      rw [BitVec.ofNat_toNat, BitVec.setWidth_eq]

/-! ## Operations of the reader -/

/-- The reader at another address. -/
def Reader.to (s : Reader) (i : Nat) : Reader := { s with current := i }

@[simp] theorem Reader.to_current (s : Reader) (i : Nat) : (s.to i).current = i := rfl

@[simp] theorem Reader.to_to (s : Reader) (i j : Nat) : (s.to i).to j = s.to j := rfl

variable {x : Header} {src : Buffer} {s : Reader}

theorem fetchBytes_written {written : List Byte} (h : Holds src.bytes s.current written)
    (hne : written ≠ []) : src.fetchBytes written.length s =
      some (.ok written, s.to (s.current + written.length)) := by
  have hle := h.length_le hne
  unfold Buffer.fetchBytes
  rw [bind_ok (show Op.get s = some (.ok s, s) from rfl), if_neg (by omega)]
  show some (Except.ok ((src.bytes.drop s.current).take written.length), _) = _
  rw [h.take_eq]
  rfl

theorem fetchNumber_written (vs : ValueSize) {n : Nat}
    (h : Holds src.bytes s.current (toBytes vs.bytes n)) :
    src.fetchBytes vs.bytes s = some (.ok (toBytes vs.bytes n), s.to (s.current + vs.bytes)) := by
  have hpos : 0 < vs.bytes := by cases vs <;> decide
  have := fetchBytes_written h (toBytes_ne_nil hpos n)
  rwa [length_toBytes] at this

theorem fetchX_written {vs : ValueSize} {n : Nat}
    (h : Holds src.bytes s.current (toBytes vs.bytes n)) (hn : n < 256 ^ vs.bytes) :
    fetchX src (some vs) s = some (.ok n, s.to (s.current + vs.bytes)) := by
  show (src.fetchBytes vs.bytes >>= fun bytes => pure (ofBytes bytes)) s = _
  rw [bind_ok (fetchNumber_written vs h), ofBytes_toBytes_of_lt hn]
  rfl

theorem fetchPtr_written {size count : Nat} (hcount : size * count < 2 ^ x.target.sizeBits)
    (hle : s.current + size * count ≤ src.bytes.length) :
    src.fetchPtr x size count s = some (.ok s.current, s.to (s.current + size * count)) := by
  unfold Buffer.fetchPtr
  rw [sizeT_eq hcount]
  have hrest : src.rest s = some (.ok (src.bytes.length - s.current), s) := rfl
  rw [bind_ok hrest, if_neg (by omega)]
  rfl

/-! ### Strings -/

theorem charAt_written {memory : List Byte} {size i : Nat} {c : BitVec (8 * size)}
    (hsize : 0 < size) (h : Holds memory i (toBytes size c.toNat)) :
    charAt memory size i = some c := by
  have hle := h.length_le (toBytes_ne_nil hsize _)
  have htake := h.take_eq
  rw [length_toBytes] at hle htake
  unfold charAt
  have hlt : c.toNat < 256 ^ size := by
    rw [show 256 = 2 ^ 8 from rfl, ← Nat.pow_mul]
    exact c.isLt
  rw [if_pos hle, htake, ofBytes_toBytes_of_lt hlt, BitVec.ofNat_toNat, BitVec.setWidth_eq]

theorem charsAt_written {memory : List Byte} {size i fuel : Nat} {str : List (BitVec (8 * size))}
    (hsize : 0 < size) (h : Holds memory i (charBytes size (str ++ [0])))
    (hstr : ∀ c ∈ str, c ≠ 0) (hf : str.length < fuel) : charsAt memory size fuel i = some str := by
  induction str generalizing i fuel with
  | nil =>
      obtain ⟨fuel, rfl⟩ : ∃ n, fuel = n + 1 := ⟨fuel - 1, by omega⟩
      have h : Holds memory i (toBytes size (0 : BitVec (8 * size)).toNat) := by
        simpa [charBytes] using h
      simp [charsAt, charAt_written hsize h]
  | cons c str ih =>
      obtain ⟨fuel, rfl⟩ : ∃ n, fuel = n + 1 := ⟨fuel - 1, by omega⟩
      have h : Holds memory i (toBytes size c.toNat ++ charBytes size (str ++ [0])) := h
      rw [holds_append, length_toBytes] at h
      have hc : ¬ c = 0#(8 * size) := hstr c List.mem_cons_self
      have hrest := ih h.2 (fun c hc => hstr c (List.mem_cons_of_mem _ hc))
        (Nat.lt_of_succ_lt_succ hf)
      simp [charsAt, charAt_written hsize h.1, hc, hrest]

theorem readStr_written {size i : Nat} {str : List (BitVec (8 * size))} (hsize : 0 < size)
    (h : Holds src.bytes i (charBytes size (str ++ [0]))) (hstr : ∀ c ∈ str, c ≠ 0) :
    src.readStr size i s = some (.ok str, s) := by
  have hmem : Holds src.memory i (charBytes size (str ++ [0])) := h.append_right src.behind
  have hlen : str.length < src.memory.length + 1 := by
    have hle := List.IsPrefix.length_le hmem
    rw [length_charBytes, List.length_drop, List.length_append, List.length_singleton] at hle
    have := Nat.le_mul_of_pos_left (str.length + 1) hsize
    omega
  unfold Buffer.readStr
  rw [charsAt_written hsize hmem hstr hlen]
  rfl

theorem readChar_written {size i : Nat} {c : BitVec (8 * size)} (hsize : 0 < size)
    (h : Holds src.bytes i (toBytes size c.toNat)) : src.readChar size i s = some (.ok c, s) := by
  have hmem : Holds src.memory i (toBytes size c.toNat) := h.append_right src.behind
  unfold Buffer.readChar
  rw [charAt_written hsize hmem]
  rfl

/-- The zero behind the characters. -/
theorem holds_zero {bytes : List Byte} {size i : Nat} {str : List (BitVec (8 * size))}
    (h : Holds bytes i (charBytes size (str ++ [0]))) :
    Holds bytes (i + size * str.length) (toBytes size (0 : BitVec (8 * size)).toNat) := by
  have hsplit : charBytes size (str ++ [0]) =
      charBytes size str ++ toBytes size (0 : BitVec (8 * size)).toNat := by
    unfold charBytes
    rw [List.flatMap_append, List.flatMap_singleton]
  rw [hsplit, holds_append, length_charBytes] at h
  exact h.2

theorem fetchStr_written (x : Header) {size : Nat} {vs : ValueSize}
    {str : List (BitVec (8 * size))} (hsize : size = 1 ∨ size = 2)
    (hlen : src.bytes.length < 2 ^ x.target.sizeBits)
    (h : Holds src.bytes s.current
      (toBytes vs.bytes (str.length + 1) ++ charBytes size (str ++ [0])))
    (hn : str.length + 1 < 256 ^ vs.bytes) (hstr : ∀ c ∈ str, c ≠ 0) :
    fetchStr x src size (some vs) s =
      some (.ok str, s.to (s.current + vs.bytes + size * (str.length + 1))) := by
  have hpos : 0 < size := by omega
  rw [holds_append, length_toBytes] at h
  obtain ⟨hcount, hchars⟩ := h
  have hne : charBytes size (str ++ [0]) ≠ [] := by
    intro hnil
    have := length_charBytes size (str ++ [0])
    rw [hnil, List.length_append, List.length_singleton, Nat.mul_succ] at this
    simp at this
    omega
  have hend := hchars.length_le hne
  rw [length_charBytes, List.length_append, List.length_singleton] at hend
  have hle : str.length + 1 ≤ size * (str.length + 1) := Nat.le_mul_of_pos_left _ hpos
  have hcch : x.sizeT (str.length + 1) = str.length + 1 := sizeT_eq (by omega)
  have hindex : x.sizeT (str.length + 1 + (2 ^ x.target.sizeBits - 1)) = str.length := by
    unfold Header.sizeT
    rw [show str.length + 1 + (2 ^ x.target.sizeBits - 1) = str.length + 2 ^ x.target.sizeBits by
      omega, Nat.add_mod_right, Nat.mod_eq_of_lt (by omega)]
  have hdata : x.sizeT (s.current + vs.bytes + size * str.length) =
      s.current + vs.bytes + size * str.length := sizeT_eq (by rw [Nat.mul_succ] at hend; omega)
  unfold fetchStr
  rw [bind_ok (fetchX_written hcount hn), hcch,
    bind_ok (fetchPtr_written (by omega) (by rw [Reader.to_current]; omega)), hindex,
    Reader.to_current, hdata, bind_ok (readChar_written hpos (holds_zero hchars)), if_neg (by simp),
    readStr_written hpos hchars hstr, Reader.to_to]

theorem fetchKey_written {name : List Byte} (hlen : src.bytes.length < 2 ^ x.target.sizeBits)
    (h : Holds src.bytes s.current (toBytes 1 (name.length + 1) ++ (name ++ [0])))
    (hn : name.length + 1 < 256) : fetchKey x src s =
      some (.ok (s.current + 1), s.to (s.current + 1 + (name.length + 1))) := by
  rw [holds_append, length_toBytes] at h
  obtain ⟨hcount, hname⟩ := h
  have hend := hname.length_le (by simp)
  rw [List.length_append, List.length_singleton] at hend
  have hzero : Holds src.bytes (s.current + 1 + name.length) (toBytes 1 (0 : BitVec 8).toNat) :=
    (holds_append.1 hname).2
  have hcch : src.fetchBytes 1 s = some (.ok (toBytes 1 (name.length + 1)), s.to (s.current + 1)) :=
    fetchNumber_written .s8 hcount
  unfold fetchKey
  rw [bind_ok hcch, ofBytes_toBytes_of_lt hn, if_neg (by omega),
    bind_ok (fetchPtr_written (by omega) (by rw [Reader.to_current]; omega)), Reader.to_current,
    Nat.add_sub_cancel, bind_ok (readChar_written (by decide) hzero), if_neg (by simp),
    Reader.to_to, Nat.one_mul]
  rfl

theorem fetchBuf_written {vs : ValueSize} {bytes : List Byte}
    (hlen : src.bytes.length < 2 ^ x.target.sizeBits)
    (h : Holds src.bytes s.current (toBytes vs.bytes bytes.length ++ bytes))
    (hn : bytes.length < 256 ^ vs.bytes) : fetchBuf x src (some vs) s =
      some (.ok (.buffer bytes), s.to (s.current + vs.bytes + bytes.length)) := by
  rw [holds_append, length_toBytes] at h
  obtain ⟨hcount, hbytes⟩ := h
  have hpos : 0 < vs.bytes := by cases vs <;> decide
  have hend : s.current + vs.bytes + bytes.length ≤ src.bytes.length := by
    have hle := hcount.length_le (toBytes_ne_nil hpos _)
    rw [length_toBytes] at hle
    by_cases hnil : bytes = []
    · simpa [hnil] using hle
    · exact hbytes.length_le hnil
  unfold fetchBuf
  have hrest : src.rest (s.to (s.current + vs.bytes)) =
      some (.ok (src.bytes.length - (s.current + vs.bytes)), s.to (s.current + vs.bytes)) := rfl
  rw [bind_ok (fetchX_written hcount hn), sizeT_eq (by omega), bind_ok hrest, if_neg (by omega),
    bind_ok (fetchPtr_written (by omega) (by rw [Reader.to_current]; omega)), Reader.to_current,
    hbytes.take_eq, Reader.to_to, Nat.one_mul]
  rfl

/-! ### Indices -/

/-- The low seven bits of a number, and the others behind them. -/
theorem ofNat_groups (bits v : Nat) : BitVec.ofNat bits (v % 128) |||
    BitVec.ofNat bits (v >>> 7) <<< 7 = BitVec.ofNat bits v := by
  apply BitVec.eq_of_getLsbD_eq
  intro j hj
  simp only [BitVec.getLsbD_or, BitVec.getLsbD_ofNat, BitVec.getLsbD_shiftLeft,
    Nat.testBit_shiftRight, show 128 = 2 ^ 7 from rfl, Nat.testBit_mod_two_pow, hj, decide_true,
    Bool.true_and]
  by_cases h : j < 7
  · simp [h]
  · have hsub : j - 7 < bits := by omega
    simp only [h, hsub, decide_false, decide_true, Bool.false_and, Bool.not_false, Bool.true_and,
      Bool.false_or]
    congr 1
    omega

/-- The first byte for a number. -/
def lebByte (v : Nat) : Byte := BitVec.ofNat 8 v &&& 0x7F

theorem lebByte_low (bits v : Nat) :
    (lebByte v &&& 0x7F).setWidth bits = BitVec.ofNat bits (v % 128) := by
  have hand (n : Nat) : n &&& 127 = n % 128 := Nat.and_two_pow_sub_one_eq_mod n 7
  have hlow : (lebByte v &&& 0x7F).toNat = v % 128 := by
    show (v % 256 &&& 127) &&& 127 = v % 128
    rw [hand, hand]
    omega
  apply BitVec.eq_of_toNat_eq
  rw [BitVec.toNat_setWidth, hlow, BitVec.toNat_ofNat]

theorem lebByte_more (v : Nat) : lebByte v &&& 0x80 = 0 := by
  unfold lebByte
  rw [BitVec.and_assoc]
  simp

theorem lebByte_last (v : Nat) : (lebByte v ||| 0x80) &&& 0x80 ≠ 0 ∧
    (lebByte v ||| 0x80) &&& 0x7F = lebByte v &&& 0x7F := by
  generalize lebByte v = b
  revert b
  decide

theorem leb128_succ (n v : Nat) : leb128 (n + 1) v =
    if v >>> 7 = 0 then [lebByte v ||| 0x80] else lebByte v :: leb128 n (v >>> 7) := rfl

theorem leb128_ne_nil {n : Nat} (hn : 0 < n) (v : Nat) : leb128 n v ≠ [] := by
  obtain ⟨n, rfl⟩ : ∃ m, n = m + 1 := ⟨n - 1, by omega⟩
  rw [leb128_succ]
  split_ifs <;> simp

/-- One round of the loop. -/
theorem leb128Loop_byte {bits n i : Nat} {b c : Byte} (k : BitVec bits) (hb : b &&& 0x80 = 0)
    (h : Holds src.bytes s.current [c]) : leb128Loop src bits (n + 1) i b k s =
      leb128Loop src bits n (i + 1) c (k ||| (c &&& 0x7F).setWidth bits <<< (i * 7))
        (s.to (s.current + 1)) := by
  have hone : src.fetchBytes 1 s = some (.ok [c], s.to (s.current + 1)) :=
    fetchBytes_written h (by simp)
  rw [leb128Loop, if_pos hb, bind_ok hone, ofBytes_singleton]

theorem leb128Loop_end {bits n i : Nat} {c : Byte} (k : BitVec bits) (hc : c &&& 0x80 ≠ 0) :
    leb128Loop src bits n i c k s = some (.ok (i, k), s) := by
  cases n with
  | zero => rfl
  | succ n =>
      rw [leb128Loop, if_neg hc]
      rfl

theorem leb128Loop_written {bits rounds n i v : Nat} {b : Byte} (k : BitVec bits)
    (hb : b &&& 0x80 = 0) (h : Holds src.bytes s.current (leb128 n v)) (hn : v < 2 ^ n)
    (hpos : 0 < n) (hrounds : v < 128 ^ rounds) (hr : 0 < rounds) :
    leb128Loop src bits rounds i b k s =
      some (.ok (i + (leb128 n v).length, k ||| BitVec.ofNat bits v <<< (i * 7)),
        s.to (s.current + (leb128 n v).length)) := by
  induction rounds generalizing n i v b k s with
  | zero => omega
  | succ rounds ih =>
      obtain ⟨n, rfl⟩ : ∃ m, n = m + 1 := ⟨n - 1, by omega⟩
      rw [leb128_succ] at h ⊢
      have hshift : v >>> 7 = v / 128 := Nat.shiftRight_eq_div_pow v 7
      by_cases hv : v >>> 7 = 0
      · rw [if_pos hv] at h ⊢
        have hsmall : v % 128 = v := Nat.mod_eq_of_lt (by omega)
        rw [leb128Loop_byte k hb h, leb128Loop_end _ (lebByte_last v).1, (lebByte_last v).2,
          lebByte_low, hsmall]
        rfl
      · rw [if_neg hv] at h ⊢
        have hsplit : Holds src.bytes s.current ([lebByte v] ++ leb128 n (v >>> 7)) := h
        obtain ⟨hbyte, hrest⟩ := holds_append.1 hsplit
        have hpow : 2 ^ (n + 1) = 2 * 2 ^ n := Nat.pow_succ'
        have hpow' : 128 ^ (rounds + 1) = 128 * 128 ^ rounds := Nat.pow_succ'
        have hn0 : 0 < n := by
          cases n with
          | zero => omega
          | succ n => exact Nat.succ_pos n
        have hr0 : 0 < rounds := by
          cases rounds with
          | zero => omega
          | succ rounds => exact Nat.succ_pos rounds
        have hloop := ih (i := i + 1) (k ||| BitVec.ofNat bits (v % 128) <<< (i * 7))
          (lebByte_more v) (s := s.to (s.current + 1)) hrest (by omega) hn0 (by omega) hr0
        have hgroups : BitVec.ofNat bits (v % 128) <<< (i * 7) |||
            BitVec.ofNat bits (v >>> 7) <<< ((i + 1) * 7) = BitVec.ofNat bits v <<< (i * 7) := by
          rw [show (i + 1) * 7 = 7 + i * 7 by omega, BitVec.shiftLeft_add,
            ← BitVec.shiftLeft_or_distrib, ofNat_groups]
        rw [leb128Loop_byte k hb hbyte, lebByte_low, hloop, BitVec.or_assoc, hgroups]
        rw [List.length_cons, Reader.to_current, Reader.to_to, Nat.add_assoc i, Nat.add_assoc,
          Nat.add_comm 1]

/-- An index of less than 2^35 is read back. -/
theorem fetchLeb128_written {v : Nat} (h : Holds src.bytes s.current (writeLeb128 x.target v))
    (hv : v < 2 ^ x.target.sizeBits) (hlow : v < 2 ^ 35) :
    fetchLeb128 x src 5 s = some (.ok ((writeLeb128 x.target v).length, BitVec.ofNat _ v),
      s.to (s.current + (writeLeb128 x.target v).length)) := by
  have hbits : 0 < x.target.sizeBits := by cases x.target <;> decide
  have hloop := leb128Loop_written (i := 0) (0 : BitVec x.target.sizeBits)
    (b := 0) (by decide) h hv hbits (show v < 128 ^ 5 from hlow) (by decide)
  refine hloop.trans ?_
  unfold writeLeb128
  simp

end Vin64.Xv
