/-!
# The bitmap (`utils/bitmap.h`)

`std::vector<ULONG>` is a list of 32-bit words.  An access to the vector outside its
size has no meaning in the source; the callers keep every index below `bits()`.
-/

namespace Vin64.Utils

def BITS_PER_LONG : Nat := 32

/-- The number of words for some bits. -/
def numl (bits : Nat) : Nat :=
  bits / BITS_PER_LONG + if bits % BITS_PER_LONG ≠ 0 then 1 else 0

structure XBitMap where
  buf : List (BitVec 32)
  bits : Nat
  sized : buf.length = numl bits
deriving DecidableEq

namespace XBitMap

def empty : XBitMap := ⟨[], 0, rfl⟩

def clear (_ : XBitMap) : XBitMap := empty

def resize (m : XBitMap) (bits : Nat) : XBitMap where
  buf := m.buf.take (numl bits) ++ List.replicate (numl bits - m.buf.length) 0#32
  bits := bits
  sized := by simp; omega

def word (m : XBitMap) (l : Nat) : BitVec 32 := m.buf[l]?.getD 0#32

/-- `ul & (1<<i)` -/
def hasBit (ul : BitVec 32) (i : Nat) : Bool := ul &&& (1#32 <<< i) ≠ 0#32

def testbit (m : XBitMap) (idx : Nat) : Bool :=
  if m.bits ≤ idx then false else hasBit (m.word (idx / BITS_PER_LONG)) (idx % BITS_PER_LONG)

def setbit (m : XBitMap) (idx : Nat) (f : Bool) : XBitMap where
  buf := m.buf.modify (idx / BITS_PER_LONG) fun w =>
    let mask := 1#32 <<< (idx % BITS_PER_LONG)
    if f then w ||| mask else w &&& ~~~mask
  bits := m.bits
  sized := by simp [m.sized]

/-- The inner loop of `find0`: the lowest clear bit among the first `n` of a word. -/
def clearBit (ul : BitVec 32) (n : Nat) : Option Nat :=
  (List.range n).find? fun i => !hasBit ul i

/-- The first loop of `find0`, over the full words. -/
def findFull (m : XBitMap) (li : Nat) : Option Nat :=
  (List.range li).findSome? fun l =>
    let ul := m.word l
    if ul = BitVec.allOnes 32 then none else (clearBit ul BITS_PER_LONG).map (l * BITS_PER_LONG + ·)

def find0 (m : XBitMap) : Option Nat :=
  let li := m.bits / BITS_PER_LONG
  let bi := m.bits % BITS_PER_LONG
  match m.findFull li with
  | some idx => some idx
  | none =>
    if bi ≠ 0 then (clearBit (m.word li) bi).map (li * BITS_PER_LONG + ·) else none

/-- The inner loop of `findLast1`: the first clear bit, counted from the top. -/
def clearFromTop (ul : BitVec 32) : Option Nat :=
  (List.range BITS_PER_LONG).find? fun i =>
    let ibit := BITS_PER_LONG - i - 1
    !hasBit ul ibit

/-- The words are tested from the end, but searched from the start. -/
def findLast1 (m : XBitMap) (piece : Nat) : Option Nat :=
  let piece := if piece = 0 then 1 else piece
  let li := m.buf.length
  let bpp := li / piece
  (List.range bpp).findSome? fun l =>
    let idx := li - l - 1
    if m.word idx = 0#32 then none
    else
      let ul := m.word l
      (clearFromTop ul).map (l * BITS_PER_LONG + ·)

/-! ## The bits -/

/-- The bit at an index of the words, which may lie beyond `bits()`. -/
def bit (m : XBitMap) (idx : Nat) : Bool := (m.word (idx / 32)).getLsbD (idx % 32)

theorem hasBit_eq (ul : BitVec 32) {i : Nat} (h : i < 32) : hasBit ul i = ul.getLsbD i := by
  have hone : BitVec.twoPow 32 i ≠ 0#32 := by
    intro h0
    have hbit := congrArg (fun x => x.getLsbD i) h0
    simp [h] at hbit
  unfold hasBit
  rw [← BitVec.twoPow_eq, BitVec.and_twoPow]
  cases ul.getLsbD i <;> simp [hone]

theorem testbit_eq (m : XBitMap) (idx : Nat) :
    m.testbit idx = (decide (idx < m.bits) && m.bit idx) := by
  unfold testbit bit BITS_PER_LONG
  rw [hasBit_eq _ (Nat.mod_lt _ (by decide))]
  by_cases h : m.bits ≤ idx
  · simp [h, Nat.not_lt.2 h]
  · simp [h, Nat.lt_of_not_le h]

theorem div_lt_length (m : XBitMap) {idx : Nat} (h : idx < m.bits) : idx / 32 < m.buf.length := by
  rw [m.sized]
  unfold numl BITS_PER_LONG
  split <;> omega

theorem word_setbit_of_ne (m : XBitMap) {idx l : Nat} (f : Bool) (h : idx / 32 ≠ l) :
    (m.setbit idx f).word l = m.word l := by
  simp [word, setbit, BITS_PER_LONG, h]

theorem word_setbit_self (m : XBitMap) {idx : Nat} (f : Bool) (h : idx / 32 < m.buf.length) :
    (m.setbit idx f).word (idx / 32) =
      if f then m.word (idx / 32) ||| (1#32 <<< (idx % 32))
      else m.word (idx / 32) &&& ~~~(1#32 <<< (idx % 32)) := by
  simp [word, setbit, BITS_PER_LONG, h]

theorem bit_setbit_self (m : XBitMap) {idx : Nat} (f : Bool) (h : idx < m.bits) :
    (m.setbit idx f).bit idx = f := by
  have hi : idx % 32 < 32 := Nat.mod_lt _ (by decide)
  unfold bit
  rw [word_setbit_self m f (m.div_lt_length h), ← BitVec.twoPow_eq]
  cases f <;> simp [hi]

theorem bit_setbit_of_ne (m : XBitMap) {idx j : Nat} (f : Bool) (h : idx < m.bits) (hj : j ≠ idx) :
    (m.setbit idx f).bit j = m.bit j := by
  unfold bit
  by_cases hl : idx / 32 = j / 32
  · have hi : j % 32 ≠ idx % 32 := by omega
    have hlt : j % 32 < 32 := Nat.mod_lt _ (by decide)
    rw [← hl, word_setbit_self m f (m.div_lt_length h), ← BitVec.twoPow_eq]
    cases f <;> simp [hi, hlt]
  · rw [word_setbit_of_ne m f hl]

@[simp] theorem bits_setbit (m : XBitMap) (idx : Nat) (f : Bool) :
    (m.setbit idx f).bits = m.bits := rfl

@[simp] theorem bits_resize (m : XBitMap) (bits : Nat) : (m.resize bits).bits = bits := rfl

theorem numl_mono {a b : Nat} (h : a ≤ b) : numl a ≤ numl b := by
  unfold numl BITS_PER_LONG
  split <;> split <;> omega

/-- Growing keeps every bit of the words and adds clear ones. -/
theorem bit_resize_of_le (m : XBitMap) {bits : Nat} (h : m.bits ≤ bits) (idx : Nat) :
    (m.resize bits).bit idx = m.bit idx := by
  have hl : m.buf.length ≤ numl bits := by
    rw [m.sized]
    exact numl_mono h
  unfold bit word resize
  simp only [List.take_of_length_le hl]
  by_cases hlt : idx / 32 < m.buf.length
  · rw [List.getElem?_append_left hlt]
  · have hnone : m.buf[idx / 32]? = none := List.getElem?_eq_none (by omega)
    rw [List.getElem?_append_right (by omega), List.getElem?_replicate, hnone]
    split <;> rfl

/-! ## The search -/

theorem clearBit_eq_some {ul : BitVec 32} {n i : Nat} (hn : n ≤ 32)
    (h : clearBit ul n = some i) :
    i < n ∧ ul.getLsbD i = false ∧ ∀ j < i, ul.getLsbD j = true := by
  unfold clearBit at h
  obtain ⟨hclear, hlt, hset⟩ := List.find?_range_eq_some.1 h
  have hin : i < n := List.mem_range.1 hlt
  have hi : ul.getLsbD i = false := by
    rw [← hasBit_eq ul (by omega)]
    simpa using hclear
  refine ⟨hin, hi, ?_⟩
  intro j hj
  rw [← hasBit_eq ul (by omega)]
  simpa using hset j hj

theorem clearBit_eq_none {ul : BitVec 32} {n : Nat} (hn : n ≤ 32) (h : clearBit ul n = none) :
    ∀ j < n, ul.getLsbD j = true := by
  unfold clearBit at h
  intro j hj
  rw [← hasBit_eq ul (by omega)]
  simpa using List.find?_range_eq_none.1 h j hj

/-- What a search of the first bits says: the lowest clear one, or that there is none. -/
def Lowest (m : XBitMap) (n : Nat) : Option Nat → Prop
  | some i => i < n ∧ m.bit i = false ∧ ∀ j < i, m.bit j = true
  | none => ∀ j < n, m.bit j = true

/-- A search of one more word, or of its first bits. -/
theorem lowest_append {m : XBitMap} {l n : Nat} (hn : n ≤ 32) (hbelow : m.Lowest (l * 32) none) :
    m.Lowest (l * 32 + n) ((clearBit (m.word l) n).map (l * 32 + ·)) := by
  have hword : ∀ k < 32, m.bit (l * 32 + k) = (m.word l).getLsbD k := by
    intro k hk
    have hdiv : (l * 32 + k) / 32 = l := by omega
    have hmod : (l * 32 + k) % 32 = k := by omega
    rw [bit, hdiv, hmod]
  have hset : ∀ b, (∀ k < b, (m.word l).getLsbD k = true) → b ≤ 32 →
      ∀ j < l * 32 + b, m.bit j = true := by
    intro b hb hle j hj
    by_cases hlow : j < l * 32
    · exact hbelow j hlow
    · obtain ⟨k, rfl⟩ := Nat.exists_eq_add_of_le (Nat.le_of_not_lt hlow)
      rw [hword k (by omega)]
      exact hb k (by omega)
  cases hc : clearBit (m.word l) n with
  | none => exact hset n (clearBit_eq_none hn hc) hn
  | some i =>
      obtain ⟨hlt, hclear, hlow⟩ := clearBit_eq_some hn hc
      refine ⟨Nat.add_lt_add_left hlt _, ?_, hset i hlow (by omega)⟩
      rw [hword i (by omega)]
      exact hclear

theorem lowest_of_le {m : XBitMap} {n n' i : Nat} (h : m.Lowest n (some i)) (hn : n ≤ n') :
    m.Lowest n' (some i) :=
  ⟨Nat.lt_of_lt_of_le h.1 hn, h.2⟩

theorem findFull_lowest (m : XBitMap) (li : Nat) : m.Lowest (li * 32) (m.findFull li) := by
  induction li with
  | zero => exact fun j hj => absurd hj (by omega)
  | succ l ih =>
      unfold findFull at ih ⊢
      rw [List.range_succ, List.findSome?_append]
      cases hf : (List.range l).findSome? _ with
      | some i =>
          rw [hf] at ih
          exact lowest_of_le ih (by omega)
      | none =>
          rw [hf] at ih
          have hword := lowest_append (n := 32) (by omega) ih
          have hsum : (l + 1) * 32 = l * 32 + 32 := by omega
          rw [hsum]
          by_cases hones : m.word l = BitVec.allOnes 32
          · have hnone : clearBit (m.word l) 32 = none := by
              rw [hones]
              decide
            rw [hnone] at hword
            simp only [List.findSome?_cons, hones, if_true, List.findSome?_nil]
            exact hword
          · simp only [List.findSome?_cons, hones, if_false, List.findSome?_nil, BITS_PER_LONG]
            cases hc : clearBit (m.word l) 32 <;> rw [hc] at hword <;> exact hword

/-- `find0` finds the lowest clear bit, if there is one. -/
theorem find0_lowest (m : XBitMap) : m.Lowest m.bits m.find0 := by
  have hfull := m.findFull_lowest (m.bits / 32)
  unfold find0
  simp only [BITS_PER_LONG]
  cases hf : m.findFull (m.bits / 32) with
  | some i =>
      rw [hf] at hfull
      exact lowest_of_le hfull (by omega)
  | none =>
      rw [hf] at hfull
      have hlast := lowest_append (l := m.bits / 32) (n := m.bits % 32) (by omega) hfull
      have hsum : m.bits / 32 * 32 + m.bits % 32 = m.bits := by omega
      rw [hsum] at hlast
      by_cases hb : m.bits % 32 ≠ 0
      · simpa [hb] using hlast
      · have hall : m.bits / 32 * 32 = m.bits := by omega
        rw [hall] at hfull
        simpa [hb] using hfull

end XBitMap

end Vin64.Utils
