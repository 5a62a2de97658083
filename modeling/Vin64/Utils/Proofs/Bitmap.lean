import Mathlib.Tactic.ByContra
import Vin64.Utils.BitmapCalls

/-!
# The bitmap as a sequence of booleans

A run of calls shows the sequence of booleans exactly as long as no call of `resize` brings
back a bit that was left in the last word.
-/

namespace Vin64.Utils

namespace XBitMap

variable {m : XBitMap} {s : List Bool}

/-! ## Calls -/

/-- A word that is kept has its bits, those beyond the new size as well. -/
theorem bit_resize_of_lt (m : XBitMap) {bits idx : Nat} (h : idx < bits) :
    (m.resize bits).bit idx = m.bit idx := by
  have hl : idx / 32 < numl bits := by
    unfold numl BITS_PER_LONG
    split <;> omega
  unfold bit word resize
  by_cases hlt : idx / 32 < m.buf.length
  · rw [List.getElem?_append_left (by rw [List.length_take]; omega),
      List.getElem?_take_of_lt hl]
  · have hnone : m.buf[idx / 32]? = none := List.getElem?_eq_none (by omega)
    rw [List.getElem?_append_right (by rw [List.length_take]; omega), List.getElem?_replicate,
      hnone]
    split <;> rfl

theorem getD_of_length_le {idx : Nat} (h : s.length ≤ idx) : s.getD idx false = false := by
  rw [List.getD_eq_getElem?_getD, List.getElem?_eq_none h]
  rfl

theorem Shows.bit_eq (h : m.Shows s) {idx : Nat} (hidx : idx < m.bits) :
    m.bit idx = s.getD idx false := by
  rw [← h.2 idx, testbit_eq, decide_eq_true hidx, Bool.true_and]

theorem shows_of_bit (hbits : m.bits = s.length)
    (hbit : ∀ idx < m.bits, m.bit idx = s.getD idx false) : m.Shows s := by
  refine ⟨hbits, fun idx => ?_⟩
  rw [testbit_eq]
  by_cases hidx : idx < m.bits
  · rw [decide_eq_true hidx, Bool.true_and, hbit idx hidx]
  · rw [decide_eq_false hidx, Bool.false_and, getD_of_length_le (by omega)]

theorem shows_clear (m : XBitMap) : m.clear.Shows [] := ⟨rfl, fun _ => rfl⟩

theorem Shows.setbit (h : m.Shows s) {idx : Nat} (hidx : idx < m.bits) (f : Bool) :
    (m.setbit idx f).Shows (s.set idx f) := by
  refine shows_of_bit (by rw [bits_setbit, List.length_set, h.1]) fun j hj => ?_
  have hj' : j < s.length := h.1 ▸ hj
  by_cases hji : j = idx
  · subst hji
    rw [bit_setbit_self m f hidx, List.getD_eq_getElem?_getD, List.getElem?_set_self hj']
    rfl
  · rw [bit_setbit_of_ne m f hidx hji, h.bit_eq hj, List.getD_eq_getElem?_getD,
      List.getD_eq_getElem?_getD, List.getElem?_set_ne (Ne.symm hji)]

theorem getD_resized (s : List Bool) (bits idx : Nat) (hidx : idx < bits) :
    (s.take bits ++ List.replicate (bits - s.length) false).getD idx false =
      s.getD idx false := by
  rw [List.getD_eq_getElem?_getD, List.getD_eq_getElem?_getD]
  by_cases hlt : idx < s.length
  · rw [List.getElem?_append_left (by rw [List.length_take]; omega),
      List.getElem?_take_of_lt hidx]
  · rw [List.getElem?_append_right (by rw [List.length_take]; omega), List.getElem?_replicate,
      List.getElem?_eq_none (by omega)]
    split <;> rfl

/-- A new size shows the bits of the words; the ones that are new should be clear. -/
theorem Shows.resize_iff (h : m.Shows s) (bits : Nat) :
    (m.resize bits).Shows (s.take bits ++ List.replicate (bits - s.length) false) ↔
      ∀ idx, m.bits ≤ idx → idx < bits → m.bit idx = false := by
  constructor
  · intro hshows idx hlo hhi
    have hout : s.length ≤ idx := h.1 ▸ hlo
    rw [← bit_resize_of_lt m hhi, hshows.bit_eq hhi, getD_resized s bits idx hhi,
      getD_of_length_le hout]
  · intro hclear
    refine shows_of_bit ?_ fun idx (hidx : idx < bits) => ?_
    · rw [bits_resize, List.length_append, List.length_take, List.length_replicate]
      omega
    · rw [bit_resize_of_lt m hidx, getD_resized s bits idx hidx]
      by_cases hlt : idx < m.bits
      · exact h.bit_eq hlt
      · have hout : s.length ≤ idx := by rw [← h.1]; omega
        rw [hclear idx (by omega) hidx, getD_of_length_le hout]

/-- One call goes wrong only where it brings back bits. -/
theorem Shows.step_iff (h : m.Shows s) {call : BitCall} (hin : m.Within call) :
    (m.step call).Shows (stepSeq s call) ↔ m.GrowsClear call := by
  cases call with
  | clear => exact iff_of_true (shows_clear m) trivial
  | resize bits => exact h.resize_iff bits
  | setbit idx f => exact iff_of_true (h.setbit hin f) trivial
  | testbit idx => exact iff_of_true h trivial
  | bits => exact iff_of_true h trivial

/-! ## Runs -/

theorem alwaysShows_nil : m.AlwaysShows s [] ↔ m.Shows s := by
  constructor
  · exact fun h => h [] List.prefix_rfl
  · intro h done hdone
    rw [List.prefix_nil.1 hdone]
    exact h

theorem alwaysShows_cons {call : BitCall} {calls : List BitCall} :
    m.AlwaysShows s (call :: calls) ↔
      m.Shows s ∧ (m.step call).AlwaysShows (stepSeq s call) calls := by
  constructor
  · intro h
    refine ⟨h [] (List.nil_prefix), fun done hdone => ?_⟩
    exact h (call :: done) (List.cons_prefix_cons.2 ⟨rfl, hdone⟩)
  · rintro ⟨hm, h⟩ done hdone
    cases done with
    | nil => exact hm
    | cons c done =>
        obtain ⟨rfl, hrest⟩ := List.cons_prefix_cons.1 hdone
        exact h done hrest

theorem AlwaysShows.head {calls : List BitCall} (h : m.AlwaysShows s calls) : m.Shows s :=
  h [] List.nil_prefix

/-- A run shows the sequence of booleans exactly when it never brings back bits. -/
theorem Shows.alwaysShows_iff (h : m.Shows s) {calls : List BitCall}
    (hin : Meets Within m calls) : m.AlwaysShows s calls ↔ Meets GrowsClear m calls := by
  induction calls generalizing m s with
  | nil => exact iff_of_true (alwaysShows_nil.2 h) trivial
  | cons call calls ih =>
      have hstep := h.step_iff hin.1
      rw [alwaysShows_cons]
      constructor
      · rintro ⟨-, hrest⟩
        exact ⟨hstep.1 hrest.head, (ih hrest.head hin.2).1 hrest⟩
      · rintro ⟨hclear, hrest⟩
        exact ⟨h, (ih (hstep.2 hclear) hin.2).2 hrest⟩

theorem refines_bools_iff (calls : List BitCall) (hin : Meets Within empty calls) :
    empty.AlwaysShows [] calls ↔ Meets GrowsClear empty calls :=
  (shows_clear empty).alwaysShows_iff hin

/-- Cut to 1 bit, the bitmap keeps its bit 1 in the word, and shows it again at 2 bits. -/
def regrown : List BitCall := [.resize 2, .setbit 1 true, .resize 1, .resize 2, .testbit 1]

theorem regrown_not_shows :
    Meets Within empty regrown ∧ ¬ empty.AlwaysShows [] regrown := by
  refine ⟨⟨trivial, Nat.one_lt_two, trivial, trivial, trivial, trivial⟩, fun h => ?_⟩
  have hbit := (h regrown List.prefix_rfl).2 1
  revert hbit
  decide

/-- With bit 1 clear before the cut, the bits that come back are clear. -/
def cleared : List BitCall :=
  [.resize 2, .setbit 1 true, .setbit 1 false, .resize 1, .resize 2, .testbit 1]

theorem cleared_shows : empty.AlwaysShows [] cleared := by
  refine (refines_bools_iff cleared ⟨trivial, Nat.one_lt_two, Nat.one_lt_two, trivial, trivial,
    trivial, trivial⟩).2 ⟨?_, trivial, trivial, ?_, ?_, trivial, trivial⟩
  · exact fun idx _ _ => by simp [bit, word, empty]
  · exact fun idx hlo hhi => absurd (Nat.lt_of_le_of_lt hlo hhi) (by decide)
  · intro idx hlo hhi
    obtain rfl : idx = 1 := Nat.le_antisymm (Nat.le_of_lt_succ hhi) hlo
    decide

/-! ## The first clear bit -/

theorem findsFirst0 (m : XBitMap) : m.FindsFirst0 := by
  have hlow := m.find0_lowest
  unfold FindsFirst0
  cases hf : m.find0 with
  | none =>
      rw [hf] at hlow
      refine ⟨iff_of_false (by simp) ?_, fun idx h => by cases h⟩
      rintro ⟨idx, hidx, hclear⟩
      rw [testbit_eq, hlow idx hidx, decide_eq_true hidx] at hclear
      cases hclear
  | some i =>
      rw [hf] at hlow
      obtain ⟨hlt, hclear, hset⟩ := hlow
      have htest : m.testbit i = false := by rw [testbit_eq, hclear, Bool.and_false]
      refine ⟨iff_of_true rfl ⟨i, hlt, htest⟩, fun idx h => ?_⟩
      obtain rfl : i = idx := Option.some.inj h
      refine ⟨hlt, htest, fun j hj => ?_⟩
      rw [testbit_eq, hset j hj, decide_eq_true (by omega : j < m.bits)]
      rfl

/-! ## The last set bit -/

/-- One round of `findLast1` -/
def lastRound (m : XBitMap) (l : Nat) : Option Nat :=
  if m.word (m.buf.length - l - 1) = 0#32 then none
  else (clearFromTop (m.word l)).map (l * 32 + ·)

theorem findLast1_eq (m : XBitMap) (piece : Nat) :
    m.findLast1 piece = (List.range (m.bpp piece)).findSome? m.lastRound := by
  have hpiece : (if piece = 0 then 1 else piece) = max piece 1 := by split <;> omega
  unfold findLast1
  rw [hpiece]
  rfl

theorem findSome_range_eq_some {α : Type} {f : Nat → Option α} {n : Nat} {a : α} :
    (List.range n).findSome? f = some a ↔ ∃ l < n, f l = some a ∧ ∀ j < l, f j = none := by
  constructor
  · intro h
    obtain ⟨below, l, above, hsplit, hl, hbelow⟩ := List.findSome?_eq_some_iff.1 h
    have hlen := congrArg List.length hsplit
    rw [List.length_range, List.length_append, List.length_cons] at hlen
    have hget : (List.range n)[below.length]? = some l := by
      rw [hsplit, List.getElem?_append_right (Nat.le_refl _), Nat.sub_self]
      rfl
    rw [List.getElem?_range (by omega)] at hget
    have hlth : below.length = l := Option.some.inj hget
    refine ⟨l, by omega, hl, fun j hj => hbelow j ?_⟩
    have hj' : (List.range n)[j]? = some j := List.getElem?_range (by omega)
    rw [hsplit, List.getElem?_append_left (by omega)] at hj'
    exact List.mem_of_getElem? hj'
  · rintro ⟨l, hln, hl, hbelow⟩
    have hlen : l < (List.range n).length := by rwa [List.length_range]
    have hsplit : List.range n = (List.range n).take l ++ l :: (List.range n).drop (l + 1) := by
      calc
        List.range n = (List.range n).take l ++ (List.range n).drop l :=
          (List.take_append_drop l _).symm
        _ = _ := by rw [List.drop_eq_getElem_cons hlen, List.getElem_range]
    refine List.findSome?_eq_some_iff.2 ⟨_, l, _, hsplit, hl, fun j hj => hbelow j ?_⟩
    rw [List.take_range, List.mem_range] at hj
    omega

/-- Where the search from the top stops in a word. -/
theorem clearFromTop_eq_some {ul : BitVec 32} {i : Nat} (h : clearFromTop ul = some i) :
    i < 32 ∧ ul.getLsbD (31 - i) = false ∧ ∀ j < i, ul.getLsbD (31 - j) = true := by
  unfold clearFromTop BITS_PER_LONG at h
  obtain ⟨hclear, hlt, hset⟩ := List.find?_range_eq_some.1 h
  have hin : i < 32 := List.mem_range.1 hlt
  have hbit : ∀ j, hasBit ul (32 - j - 1) = ul.getLsbD (31 - j) := by
    intro j
    rw [hasBit_eq ul (by omega), show 32 - j - 1 = 31 - j by omega]
  refine ⟨hin, ?_, fun j hj => ?_⟩
  · rw [← hbit]
    simpa using hclear
  · rw [← hbit]
    simpa using hset j hj

theorem clearFromTop_eq_none {ul : BitVec 32} : clearFromTop ul = none ↔ ul = BitVec.allOnes 32 := by
  constructor
  · intro h
    unfold clearFromTop BITS_PER_LONG at h
    ext i hi
    have hbit : (!hasBit ul (32 - (31 - i) - 1)) ≠ true := by
      simpa using List.find?_range_eq_none.1 h (31 - i) (by omega)
    rw [hasBit_eq ul (by omega), show 32 - (31 - i) - 1 = i by omega] at hbit
    rw [BitVec.getElem_allOnes, ← BitVec.getLsbD_eq_getElem hi]
    simpa using hbit
  · rintro rfl
    decide

/-- The first clear bit from the top has the index of the last set bit only in two words. -/
theorem clearFromTop_eq_last {ul : BitVec 32} {c : Nat} (h : clearFromTop ul = some c)
    (hset : ul.getLsbD c = true) (habove : ∀ i > c, ul.getLsbD i = false) :
    ul = 1#32 ∨ ul = 0xFFFFFFFE#32 := by
  obtain ⟨hc, hclear, htop⟩ := clearFromTop_eq_some h
  by_cases hzero : c = 0
  · subst hzero
    refine .inl (BitVec.eq_of_getLsbD_eq fun i hi => ?_)
    by_cases hi0 : i = 0
    · rw [hi0, hset]
      rfl
    · rw [habove i (by omega), BitVec.getLsbD_one]
      simp [hi0]
  · have hlast : c = 31 := by
      by_contra hne
      have h31 := htop 0 (by omega)
      rw [habove (31 - 0) (by omega)] at h31
      cases h31
    subst hlast
    have hbits : ∀ i < 32, (0xFFFFFFFE#32).getLsbD i = decide (0 < i) := by decide
    refine .inr (BitVec.eq_of_getLsbD_eq fun i hi => ?_)
    rw [hbits i hi]
    by_cases hi0 : i = 0
    · rw [hi0]
      exact hclear
    · have hset' := htop (31 - i) (by omega)
      rw [show 31 - (31 - i) = i by omega] at hset'
      rw [hset', decide_eq_true (by omega)]

theorem bit_word (m : XBitMap) (l : Nat) {c : Nat} (hc : c < 32) :
    m.bit (l * 32 + c) = (m.word l).getLsbD c := by
  rw [bit, show (l * 32 + c) / 32 = l by omega, show (l * 32 + c) % 32 = c by omega]

theorem bit_of_word_zero {l : Nat} (h : m.word l = 0#32) {idx : Nat} (hl : idx / 32 = l) :
    m.bit idx = false := by
  rw [bit, hl, h, BitVec.getLsbD_zero]

theorem word_eq_zero {l : Nat} (h : ∀ c < 32, m.bit (l * 32 + c) = false) : m.word l = 0#32 := by
  refine BitVec.eq_of_getLsbD_eq fun i hi => ?_
  rw [← bit_word m l hi, h i hi, BitVec.getLsbD_zero]

theorem word_of_length_le {l : Nat} (h : m.buf.length ≤ l) : m.word l = 0#32 := by
  rw [word, List.getElem?_eq_none h]
  rfl

/-- There is a set bit in the last words exactly when one of them is not zero. -/
theorem exists_bit_iff (m : XBitMap) (piece : Nat) :
    (∃ idx, (m.buf.length - m.bpp piece) * 32 ≤ idx ∧ m.bit idx = true) ↔
      ¬ ∀ l < m.bpp piece, m.word (m.buf.length - l - 1) = 0#32 := by
  constructor
  · rintro ⟨idx, hlo, hbit⟩ hzero
    have hlt : idx / 32 < m.buf.length := by
      by_contra hout
      rw [bit_of_word_zero (word_of_length_le (Nat.le_of_not_lt hout)) rfl] at hbit
      cases hbit
    have hword := hzero (m.buf.length - idx / 32 - 1) (by omega)
    rw [bit_of_word_zero hword (by omega)] at hbit
    cases hbit
  · intro h
    by_contra hnone
    refine h fun l hl => word_eq_zero fun c hc => ?_
    have hbpp : m.bpp piece ≤ m.buf.length := Nat.div_le_self _ _
    have hlo : (m.buf.length - m.bpp piece) * 32 ≤ (m.buf.length - l - 1) * 32 + c := by omega
    by_contra hset
    exact hnone ⟨_, hlo, by simpa using hset⟩

theorem lastRound_eq_none {l : Nat} :
    m.lastRound l = none ↔
      (m.word (m.buf.length - l - 1) ≠ 0#32 → m.word l = BitVec.allOnes 32) := by
  unfold lastRound
  by_cases hzero : m.word (m.buf.length - l - 1) = 0#32
  · simp [hzero]
  · rw [if_neg hzero, Option.map_eq_none_iff, clearFromTop_eq_none]
    simp [hzero]

theorem lastRound_eq_some {l idx : Nat} (h : m.lastRound l = some idx) :
    m.word (m.buf.length - l - 1) ≠ 0#32 ∧
      ∃ c < 32, clearFromTop (m.word l) = some c ∧ l * 32 + c = idx := by
  unfold lastRound at h
  split at h
  · cases h
  · obtain ⟨c, hc, hidx⟩ := Option.map_eq_some_iff.1 h
    exact ⟨‹_›, c, (clearFromTop_eq_some hc).1, hc, hidx⟩

theorem FindsLast1.lastWordOk {piece : Nat} (h : m.FindsLast1 piece) : m.LastWordOk piece := by
  by_cases hzero : ∀ l < m.bpp piece, m.word (m.buf.length - l - 1) = 0#32
  · exact .inl hzero
  · obtain ⟨idx, hidx⟩ := Option.isSome_iff_exists.1 (h.1.2 ((m.exists_bit_iff piece).2 hzero))
    obtain ⟨hset, habove⟩ := h.2 idx hidx
    rw [findLast1_eq, findSome_range_eq_some] at hidx
    obtain ⟨t, ht, hround, hbelow⟩ := hidx
    obtain ⟨hmirror, c, hc, hclear, rfl⟩ := lastRound_eq_some hround
    rw [bit_word m t hc] at hset
    have hwords : ∀ l > t, m.word l = 0#32 := fun l hl =>
      word_eq_zero fun k _ => habove (l * 32 + k) (by omega)
    have habove' : ∀ i > c, (m.word t).getLsbD i = false := by
      intro i hi
      by_cases hi32 : i < 32
      · rw [← bit_word m t hi32]
        exact habove _ (by omega)
      · exact BitVec.getLsbD_of_ge _ _ (by omega)
    exact .inr ⟨t, ht, hwords, clearFromTop_eq_last hclear hset habove', hmirror,
      fun l hl => lastRound_eq_none.1 (hbelow l hl)⟩

theorem LastWordOk.findsLast1 {piece : Nat} (h : m.LastWordOk piece) : m.FindsLast1 piece := by
  unfold FindsLast1
  rw [exists_bit_iff, findLast1_eq]
  rcases h with hzero | ⟨t, ht, hwords, hword, hmirror, hbelow⟩
  · have hnone : (List.range (m.bpp piece)).findSome? m.lastRound = none := by
      refine List.findSome?_eq_none_iff.2 fun l hl => lastRound_eq_none.2 fun hne => ?_
      exact absurd (hzero l (List.mem_range.1 hl)) hne
    rw [hnone]
    exact ⟨iff_of_false (by simp) (not_not_intro hzero), fun idx h => by cases h⟩
  · -- the index of the last set bit in the word
    obtain ⟨c, hc, hclear, hset, habove⟩ : ∃ c < 32, clearFromTop (m.word t) = some c ∧
        (m.word t).getLsbD c = true ∧ ∀ i < 32, c < i → (m.word t).getLsbD i = false := by
      rcases hword with hword | hword
      · rw [hword]
        exact ⟨0, by decide, by decide, by decide, by decide⟩
      · rw [hword]
        exact ⟨31, by decide, by decide, by decide, by decide⟩
    have hround : m.lastRound t = some (t * 32 + c) := by
      rw [lastRound, if_neg hmirror, hclear]
      rfl
    have hfind : (List.range (m.bpp piece)).findSome? m.lastRound = some (t * 32 + c) :=
      findSome_range_eq_some.2 ⟨t, ht, hround, fun l hl => lastRound_eq_none.2 (hbelow l hl)⟩
    rw [hfind]
    refine ⟨iff_of_true rfl fun hzero => hmirror (hzero t ht), fun idx h => ?_⟩
    obtain rfl : t * 32 + c = idx := Option.some.inj h
    refine ⟨by rw [bit_word m t hc, hset], fun j hj => ?_⟩
    by_cases hjt : j / 32 = t
    · have hj' : j = t * 32 + j % 32 := by omega
      rw [hj', bit_word m t (by omega)]
      exact habove _ (by omega) (by omega)
    · exact bit_of_word_zero (hwords (j / 32) (by omega)) rfl

theorem findsLast1_iff (m : XBitMap) (piece : Nat) : m.FindsLast1 piece ↔ m.LastWordOk piece :=
  ⟨FindsLast1.lastWordOk, LastWordOk.findsLast1⟩

/-- The bit 1 of 32, and the search says 0. -/
def secondOf32 : XBitMap := ⟨[2#32], 32, by decide⟩

theorem secondOf32_not_findsLast1 :
    (∀ idx, secondOf32.bits ≤ idx → secondOf32.bit idx = false) ∧
      secondOf32.findLast1 1 = some 0 ∧ ¬ secondOf32.FindsLast1 1 := by
  have hfound : secondOf32.findLast1 1 = some 0 := by decide
  refine ⟨fun idx hidx => bit_of_word_zero (word_of_length_le ?_) rfl, hfound, fun h => ?_⟩
  · show 1 ≤ idx / 32
    have h32 : 32 ≤ idx := hidx
    omega
  · have hclear := (h.2 0 hfound).1
    revert hclear
    decide

end XBitMap

end Vin64.Utils
