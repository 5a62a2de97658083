import Mathlib.Data.List.Basic

/-!
# Command lines

Arguments are separated by blanks.  A quote begins or ends a part in which blanks are characters,
`2n` slashes before a quote are `n` slashes, `2n + 1` of them are `n` slashes and the quote
itself, and so are two quotes within such a part.
-/

namespace Vin64.Lib

/-- The characters with a meaning. -/
structure Quoting (χ : Type) where
  slash : χ
  dquote : χ
  space : χ
  blank : χ → Bool
  dquote_ne_slash : dquote ≠ slash
  blank_slash : blank slash = false
  blank_dquote : blank dquote = false
  blank_space : blank space = true

namespace Quoting

variable {χ : Type} [DecidableEq χ] (Q : Quoting χ)

def slashes (n : Nat) : List χ := List.replicate n Q.slash

/-- More characters in front of what was lexed. -/
def pre (cs : List χ) (r : List χ × Bool × List χ) : List χ × Bool × List χ := (cs ++ r.1, r.2)

/-- The argument at the front of a text, whether a quoted part is open behind it, and the text
left.  `q` says whether the text begins in a quoted part, and `n` slashes stand before it. -/
def lexArg (q : Bool) (n : Nat) : List χ → List χ × Bool × List χ
  | [] => (Q.slashes n, q, [])
  | c :: cs =>
    if c = Q.slash then lexArg q (n + 1) cs
    else if c = Q.dquote then
      if n % 2 = 1 then pre (Q.slashes (n / 2) ++ [c]) (lexArg q 0 cs)
      else if q && cs.head? = some Q.dquote then
        pre (Q.slashes (n / 2) ++ [c]) (lexArg q 0 cs.tail)
      else pre (Q.slashes (n / 2)) (lexArg (!q) 0 cs)
    else if !q && Q.blank c then (Q.slashes n, q, c :: cs)
    else pre (Q.slashes n ++ [c]) (lexArg q 0 cs)
termination_by cs => cs.length
decreasing_by all_goals simp; try omega

variable {q : Bool} {n m : Nat} {c : χ} {cs text : List χ}

omit [DecidableEq χ] in
theorem slashes_add (n m : Nat) : Q.slashes (n + m) = Q.slashes n ++ Q.slashes m :=
  (List.replicate_append_replicate ..).symm

@[simp] theorem lexArg_nil : Q.lexArg q n [] = (Q.slashes n, q, []) := by
  rw [lexArg]

@[simp] theorem lexArg_slash : Q.lexArg q n (Q.slash :: cs) = Q.lexArg q (n + 1) cs := by
  rw [lexArg, if_pos rfl]

theorem lexArg_run (n m : Nat) (text : List χ) :
    Q.lexArg q n (Q.slashes m ++ text) = Q.lexArg q (n + m) text := by
  induction m generalizing n with
  | zero => rfl
  | succ m ih =>
      have hm : Q.slashes (m + 1) ++ text = Q.slash :: (Q.slashes m ++ text) := rfl
      rw [hm, lexArg_slash, ih, Nat.add_assoc, Nat.add_comm 1]

theorem lexArg_dquote : Q.lexArg q n (Q.dquote :: cs) =
    if n % 2 = 1 then pre (Q.slashes (n / 2) ++ [Q.dquote]) (Q.lexArg q 0 cs)
    else if q && cs.head? = some Q.dquote then
      pre (Q.slashes (n / 2) ++ [Q.dquote]) (Q.lexArg q 0 cs.tail)
    else pre (Q.slashes (n / 2)) (Q.lexArg (!q) 0 cs) := by
  rw [lexArg, if_neg Q.dquote_ne_slash, if_pos rfl]

/-- A character without a meaning. -/
theorem lexArg_char (hs : c ≠ Q.slash) (hd : c ≠ Q.dquote) (hb : (!q && Q.blank c) = false) :
    Q.lexArg q n (c :: cs) = pre (Q.slashes n ++ [c]) (Q.lexArg q 0 cs) := by
  rw [lexArg, if_neg hs, if_neg hd, hb]
  rfl

omit [DecidableEq χ] in
theorem ne_slash_of_blank (h : Q.blank c = true) : c ≠ Q.slash := by
  rintro rfl
  rw [Q.blank_slash] at h
  exact absurd h (by decide)

omit [DecidableEq χ] in
theorem ne_dquote_of_blank (h : Q.blank c = true) : c ≠ Q.dquote := by
  rintro rfl
  rw [Q.blank_dquote] at h
  exact absurd h (by decide)

theorem lexArg_blank (hb : Q.blank c = true) :
    Q.lexArg false n (c :: cs) = (Q.slashes n, false, c :: cs) := by
  rw [lexArg, if_neg (Q.ne_slash_of_blank hb), if_neg (Q.ne_dquote_of_blank hb), hb]
  rfl

omit [DecidableEq χ] in
@[simp] theorem pre_rest (a : List χ) (r : List χ × Bool × List χ) : (pre a r).2.2 = r.2.2 := rfl

/-- What is left is the end of the text. -/
theorem lexArg_suffix (q : Bool) (n : Nat) (text : List χ) : (Q.lexArg q n text).2.2 <:+ text := by
  fun_induction lexArg Q q n text with
  | case1 => exact List.suffix_rfl
  | case2 q n cs ih => exact ih.trans (List.suffix_cons ..)
  | case3 q n cs _ _ ih => exact ih.trans (List.suffix_cons ..)
  | case4 q n cs _ _ _ ih => exact ih.trans ((List.tail_suffix cs).trans (List.suffix_cons ..))
  | case5 q n cs _ _ _ ih => exact ih.trans (List.suffix_cons ..)
  | case6 => exact List.suffix_rfl
  | case7 q n c cs _ _ _ ih => exact ih.trans (List.suffix_cons ..)

/-- An argument that begins with a character takes it. -/
theorem lexArg_length (q : Bool) (n : Nat) (cs : List χ) (h : Q.blank c = false) :
    (Q.lexArg q n (c :: cs)).2.2.length ≤ cs.length := by
  rw [lexArg, h]
  have hle : ∀ q m, (Q.lexArg q m cs).2.2.length ≤ cs.length :=
    fun q m => (Q.lexArg_suffix q m cs).length_le
  have htail : (Q.lexArg q 0 cs.tail).2.2.length ≤ cs.length :=
    ((Q.lexArg_suffix q 0 cs.tail).trans (List.tail_suffix cs)).length_le
  split
  · exact hle ..
  · split
    · split
      · exact hle ..
      · split
        · exact htail
        · exact hle ..
    · simpa using hle q 0

/-- The arguments of a text. -/
def lexArgs (text : List χ) : List (List χ) :=
  match _h : text.dropWhile Q.blank with
  | [] => []
  | c :: cs => (Q.lexArg false 0 (c :: cs)).1 :: lexArgs (Q.lexArg false 0 (c :: cs)).2.2
termination_by text.length
decreasing_by
  have hc : Q.blank c = false := by
    have hhead := List.head_dropWhile_not Q.blank (by rw [_h]; exact List.cons_ne_nil c cs)
    simpa [_h] using hhead
  have hdrop : (c :: cs).length ≤ text.length := _h ▸ (List.dropWhile_suffix Q.blank).length_le
  have hrest := Q.lexArg_length false 0 cs hc
  simp only [List.length_cons] at hdrop
  omega

theorem lexArgs_of_nil (h : text.dropWhile Q.blank = []) : Q.lexArgs text = [] := by
  rw [lexArgs]
  split
  · rfl
  · next h' => rw [h] at h'; cases h'

theorem lexArgs_of_cons (h : text.dropWhile Q.blank = c :: cs) :
    Q.lexArgs text =
      (Q.lexArg false 0 (c :: cs)).1 :: Q.lexArgs (Q.lexArg false 0 (c :: cs)).2.2 := by
  rw [lexArgs]
  split
  · next h' => rw [h] at h'; cases h'
  · next h' => rw [h] at h'; cases h'; rfl

/-- The slashes at the front of a text. -/
theorem exists_slashes (text : List χ) :
    ∃ m rest, text = Q.slashes m ++ rest ∧ rest.head? ≠ some Q.slash := by
  induction text with
  | nil => exact ⟨0, [], rfl, by simp⟩
  | cons c cs ih =>
      by_cases hc : c = Q.slash
      · obtain ⟨m, rest, hcs, hrest⟩ := ih
        refine ⟨m + 1, rest, ?_, hrest⟩
        rw [hc, hcs]
        rfl
      · exact ⟨0, c :: cs, rfl, by simpa using hc⟩

omit [DecidableEq χ] in
theorem mem_pre {x : χ} {a : List χ} {r : List χ × Bool × List χ} :
    x ∈ (pre a r).1 ↔ x ∈ a ∨ x ∈ r.1 := List.mem_append

omit [DecidableEq χ] in
theorem eq_slash_of_mem {x : χ} (h : x ∈ Q.slashes n) : x = Q.slash := List.eq_of_mem_replicate h

omit [DecidableEq χ] in
theorem mem_run {x : χ} (h : x ∈ Q.slashes n ++ [c]) : x = Q.slash ∨ x ∈ c :: cs := by
  rcases List.mem_append.1 h with h | h
  · exact .inl (Q.eq_slash_of_mem h)
  · exact .inr (List.mem_cons.2 (.inl (List.mem_singleton.1 h)))

/-- An argument has no character but slashes that the text does not have. -/
theorem mem_lexArg (q : Bool) (n : Nat) (text : List χ) {x : χ} (h : x ∈ (Q.lexArg q n text).1) :
    x = Q.slash ∨ x ∈ text := by
  fun_induction lexArg Q q n text with
  | case1 q n => exact .inl (Q.eq_slash_of_mem h)
  | case2 q n cs ih => exact (ih h).imp_right (List.mem_cons_of_mem _)
  | case3 q n cs _ _ ih =>
      rcases mem_pre.1 h with h | h
      · exact Q.mem_run h
      · exact (ih h).imp_right (List.mem_cons_of_mem _)
  | case4 q n cs _ _ _ ih =>
      rcases mem_pre.1 h with h | h
      · exact Q.mem_run h
      · exact (ih h).imp_right fun hx => List.mem_cons_of_mem _ (List.mem_of_mem_tail hx)
  | case5 q n cs _ _ _ ih =>
      rcases mem_pre.1 h with h | h
      · exact .inl (Q.eq_slash_of_mem h)
      · exact (ih h).imp_right (List.mem_cons_of_mem _)
  | case6 q n c cs => exact .inl (Q.eq_slash_of_mem h)
  | case7 q n c cs _ _ _ ih =>
      rcases mem_pre.1 h with h | h
      · exact Q.mem_run h
      · exact (ih h).imp_right (List.mem_cons_of_mem _)

theorem mem_lexArgs {text a : List χ} (ha : a ∈ Q.lexArgs text) {x : χ} (hx : x ∈ a) :
    x = Q.slash ∨ x ∈ text := by
  fun_induction lexArgs Q text with
  | case1 => cases ha
  | case2 text c cs h ih =>
      have hcs : ∀ y ∈ c :: cs, y ∈ text := fun y hy =>
        (List.dropWhile_suffix Q.blank).subset (h ▸ hy)
      rcases List.mem_cons.1 ha with rfl | ha
      · exact (Q.mem_lexArg _ _ _ hx).imp_right (hcs x)
      · exact (ih ha).imp_right fun hx => hcs x ((Q.lexArg_suffix ..).subset hx)

/-- A quoted part is open behind an argument at the end of the text only. -/
theorem lexArg_open (q : Bool) (n : Nat) (text : List χ) (h : (Q.lexArg q n text).2.1 = true) :
    (Q.lexArg q n text).2.2 = [] := by
  fun_induction lexArg Q q n text with
  | case1 => rfl
  | case2 q n cs ih => exact ih h
  | case3 q n cs _ _ ih => exact ih h
  | case4 q n cs _ _ _ ih => exact ih h
  | case5 q n cs _ _ _ ih => exact ih h
  | case6 q n c cs _ _ hb => simp [show q = true from h] at hb
  | case7 q n c cs _ _ _ ih => exact ih h

omit [DecidableEq χ] in
theorem length_pre (a : List χ) (r : List χ × Bool × List χ) :
    (pre a r).1.length = a.length + r.1.length := List.length_append

/-- An argument is no longer than the text it comes from. -/
theorem lexArg_size (q : Bool) (n : Nat) (text : List χ) :
    (Q.lexArg q n text).1.length + (Q.lexArg q n text).2.2.length ≤ n + text.length := by
  fun_induction lexArg Q q n text with
  | case1 q n => simp [slashes]
  | case2 q n cs ih =>
      rw [List.length_cons]
      omega
  | case3 q n cs _ _ ih =>
      rw [length_pre, pre_rest, List.length_append, slashes, List.length_replicate]
      simp only [List.length_cons, List.length_nil]
      omega
  | case4 q n cs _ _ hq ih =>
      have htail := (List.tail_suffix cs).length_le
      rw [length_pre, pre_rest, List.length_append, slashes, List.length_replicate]
      simp only [List.length_cons, List.length_nil]
      omega
  | case5 q n cs _ _ _ ih =>
      rw [length_pre, pre_rest, slashes, List.length_replicate, List.length_cons]
      omega
  | case6 q n c cs => simp [slashes]
  | case7 q n c cs _ _ _ ih =>
      rw [length_pre, pre_rest, List.length_append, slashes, List.length_replicate]
      simp only [List.length_cons, List.length_nil]
      omega

/-- What is left behind an argument begins with a blank. -/
theorem lexArg_stop (q : Bool) (n : Nat) (text : List χ) :
    ∀ d ∈ (Q.lexArg q n text).2.2.head?, Q.blank d = true := by
  fun_induction lexArg Q q n text with
  | case1 => simp
  | case2 q n cs ih => exact ih
  | case3 q n cs _ _ ih => exact ih
  | case4 q n cs _ _ _ ih => exact ih
  | case5 q n cs _ _ _ ih => exact ih
  | case6 q n c cs _ _ hb =>
      rw [Bool.and_eq_true] at hb
      simpa using hb.2
  | case7 q n c cs _ _ _ ih => exact ih

/-- The arguments, each with a terminator, are hardly longer than the text. -/
theorem lexArgs_size (nul : χ) (text : List χ) :
    ((Q.lexArgs text).flatMap (· ++ [nul])).length ≤ (text.dropWhile Q.blank).length + 1 := by
  fun_induction lexArgs Q text with
  | case1 => simp
  | case2 text c cs h ih =>
      have hsize := Q.lexArg_size false 0 (c :: cs)
      have hstop := Q.lexArg_stop false 0 (c :: cs)
      rw [h, List.flatMap_cons, List.length_append, List.length_append, List.length_singleton]
      cases hrest : (Q.lexArg false 0 (c :: cs)).2.2 with
      | nil =>
          rw [hrest, List.length_nil] at hsize
          rw [Q.lexArgs_of_nil rfl, List.flatMap_nil, List.length_nil]
          omega
      | cons d ds =>
          have hd : Q.blank d = true := hstop d (by rw [hrest]; rfl)
          have hlast := (List.dropWhile_suffix Q.blank (l := ds)).length_le
          rw [hrest, List.dropWhile_cons_of_pos hd] at ih
          rw [hrest, List.length_cons] at hsize
          omega

/-! ## Quoting -/

/-- `n` slashes and `s`, as they stand within quotes. -/
def escape (n : Nat) : List χ → List χ
  | [] => Q.slashes (2 * n)
  | c :: cs =>
    if c = Q.slash then escape (n + 1) cs
    else if c = Q.dquote then Q.slashes (2 * n + 1) ++ c :: escape 0 cs
    else Q.slashes n ++ c :: escape 0 cs

def quote (s : List χ) : List χ := Q.dquote :: Q.escape 0 s ++ [Q.dquote]

def joinQuoted (args : List (List χ)) : List χ := List.intercalate [Q.space] (args.map Q.quote)

/-- The escaped slashes and characters are read back, up to the closing quote. -/
theorem lexArg_escape (n : Nat) (s : List χ) {tail : List χ} (ht : tail.head? ≠ some Q.dquote) :
    Q.lexArg true 0 (Q.escape n s ++ Q.dquote :: tail) =
      pre (Q.slashes n ++ s) (Q.lexArg false 0 tail) := by
  fun_induction escape Q n s with
  | case1 n =>
      rw [lexArg_run, Nat.zero_add, lexArg_dquote, if_neg (by omega), if_neg (by simpa using ht)]
      simp
  | case2 n cs ih =>
      rw [ih, slashes_add, List.append_assoc]
      rfl
  | case3 n cs _ ih =>
      have hhalf : (2 * n + 1) / 2 = n := by omega
      rw [List.append_assoc, lexArg_run, Nat.zero_add, List.cons_append, lexArg_dquote,
        if_pos (by omega), hhalf, ih]
      simp [pre, slashes]
  | case4 n c cs hs hd ih =>
      rw [List.append_assoc, lexArg_run, Nat.zero_add, List.cons_append,
        Q.lexArg_char hs hd rfl, ih]
      simp [pre, slashes]

theorem quote_append (s tail : List χ) :
    Q.quote s ++ tail = Q.dquote :: (Q.escape 0 s ++ Q.dquote :: tail) := by
  simp [quote]

theorem lexArg_quote (s : List χ) {tail : List χ} (ht : tail.head? ≠ some Q.dquote) :
    Q.lexArg false 0 (Q.quote s ++ tail) = pre s (Q.lexArg false 0 tail) := by
  rw [quote_append, lexArg_dquote, if_neg (by decide), if_neg (by simp), Bool.not_false,
    Q.lexArg_escape 0 s ht]
  rfl

theorem lexArgs_blank (hb : Q.blank c = true) (text : List χ) :
    Q.lexArgs (c :: text) = Q.lexArgs text := by
  have hdrop : (c :: text).dropWhile Q.blank = text.dropWhile Q.blank := by
    rw [List.dropWhile_cons, if_pos hb]
  cases h : text.dropWhile Q.blank with
  | nil => rw [Q.lexArgs_of_nil h, Q.lexArgs_of_nil (hdrop.trans h)]
  | cons d ds => rw [Q.lexArgs_of_cons h, Q.lexArgs_of_cons (hdrop.trans h)]

/-- A quoted string is one argument. -/
theorem lexArgs_quote (s tail : List χ) (ht : tail.head? ≠ some Q.dquote) :
    Q.lexArgs (Q.quote s ++ tail) =
      (s ++ (Q.lexArg false 0 tail).1) :: Q.lexArgs (Q.lexArg false 0 tail).2.2 := by
  have hdrop : (Q.quote s ++ tail).dropWhile Q.blank =
      Q.dquote :: (Q.escape 0 s ++ Q.dquote :: tail) := by
    have hb : ¬ Q.blank Q.dquote = true := by rw [Q.blank_dquote]; decide
    rw [quote_append, List.dropWhile_cons_of_neg hb]
  rw [Q.lexArgs_of_cons hdrop, ← quote_append, Q.lexArg_quote s ht]
  rfl

theorem joinQuoted_cons (s t : List χ) (args : List (List χ)) :
    Q.joinQuoted (s :: t :: args) = Q.quote s ++ Q.space :: Q.joinQuoted (t :: args) := by
  simp [joinQuoted, List.intercalate]

/-- Quoted strings between single spaces are read back, empty ones included. -/
theorem lexArgs_joinQuoted (args : List (List χ)) : Q.lexArgs (Q.joinQuoted args) = args := by
  induction args with
  | nil => exact Q.lexArgs_of_nil rfl
  | cons s args ih =>
      cases args with
      | nil =>
          have h := Q.lexArgs_quote s [] (by simp)
          simpa [joinQuoted, show Q.lexArgs [] = [] from Q.lexArgs_of_nil rfl, slashes] using h
      | cons t args =>
          have hspace : Q.space ≠ Q.dquote := Q.ne_dquote_of_blank Q.blank_space
          rw [joinQuoted_cons, Q.lexArgs_quote s _ (by simpa using hspace),
            Q.lexArg_blank Q.blank_space]
          rw [Q.lexArgs_blank Q.blank_space, ih]
          simp [slashes]

theorem mem_escape (n : Nat) (s : List χ) {x : χ} (h : x ∈ Q.escape n s) :
    x = Q.slash ∨ x ∈ s := by
  fun_induction escape Q n s with
  | case1 n => exact .inl (Q.eq_slash_of_mem h)
  | case2 n cs ih => exact (ih h).imp_right (List.mem_cons_of_mem _)
  | case3 n cs _ ih =>
      rcases List.mem_append.1 h with h | h
      · exact .inl (Q.eq_slash_of_mem h)
      · rcases List.mem_cons.1 h with rfl | h
        · exact .inr List.mem_cons_self
        · exact (ih h).imp_right (List.mem_cons_of_mem _)
  | case4 n c cs _ _ ih =>
      rcases List.mem_append.1 h with h | h
      · exact .inl (Q.eq_slash_of_mem h)
      · rcases List.mem_cons.1 h with rfl | h
        · exact .inr List.mem_cons_self
        · exact (ih h).imp_right (List.mem_cons_of_mem _)

theorem mem_quote {s : List χ} {x : χ} (h : x ∈ Q.quote s) :
    x = Q.slash ∨ x = Q.dquote ∨ x ∈ s := by
  simp only [quote, List.cons_append, List.mem_cons, List.mem_append, List.not_mem_nil,
    or_false] at h
  rcases h with h | h | h
  · exact .inr (.inl h)
  · exact (Q.mem_escape 0 s h).imp_right .inr
  · exact .inr (.inl h)

/-- The joined line has no other characters. -/
theorem mem_joinQuoted {args : List (List χ)} {x : χ} (h : x ∈ Q.joinQuoted args) :
    x = Q.slash ∨ x = Q.dquote ∨ x = Q.space ∨ ∃ a ∈ args, x ∈ a := by
  induction args with
  | nil => cases h
  | cons s args ih =>
      have hfirst : x ∈ Q.quote s → x = Q.slash ∨ x = Q.dquote ∨ x = Q.space ∨
          ∃ a ∈ s :: args, x ∈ a := fun h =>
        (Q.mem_quote h).imp_right fun h =>
          h.imp_right fun h => .inr ⟨s, List.mem_cons_self, h⟩
      cases args with
      | nil =>
          refine hfirst ?_
          simpa [joinQuoted] using h
      | cons t args =>
          rw [joinQuoted_cons] at h
          rcases List.mem_append.1 h with h | h
          · exact hfirst h
          · rcases List.mem_cons.1 h with h | h
            · exact .inr (.inr (.inl h))
            · refine (ih h).imp_right fun h => h.imp_right fun h => h.imp_right ?_
              rintro ⟨a, ha, hx⟩
              exact ⟨a, List.mem_cons_of_mem s ha, hx⟩

end Quoting

end Vin64.Lib
