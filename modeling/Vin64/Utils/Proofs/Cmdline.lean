import Vin64.Lib.Quoting
import Vin64.Utils.Arguments

/-!
# The two passes of `parse_cmdline`

Both passes write the arguments that `lexArgs` finds, each with its terminator, and a pointer to
each.
-/

namespace Vin64.Utils

open Vin64.Lib

/-- The characters with a meaning. -/
def cmdline : Quoting WChar where
  slash := SLASHCHAR
  dquote := DQUOTECHAR
  space := SPACECHAR
  blank := isBlank
  dquote_ne_slash := by decide
  blank_slash := by decide
  blank_dquote := by decide
  blank_space := by decide

/-- What is left of the line at `p`. -/
def WStr.At (line : WStr) (p : Nat) (text : List WChar) : Prop :=
  p + text.length = line.chars.length ∧ text <:+ line.chars

variable {line : WStr} {p : Nat} {c : WChar} {cs text : List WChar} {o : Outs}

theorem WStr.at_zero (line : WStr) : line.At 0 line.chars := ⟨Nat.zero_add _, List.suffix_rfl⟩

theorem WStr.At.deref_nil (h : line.At p []) : line.deref p = some NULCHAR := by
  have hp : p = line.chars.length := h.1
  rw [WStr.deref, hp, List.getElem?_append_right (Nat.le_refl _), Nat.sub_self]
  rfl

theorem WStr.At.deref_cons (h : line.At p (c :: cs)) : line.deref p = some c := by
  obtain ⟨hlen, front, hchars⟩ := h
  have hp : p = front.length := by
    rw [← hchars, List.length_append] at hlen
    omega
  rw [WStr.deref, ← hchars, hp, List.append_assoc, List.getElem?_append_right (Nat.le_refl _),
    Nat.sub_self]
  rfl

theorem WStr.At.next (h : line.At p (c :: cs)) : line.At (p + 1) cs := by
  refine ⟨?_, (List.suffix_cons c cs).trans h.2⟩
  have hlen := h.1
  rw [List.length_cons] at hlen
  omega

theorem WStr.At.ne_nul (h : line.At p (c :: cs)) : c ≠ NULCHAR := by
  rintro rfl
  exact line.noNul (h.2.subset List.mem_cons_self)

theorem WStr.At.suffix (h : line.At p text) {rest : List WChar} (hr : rest <:+ text) :
    line.At (line.chars.length - rest.length) rest := by
  have hle := hr.length_le
  have hlen := h.1
  exact ⟨by omega, hr.trans h.2⟩

theorem WStr.At.slashes {m : Nat} (h : line.At p (cmdline.slashes m ++ text)) :
    line.At (p + m) text := by
  refine ⟨?_, (List.suffix_append ..).trans h.2⟩
  have hlen := h.1
  rw [List.length_append, Quoting.slashes, List.length_replicate] at hlen
  omega

theorem skipBlanks_eq (fuel : Nat) (h : line.At p text) (hfuel : text.length < fuel) :
    skipBlanks line fuel p =
      some (line.chars.length - (text.dropWhile isBlank).length) := by
  induction fuel generalizing p text with
  | zero => omega
  | succ fuel ih =>
      cases text with
      | nil =>
          have hlen := h.1
          simp [skipBlanks, h.deref_nil, show isBlank NULCHAR = false from rfl, ← hlen]
      | cons c cs =>
          rw [skipBlanks, h.deref_cons]
          by_cases hc : isBlank c = true
          · rw [List.dropWhile_cons_of_pos hc]
            simpa [hc] using ih h.next (Nat.lt_of_succ_lt_succ hfuel)
          · have hlen := h.1
            rw [List.dropWhile_cons_of_neg hc, ← hlen]
            simp [hc]

theorem countSlashes_eq (m n fuel : Nat) (h : line.At p (cmdline.slashes m ++ text))
    (hs : text.head? ≠ some SLASHCHAR) (hfuel : m < fuel) :
    countSlashes line fuel p n = some (p + m, n + m) := by
  induction m generalizing p n fuel with
  | zero =>
      obtain ⟨fuel, rfl⟩ : ∃ k, fuel = k + 1 := ⟨fuel - 1, by omega⟩
      cases text with
      | nil =>
          rw [countSlashes, h.deref_nil]
          rfl
      | cons c cs =>
          have hc : c ≠ SLASHCHAR := by simpa using hs
          rw [countSlashes, WStr.At.deref_cons h]
          simp [hc]
  | succ m ih =>
      obtain ⟨fuel, rfl⟩ : ∃ k, fuel = k + 1 := ⟨fuel - 1, by omega⟩
      have h' : line.At p (SLASHCHAR :: (cmdline.slashes m ++ text)) := h
      rw [countSlashes, h'.deref_cons]
      have hnext := ih (n + 1) fuel h'.next (by omega)
      simp only [Option.bind_eq_bind, Option.bind_some, if_pos, hnext]
      simp only [Option.some.injEq, Prod.mk.injEq]
      omega

/-! ## What is written -/

/-- The characters are written one after the other. -/
def Outs.emit (o : Outs) (cs : List WChar) : Option Outs := cs.foldlM Outs.copy o

@[simp] theorem Outs.emit_nil : o.emit [] = some o := rfl

theorem Outs.emit_append (cs ds : List WChar) :
    o.emit (cs ++ ds) = (o.emit cs).bind fun o => o.emit ds := List.foldlM_append

theorem Outs.emit_singleton : o.emit [c] = o.copy c := by
  simp [emit]

theorem copySlashes_eq (n : Nat) (o : Outs) : copySlashes n o = o.emit (cmdline.slashes n) := by
  induction n generalizing o with
  | zero => rfl
  | succ n ih =>
      have hs : cmdline.slashes (n + 1) = [SLASHCHAR] ++ cmdline.slashes n := rfl
      rw [copySlashes, hs, Outs.emit_append, Outs.emit_singleton]
      simp only [ih]
      rfl

/-- One round of the loop through an argument, behind the test for a quote. -/
def endRound (line : WStr) (fuel : Nat) (r : Nat × Bool × Bool × Nat) (o : Outs) :
    Option (Nat × Bool × Outs) := do
  let o ← copySlashes r.2.2.2 o
  let c ← line.deref r.1
  if c = NULCHAR || (!r.2.1 && isBlank c) then some (r.1, r.2.1, o)
  else
    let o ← if r.2.2.1 then o.copy c else some o
    scanArg line fuel (r.1 + 1) r.2.1 o

theorem scanArg_succ (fuel : Nat) (q : Bool) (o : Outs) :
    scanArg line (fuel + 1) p q o =
      (countSlashes line (line.chars.length + 1) p 0).bind fun r =>
        (atQuote line r.1 q r.2).bind fun r => endRound line fuel r o := rfl

theorem endRound_stop {fuel n : Nat} {q copychar : Bool} (h : line.deref p = some c)
    (hstop : c = NULCHAR ∨ q = false ∧ isBlank c = true) (o : Outs) :
    endRound line fuel (p, q, copychar, n) o =
      (o.emit (cmdline.slashes n)).map fun o => (p, q, o) := by
  have hcond : (decide (c = NULCHAR) || (!q && isBlank c)) = true := by
    simpa using hstop
  rw [endRound, copySlashes_eq, h]
  simp only [Option.bind_eq_bind, Option.bind_some, hcond, if_true]
  exact (Option.map_eq_bind ..).symm

theorem endRound_next {fuel n : Nat} {q copychar : Bool} (h : line.At p (c :: cs))
    (hstop : (!q && isBlank c) = false) (o : Outs) :
    endRound line fuel (p, q, copychar, n) o =
      (o.emit (cmdline.slashes n ++ if copychar then [c] else [])).bind
        fun o => scanArg line fuel (p + 1) q o := by
  have hcond : (decide (c = NULCHAR) || (!q && isBlank c)) = false := by
    rw [hstop, Bool.or_false]
    exact decide_eq_false h.ne_nul
  rw [endRound, copySlashes_eq, Outs.emit_append, h.deref_cons, Option.bind_assoc]
  refine congrArg (Option.bind _) (funext fun o => ?_)
  simp only [Option.bind_eq_bind, Option.bind_some, hcond, Bool.false_eq_true, if_false]
  cases copychar
  · rfl
  · rw [if_pos rfl, if_pos rfl, Outs.emit_singleton]

/-- The state of the scan behind what was lexed. -/
def behind (line : WStr) (r : List WChar × Bool × List WChar) (o : Outs) : Nat × Bool × Outs :=
  (line.chars.length - r.2.2.length, r.2.1, o)

theorem map_emit_pre (a : List WChar) (r : List WChar × Bool × List WChar) (o : Outs) :
    (o.emit (Quoting.pre a r).1).map (behind line (Quoting.pre a r)) =
      (o.emit a).bind fun o => (o.emit r.1).map (behind line r) := by
  rw [show (Quoting.pre a r).1 = a ++ r.1 from rfl, Outs.emit_append, Option.map_bind]
  rfl

theorem atQuote_of_ne (h : line.deref p = some c) (hc : c ≠ DQUOTECHAR) (q : Bool) (n : Nat) :
    atQuote line p q n = some (p, q, true, n) := by
  simp [atQuote, h, hc]

theorem atQuote_dquote (h : line.At p (DQUOTECHAR :: cs)) (q : Bool) (n : Nat) :
    atQuote line p q n =
      if n % 2 = 1 then some (p, q, true, n / 2)
      else if q && cs.head? = some DQUOTECHAR then some (p + 1, q, true, n / 2)
      else some (p, !q, false, n / 2) := by
  have hnext : line.deref (p + 1) = some (cs.head?.getD NULCHAR) := by
    cases cs with
    | nil => exact h.next.deref_nil
    | cons d ds => exact h.next.deref_cons
  have hhead : (cs.head?.getD NULCHAR = DQUOTECHAR) ↔ cs.head? = some DQUOTECHAR := by
    cases cs with
    | nil => simp [show NULCHAR ≠ DQUOTECHAR by decide]
    | cons d ds => simp
  rcases Nat.mod_two_eq_zero_or_one n with hn | hn
  · cases q <;> simp [atQuote, h.deref_cons, hn, hnext, hhead]
  · simp [atQuote, h.deref_cons, hn]

/-- The argument is written, and the scan stands behind it. -/
theorem scanArg_eq (fuel : Nat) (q : Bool) (o : Outs) (h : line.At p text)
    (hfuel : text.length < fuel) :
    scanArg line fuel p q o =
      (o.emit (cmdline.lexArg q 0 text).1).map (behind line (cmdline.lexArg q 0 text)) := by
  induction fuel generalizing p q o text with
  | zero => omega
  | succ fuel ih =>
      obtain ⟨m, rest, rfl, hs⟩ := cmdline.exists_slashes text
      rw [List.length_append] at hfuel
      have hm : m < line.chars.length + 1 := by
        have hlen := h.1
        rw [List.length_append, Quoting.slashes, List.length_replicate] at hlen
        omega
      have hat := h.slashes
      rw [scanArg_succ, countSlashes_eq m 0 _ h hs hm, Quoting.lexArg_run]
      simp only [Option.bind_some, Nat.zero_add]
      cases rest with
      | nil =>
          have hp : p + m = line.chars.length := hat.1
          rw [atQuote_of_ne hat.deref_nil (by decide), Option.bind_some,
            endRound_stop hat.deref_nil (.inl rfl), hp, Quoting.lexArg_nil]
          rfl
      | cons c cs =>
          have hcs : cs.length < fuel := by
            rw [List.length_cons] at hfuel
            omega
          have hne : c ≠ SLASHCHAR := fun hc => hs (congrArg some hc)
          by_cases hd : c = DQUOTECHAR
          · subst hd
            have hstop (q : Bool) : (!q && isBlank DQUOTECHAR) = false := Bool.and_false _
            rw [atQuote_dquote hat, show DQUOTECHAR = cmdline.dquote from rfl,
              Quoting.lexArg_dquote]
            split
            · rw [map_emit_pre, Option.bind_some, endRound_next hat (hstop q)]
              simp only [ih q _ hat.next hcs]
              rfl
            · split
              · next hdouble =>
                  -- the second quote is copied
                  obtain ⟨ds, rfl⟩ : ∃ ds, cs = DQUOTECHAR :: ds := by
                    rw [Bool.and_eq_true, decide_eq_true_eq] at hdouble
                    exact List.head?_eq_some_iff.1 hdouble.2
                  have hds : ds.length < fuel := Nat.lt_of_succ_lt hcs
                  rw [map_emit_pre, Option.bind_some, endRound_next hat.next (hstop q)]
                  simp only [ih q _ hat.next.next hds]
                  rfl
              · rw [map_emit_pre, Option.bind_some, endRound_next hat (hstop (!q))]
                simp only [ih (!q) _ hat.next hcs, Bool.false_eq_true, if_false, List.append_nil]
          · rw [atQuote_of_ne hat.deref_cons hd, Option.bind_some]
            by_cases hb : (!q && isBlank c) = true
            · have hb' : q = false ∧ isBlank c = true := by simpa using hb
              have hp : p + m = line.chars.length - (c :: cs).length := by
                have hlen := hat.1
                omega
              rw [endRound_stop hat.deref_cons (.inr hb'), hb'.1, cmdline.lexArg_blank hb'.2, hp]
              rfl
            · have hb' : (!q && isBlank c) = false := Bool.eq_false_iff.2 hb
              rw [endRound_next hat hb', cmdline.lexArg_char hne hd hb', map_emit_pre]
              simp only [ih q _ hat.next hcs]
              rfl

/-- A pointer to the argument, and the argument with its terminator. -/
def Outs.emitArg (o : Outs) (arg : List WChar) : Option Outs :=
  (o.store o.here).bind fun o => o.emit (arg ++ [NULCHAR])

def Outs.emitArgs (o : Outs) (args : List (List WChar)) : Option Outs := args.foldlM emitArg o

theorem Outs.emitArgs_cons (arg : List WChar) (args : List (List WChar)) :
    o.emitArgs (arg :: args) = (o.emitArg arg).bind fun o => o.emitArgs args :=
  List.foldlM_cons

theorem skipToArg_eq (h : line.At p text) :
    skipToArg line p = some (line.chars.length - (text.dropWhile isBlank).length) := by
  have hlen := h.1
  cases text with
  | nil =>
      rw [skipToArg, h.deref_nil, ← hlen]
      rfl
  | cons c cs =>
      rw [skipToArg, h.deref_cons]
      simp only [Option.bind_eq_bind, Option.bind_some, if_pos h.ne_nul]
      exact skipBlanks_eq _ h (by omega)

/-- The loop on each argument, up to the argument. -/
theorem scanArgs_succ (fuel : Nat) (q : Bool) (o : Outs) (h : line.At p text) :
    scanArgs line (fuel + 1) p q o =
      match text.dropWhile isBlank with
      | [] => some o
      | c :: cs =>
        (o.store o.here).bind fun o =>
          (scanArg line (line.chars.length + 1) (line.chars.length - (c :: cs).length) q o).bind
            fun r => (r.2.2.copy NULCHAR).bind fun o => scanArgs line fuel r.1 r.2.1 o := by
  have hbehind := h.suffix (List.dropWhile_suffix isBlank)
  rw [scanArgs, skipToArg_eq h]
  simp only [Option.bind_eq_bind, Option.bind_some]
  cases hdrop : text.dropWhile isBlank with
  | nil =>
      rw [hdrop] at hbehind
      rw [hbehind.deref_nil]
      rfl
  | cons c cs =>
      rw [hdrop] at hbehind
      rw [hbehind.deref_cons, Option.bind_some, if_neg hbehind.ne_nul]

theorem scanArgs_eq (fuel : Nat) (q : Bool) (o : Outs) (h : line.At p text)
    (hq : q = true → text = []) (hfuel : text.length < fuel) :
    scanArgs line fuel p q o = o.emitArgs (cmdline.lexArgs text) := by
  induction fuel generalizing p q o text with
  | zero => omega
  | succ fuel ih =>
      have hsuffix : text.dropWhile isBlank <:+ text := List.dropWhile_suffix isBlank
      have hle := hsuffix.length_le
      have hblanks := h.suffix hsuffix
      rw [scanArgs_succ fuel q o h]
      cases hdrop : text.dropWhile isBlank with
      | nil =>
          rw [cmdline.lexArgs_of_nil hdrop]
          rfl
      | cons c cs =>
          rw [hdrop] at hle hblanks
          have hq' : q = false := by
            cases q with
            | false => rfl
            | true => rw [hq rfl] at hdrop; cases hdrop
          have hc : isBlank c = false := by
            have hhead := List.head_dropWhile_not isBlank
              (by rw [hdrop]; exact List.cons_ne_nil c cs)
            simpa [hdrop] using hhead
          have hrest := (cmdline.lexArg_suffix false 0 (c :: cs))
          have hlt := cmdline.lexArg_length false 0 cs hc
          rw [List.length_cons] at hle
          have hchars := hblanks.1
          rw [cmdline.lexArgs_of_cons hdrop, Outs.emitArgs_cons, hq']
          simp only [scanArg_eq (line.chars.length + 1) false _ hblanks (by omega)]
          rw [Outs.emitArg, Option.bind_assoc]
          refine congrArg (Option.bind _) (funext fun o => ?_)
          rw [Outs.emit_append, Option.bind_map, Option.bind_assoc]
          refine congrArg (Option.bind _) (funext fun o => ?_)
          rw [Outs.emit_singleton]
          refine congrArg (Option.bind _) (funext fun o => ?_)
          exact ih _ o (hblanks.suffix hrest) (cmdline.lexArg_open false 0 (c :: cs)) (by omega)

/-! ## The buffers -/

def OutPtr.append {α : Type} (b : OutPtr α) (xs : List α) : OutPtr α :=
  { b with written := b.written ++ xs }

/-- There is room for so many more pointers and characters. -/
def Outs.Room (o : Outs) (nargs nchars : Nat) : Prop :=
  (∀ b ∈ o.argv, b.written.length + nargs ≤ b.room) ∧
    ∀ b ∈ o.args, b.written.length + nchars ≤ b.room

def Outs.push (o : Outs) (ptrs : List (Option Nat)) (cs : List WChar) : Outs where
  argv := o.argv.map (·.append ptrs)
  args := o.args.map (·.append cs)
  numargs := o.numargs + ptrs.length
  numchars := o.numchars + cs.length

theorem OutPtr.append_append {α : Type} (b : OutPtr α) (xs ys : List α) :
    (b.append xs).append ys = b.append (xs ++ ys) := by
  simp [append]

theorem Outs.push_push (ptrs ptrs' : List (Option Nat)) (cs ds : List WChar) :
    (o.push ptrs cs).push ptrs' ds = o.push (ptrs ++ ptrs') (cs ++ ds) := by
  simp [push, Function.comp_def, OutPtr.append_append, Nat.add_assoc]

theorem Outs.push_nil : o.push [] [] = o := by
  simp [push, OutPtr.append]

theorem Outs.Room.push {nargs nchars : Nat} (ptrs : List (Option Nat)) (cs : List WChar)
    (h : o.Room (ptrs.length + nargs) (cs.length + nchars)) :
    (o.push ptrs cs).Room nargs nchars := by
  refine ⟨fun b hb => ?_, fun b hb => ?_⟩
  · obtain ⟨b', hb', rfl⟩ := Option.map_eq_some_iff.1 hb
    have hroom := h.1 b' hb'
    simp only [OutPtr.append, List.length_append]
    omega
  · obtain ⟨b', hb', rfl⟩ := Option.map_eq_some_iff.1 hb
    have hroom := h.2 b' hb'
    simp only [OutPtr.append, List.length_append]
    omega

theorem putIf_eq {α : Type} {ptr : Option (OutPtr α)} {n : Nat}
    (h : ∀ b ∈ ptr, b.written.length + (n + 1) ≤ b.room) (x : α) :
    putIf ptr x = some (ptr.map (·.append [x])) := by
  cases ptr with
  | none => rfl
  | some b =>
      have hb := h b rfl
      rw [putIf, if_pos (by omega)]
      rfl

theorem Outs.copy_eq {nargs nchars : Nat} (h : o.Room nargs (nchars + 1)) :
    o.copy c = some (o.push [] [c]) := by
  have hargv : o.argv.map (·.append []) = o.argv := by simp [OutPtr.append]
  rw [copy, putIf_eq h.2, push, hargv]
  rfl

theorem Outs.store_eq {nargs nchars : Nat} (h : o.Room (nargs + 1) nchars) (ptr : Option Nat) :
    o.store ptr = some (o.push [ptr] []) := by
  have hargs : o.args.map (·.append []) = o.args := by simp [OutPtr.append]
  rw [store, putIf_eq h.1, push, hargs]
  rfl

theorem Outs.emit_eq {nargs : Nat} (cs : List WChar) (h : o.Room nargs cs.length) :
    o.emit cs = some (o.push [] cs) := by
  induction cs generalizing o with
  | nil => rw [emit_nil, push_nil]
  | cons c cs ih =>
      have hcopy := copy_eq (c := c) h
      have hroom : (o.push [] [c]).Room nargs cs.length :=
        Room.push [] [c] (by simpa [Nat.add_comm] using h)
      rw [show c :: cs = [c] ++ cs from rfl, emit_append, emit_singleton, hcopy, Option.bind_some,
        ih hroom, push_push]
      rfl

/-- The arguments, each with its terminator. -/
def flat (args : List (List WChar)) : List WChar := args.flatMap (· ++ [NULCHAR])

/-- The pointers to them, from the first on. -/
def layout (here : Option Nat) : List (List WChar) → List (Option Nat)
  | [] => []
  | arg :: args => here :: layout (here.map (· + (arg.length + 1))) args

@[simp] theorem length_layout (here : Option Nat) (args : List (List WChar)) :
    (layout here args).length = args.length := by
  induction args generalizing here with
  | nil => rfl
  | cons arg args ih => simp [layout, ih]

theorem Outs.here_push (ptrs : List (Option Nat)) :
    (o.push ptrs cs).here = o.here.map (· + cs.length) := by
  simp [here, push, OutPtr.append, Function.comp_def]

theorem Outs.emitArgs_eq (args : List (List WChar)) (h : o.Room args.length (flat args).length) :
    o.emitArgs args = some (o.push (layout o.here args) (flat args)) := by
  induction args generalizing o with
  | nil => exact congrArg some push_nil.symm
  | cons arg args ih =>
      rw [List.length_cons, flat, List.flatMap_cons, List.length_append] at h
      have hstored : (o.push [o.here] []).Room args.length
          ((arg ++ [NULCHAR]).length + (flat args).length) :=
        Room.push [o.here] [] (by simpa [flat, Nat.add_comm] using h)
      have harg : (o.push [o.here] []).emit (arg ++ [NULCHAR]) =
          some (o.push [o.here] (arg ++ [NULCHAR])) := by
        have hroom : (o.push [o.here] []).Room args.length (arg ++ [NULCHAR]).length :=
          ⟨hstored.1, fun b hb => Nat.le_trans (by omega) (hstored.2 b hb)⟩
        rw [emit_eq _ hroom, push_push]
        rfl
      have hrest : (o.push [o.here] (arg ++ [NULCHAR])).Room args.length (flat args).length := by
        have hroom : (o.push [o.here] []).Room (([] : List (Option Nat)).length + args.length)
            ((arg ++ [NULCHAR]).length + (flat args).length) := by simpa using hstored
        have hpush := Room.push [] (arg ++ [NULCHAR]) hroom
        rwa [push_push] at hpush
      rw [emitArgs_cons, emitArg, store_eq h, Option.bind_some, harg, Option.bind_some,
        ih hrest, here_push, push_push]
      simp [layout, flat]

/-- What either pass leaves. -/
theorem parseCmdline_eq (line : WStr) (argv : Option (OutPtr (Option Nat)))
    (args : Option (OutPtr WChar))
    (h : (Outs.mk argv args 0 0).Room ((cmdline.lexArgs line.chars).length + 1)
      (flat (cmdline.lexArgs line.chars)).length) :
    parseCmdline line argv args = some ((Outs.mk argv args 0 0).push
      (layout (args.map (·.written.length)) (cmdline.lexArgs line.chars) ++ [none])
      (flat (cmdline.lexArgs line.chars))) := by
  have hargs : (Outs.mk argv args 0 0).Room (cmdline.lexArgs line.chars).length
      (flat (cmdline.lexArgs line.chars)).length :=
    ⟨fun b hb => Nat.le_trans (by omega) (h.1 b hb), h.2⟩
  have hnull : ((Outs.mk argv args 0 0).push
      (layout (args.map (·.written.length)) (cmdline.lexArgs line.chars))
      (flat (cmdline.lexArgs line.chars))).Room (0 + 1) 0 :=
    Outs.Room.push _ _ (by simpa using h)
  rw [parseCmdline, scanArgs_eq _ false _ line.at_zero (by simp) (Nat.lt_succ_self _),
    Outs.emitArgs_eq _ hargs]
  exact (Outs.store_eq hnull none).trans (by rw [Outs.push_push, List.append_nil])

/-! ## The arguments in the buffer -/

theorem WStr.ext {s t : WStr} (h : s.chars = t.chars) : s = t := by
  cases s
  cases t
  cases h
  rfl

theorem cstrAt_eq (front tail : List WChar) (s : WStr) :
    cstrAt (front ++ (s.chars ++ NULCHAR :: tail)) (some front.length) = some s := by
  have hkeep : ∀ c ∈ s.chars, decide (c ≠ NULCHAR) = true := fun c hc =>
    decide_eq_true fun he => s.noNul (he ▸ hc)
  have hdrop : (front ++ (s.chars ++ NULCHAR :: tail)).drop front.length =
      s.chars ++ NULCHAR :: tail := List.drop_left
  have hmem : NULCHAR ∈ s.chars ++ NULCHAR :: tail := by simp
  simp only [cstrAt, Option.bind_eq_bind, Option.bind_some, hdrop, if_pos hmem]
  refine congrArg some (WStr.ext ?_)
  change (s.chars ++ NULCHAR :: tail).takeWhile (fun c => decide (c ≠ NULCHAR)) = s.chars
  rw [List.takeWhile_append_of_pos hkeep, List.takeWhile_cons_of_neg (by decide), List.append_nil]

theorem layout_strings (front : List WChar) (words : List WStr) :
    (layout (some front.length) (words.map WStr.chars)).mapM
      (cstrAt (front ++ flat (words.map WStr.chars))) = some words := by
  induction words generalizing front with
  | nil => rfl
  | cons word words ih =>
      have hflat : flat ((word :: words).map WStr.chars) =
          word.chars ++ NULCHAR :: flat (words.map WStr.chars) := by
        simp [flat]
      have hlen : (some front.length).map (· + (word.chars.length + 1)) =
          some (front ++ (word.chars ++ [NULCHAR])).length := by
        simp
      have hrest := ih (front ++ (word.chars ++ [NULCHAR]))
      rw [List.append_assoc, List.append_assoc, List.singleton_append] at hrest
      rw [hflat, List.map_cons, layout, hlen, List.mapM_cons, cstrAt_eq, hrest]
      rfl

theorem layout_strings_zero (words : List WStr) :
    (layout (some 0) (words.map WStr.chars)).mapM (cstrAt (flat (words.map WStr.chars))) =
      some words := layout_strings [] words

theorem length_le_flat (args : List (List WChar)) : args.length ≤ (flat args).length := by
  induction args with
  | nil => exact Nat.le_refl _
  | cons arg args ih =>
      rw [flat, List.flatMap_cons, List.length_append, List.length_append, List.length_cons]
      rw [flat] at ih
      simp only [List.length_cons, List.length_nil]
      omega

/-- The arguments of a line are strings. -/
theorem exists_words (line : WStr) :
    ∃ words : List WStr, words.map WStr.chars = cmdline.lexArgs line.chars := by
  have hwords : ∀ args : List (List WChar), (∀ a ∈ args, NULCHAR ∉ a) →
      ∃ words : List WStr, words.map WStr.chars = args := by
    intro args
    induction args with
    | nil => exact fun _ => ⟨[], rfl⟩
    | cons a args ih =>
        intro hargs
        obtain ⟨words, hwords⟩ := ih fun b hb => hargs b (List.mem_cons_of_mem a hb)
        exact ⟨⟨a, hargs a List.mem_cons_self⟩ :: words, by rw [List.map_cons, hwords]⟩
  refine hwords _ fun a ha hnul => ?_
  rcases cmdline.mem_lexArgs ha hnul with h | h
  · exact absurd h (by decide)
  · exact line.noNul h

/-- The counting pass. -/
theorem count_eq (line : WStr) {words : List WStr}
    (h : words.map WStr.chars = cmdline.lexArgs line.chars) :
    parseCmdline line none none =
      some ⟨none, none, words.length + 1, (flat (words.map WStr.chars)).length⟩ := by
  have hroom : (Outs.mk none none 0 0).Room ((cmdline.lexArgs line.chars).length + 1)
      (flat (cmdline.lexArgs line.chars)).length :=
    ⟨fun b hb => absurd hb (by simp), fun b hb => absurd hb (by simp)⟩
  rw [parseCmdline_eq line none none hroom, ← h]
  simp [Outs.push]

/-- The storing pass, into buffers that are large enough. -/
theorem store_eq (line : WStr) {words : List WStr}
    (h : words.map WStr.chars = cmdline.lexArgs line.chars) (nargs nchars : Nat) :
    parseCmdline line (some ⟨words.length + 1 + nargs, []⟩)
        (some ⟨(flat (words.map WStr.chars)).length + nchars, []⟩) =
      some ⟨some ⟨words.length + 1 + nargs, layout (some 0) (words.map WStr.chars) ++ [none]⟩,
        some ⟨(flat (words.map WStr.chars)).length + nchars, flat (words.map WStr.chars)⟩,
        words.length + 1, (flat (words.map WStr.chars)).length⟩ := by
  rw [parseCmdline_eq line _ _ ?_, ← h]
  · simp [Outs.push, OutPtr.append]
  · rw [← h]
    refine ⟨fun b hb => ?_, fun b hb => ?_⟩
    · cases hb
      simp
    · cases hb
      simp

theorem wargsOf_eq (line : WStr) {words : List WStr}
    (h : words.map WStr.chars = cmdline.lexArgs line.chars) :
    Arguments.wargsOf line = some words := by
  rw [Arguments.wargsOf, count_eq line h]
  simp only [Option.bind_eq_bind, Option.bind_some]
  split
  · next hnone =>
      cases words with
      | nil => rfl
      | cons word words => simp [flat] at hnone
  · have hstore := store_eq line h 0 1
    have htake : (layout (some 0) (words.map WStr.chars) ++ [none]).take words.length =
        layout (some 0) (words.map WStr.chars) := by
      rw [List.take_append_of_le_length (by simp), List.take_of_length_le (by simp)]
    rw [Nat.add_zero] at hstore
    simp only [hstore, Option.bind_some, Nat.add_sub_cancel, htake]
    exact layout_strings_zero words

/-- The two passes agree, for every line: the storing pass fills its buffers with as many
characters and pointers as the counting pass found, whatever room there is beyond them, each
pointer but the last, which is null, leads to a terminated argument, and no call of `parse`
reads or writes out of bounds.  The counters hardly exceed the length of the line. -/
theorem parseCmdline_passes (line : WStr) :
    ∃ counted, parseCmdline line none none = some counted ∧
      counted.numargs ≤ line.chars.length + 2 ∧ counted.numchars ≤ line.chars.length + 1 ∧
      (∀ nargs nchars : Nat, ∃ stored ptrs chars words,
        parseCmdline line (some ⟨counted.numargs + nargs, []⟩)
            (some ⟨counted.numchars + nchars, []⟩) = some stored ∧
          stored.numargs = counted.numargs ∧ stored.numchars = counted.numchars ∧
          stored.argv.map (·.written) = some (ptrs ++ [none]) ∧
          (ptrs ++ [none]).length = counted.numargs ∧
          stored.args.map (·.written) = some chars ∧ chars.length = counted.numchars ∧
          ptrs.mapM (cstrAt chars) = some words) ∧
      ∀ (w : Nat) (a : Arguments w), (a.parseLine line).isSome := by
  obtain ⟨words, hwords⟩ := exists_words line
  have hchars : (flat (words.map WStr.chars)).length ≤ line.chars.length + 1 := by
    have hsize := cmdline.lexArgs_size NULCHAR line.chars
    have hdrop := (List.dropWhile_suffix cmdline.blank (l := line.chars)).length_le
    rw [← hwords] at hsize
    exact Nat.le_trans hsize (by omega)
  refine ⟨_, count_eq line hwords, ?_, hchars, fun nargs nchars => ?_, fun w a => ?_⟩
  · have hargs := length_le_flat (words.map WStr.chars)
    rw [List.length_map] at hargs
    change words.length + 1 ≤ line.chars.length + 2
    omega
  · exact ⟨_, layout (some 0) (words.map WStr.chars), _, words, store_eq line hwords nargs nchars,
      rfl, rfl, rfl, by simp, rfl, rfl, layout_strings_zero words⟩
  · rw [Arguments.parseLine, wargsOf_eq line hwords]
    rfl

/-! ## Quoted arguments -/

/-- The strings, quoted, with single spaces between them. -/
def quotedLine (args : List WStr) : WStr where
  chars := cmdline.joinQuoted (args.map WStr.chars)
  noNul h := by
    rcases cmdline.mem_joinQuoted h with h | h | h | ⟨a, ha, h⟩
    · exact absurd h (by decide)
    · exact absurd h (by decide)
    · exact absurd h (by decide)
    · obtain ⟨s, hs, rfl⟩ := List.mem_map.1 ha
      exact s.noNul h

/-- What is quoted is read back: the pointers lead to the strings, and these are handed on. -/
theorem parseCmdline_quotedLine (args : List WStr) :
    (∃ counted stored ptrs chars, parseCmdline (quotedLine args) none none = some counted ∧
      parseCmdline (quotedLine args) (some ⟨counted.numargs, []⟩)
        (some ⟨counted.numchars, []⟩) = some stored ∧
      stored.argv.map (·.written) = some (ptrs ++ [none]) ∧
      stored.args.map (·.written) = some chars ∧ ptrs.mapM (cstrAt chars) = some args) ∧
    Arguments.wargsOf (quotedLine args) = some args := by
  have hwords : args.map WStr.chars = cmdline.lexArgs (quotedLine args).chars :=
    (cmdline.lexArgs_joinQuoted (args.map WStr.chars)).symm
  refine ⟨⟨_, _, _, _, count_eq _ hwords, store_eq _ hwords 0 0, rfl, rfl,
    layout_strings_zero args⟩, wargsOf_eq _ hwords⟩

end Vin64.Utils
