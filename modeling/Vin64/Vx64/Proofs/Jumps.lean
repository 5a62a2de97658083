import Vin64.Vx64.Jumps
import Mathlib.Data.Finset.Card
import Mathlib.Data.Finset.Prod
import Mathlib.Data.Fintype.Card
import Mathlib.Logic.Relation

/-!
# Lists of jumps

The jumps that lead to a block are the ring that starts at its `jmp_first`.
-/

namespace Vin64.Vx64

open Vin64.Lib

variable {j j' : Jumps} {nb i t tb fuel : Nat} {n : Fin 2} {live listed : Nat → Prop}
  {lists : Nat → List Link} {l : Link} {ls : List Link}

/-- Of `nb` blocks, the jumps of the live ones are in the list of the block that they lead to, and
the blocks that are not listed are not jumped to. -/
structure Chained (j : Jumps) (nb : Nat) (live listed : Nat → Prop) (lists : Nat → List Link) :
    Prop where
  lt : ∀ s, live s → s < nb
  ring : ∀ t < nb, Ring j.field (.jmpFirst t) (lists t)
  source : ∀ t < nb, ∀ l ∈ lists t, ∃ s n, l = .jmpNext s n ∧ s < nb ∧ j.tbNext s n = some t
  target : ∀ s < nb, ∀ n, j.field (.jmpNext s n) ≠ none → ∃ t < nb, .jmpNext s n ∈ lists t
  jump : ∀ s n t, live s → j.tbNext s n = some t → t < nb ∧ .jmpNext s n ∈ lists t
  unlisted : ∀ t < nb, ¬listed t → lists t = []

theorem card_links (nb : Nat) :
    (Finset.range nb ×ˢ (Finset.univ : Finset (Fin 2))).card = 2 * nb := by
  rw [Finset.card_product, Finset.card_range, Finset.card_univ, Fintype.card_fin, Nat.mul_comm]

namespace Chained

theorem jmpFirst_not_mem (h : Chained j nb live listed lists) (ht : t < nb) (i : Nat) :
    .jmpFirst i ∉ lists t := by
  intro hmem
  obtain ⟨s, n, heq, -⟩ := h.source t ht _ hmem
  exact Link.noConfusion heq

/-- A jump is in one list. -/
theorem list_unique (h : Chained j nb live listed lists) (ht : t < nb) (hi : i < nb)
    (hl : l ∈ lists t) (hl' : l ∈ lists i) : t = i := by
  obtain ⟨s, n, rfl, -, hnext⟩ := h.source t ht l hl
  obtain ⟨s', n', heq, -, hnext'⟩ := h.source i hi _ hl'
  obtain ⟨rfl, rfl⟩ := Link.jmpNext.inj heq
  exact Option.some.inj (hnext.symm.trans hnext')

theorem ring_unique (h : Chained j nb live listed lists) (ht : t < nb) (hi : i < nb)
    (hl : l ∈ Link.jmpFirst t :: lists t) (hl' : l ∈ Link.jmpFirst i :: lists i) : t = i := by
  rcases List.mem_cons.1 hl with rfl | hl
  · rcases List.mem_cons.1 hl' with heq | hl'
    · exact Link.jmpFirst.inj heq
    · exact absurd hl' (h.jmpFirst_not_mem hi t)
  · rcases List.mem_cons.1 hl' with rfl | hl'
    · exact absurd hl (h.jmpFirst_not_mem ht i)
    · exact h.list_unique ht hi hl hl'

theorem field_ne_none (h : Chained j nb live listed lists) (ht : t < nb)
    (hl : l ∈ Link.jmpFirst t :: lists t) : j.field l ≠ none :=
  (h.ring t ht).path.next_ne_none hl

theorem tbNext_eq (h : Chained j nb live listed lists) (ht : t < nb)
    (hl : .jmpNext i n ∈ lists t) : j.tbNext i n = some t := by
  obtain ⟨s, n, heq, -, hnext⟩ := h.source t ht _ hl
  obtain ⟨rfl, rfl⟩ := Link.jmpNext.inj heq
  exact hnext

/-- There are two jumps for each block. -/
theorem length_le (h : Chained j nb live listed lists) (ht : t < nb) :
    (lists t).length ≤ 2 * nb := by
  have hsub : (lists t).toFinset ⊆
      (Finset.range nb ×ˢ (Finset.univ : Finset (Fin 2))).image fun p => Link.jmpNext p.1 p.2 := by
    intro l hl
    obtain ⟨s, n, rfl, hs, -⟩ := h.source t ht l (List.mem_toFinset.1 hl)
    exact Finset.mem_image.2
      ⟨(s, n), Finset.mem_product.2 ⟨Finset.mem_range.2 hs, Finset.mem_univ n⟩, rfl⟩
  have hnodup := (List.nodup_cons.1 (h.ring t ht).nodup).2
  calc (lists t).length = (lists t).toFinset.card := (List.toFinset_card_of_nodup hnodup).symm
    _ ≤ _ := Finset.card_le_card hsub
    _ ≤ (Finset.range nb ×ˢ (Finset.univ : Finset (Fin 2))).card := Finset.card_image_le
    _ = 2 * nb := card_links nb

/-- What is jumped to is listed. -/
theorem listed_of_jump (h : Chained j nb live listed lists) {s : Nat} (hs : live s)
    (hnext : j.tbNext s n = some t) : listed t := by
  obtain ⟨ht, hmem⟩ := h.jump s n t hs hnext
  refine Classical.byContradiction fun hnot => ?_
  rw [h.unlisted t ht hnot] at hmem
  exact absurd hmem List.not_mem_nil

theorem field_eq_none_iff (h : Chained j nb live listed lists) (hi : i < nb) (hlive : live i) :
    j.field (.jmpNext i n) = none ↔ j.tbNext i n = none := by
  constructor
  · intro hnone
    cases hnext : j.tbNext i n with
    | none => rfl
    | some t =>
        obtain ⟨ht, hmem⟩ := h.jump i n t hlive hnext
        exact absurd hnone (h.field_ne_none ht (List.mem_cons_of_mem _ hmem))
  · intro hnone
    refine Classical.byContradiction fun hne => ?_
    obtain ⟨t, ht, hmem⟩ := h.target i hi n hne
    rw [h.tbNext_eq ht hmem] at hnone
    cases hnone

/-! ## Steps -/

theorem nil (j : Jumps) (lists : Nat → List Link) :
    Chained j 0 (fun _ => False) listed lists where
  lt := fun _ hs => hs.elim
  ring := fun t ht => absurd ht (Nat.not_lt_zero t)
  source := fun t ht => absurd ht (Nat.not_lt_zero t)
  target := fun s hs => absurd hs (Nat.not_lt_zero s)
  jump := fun _ _ _ hs => hs.elim
  unlisted := fun t ht => absurd ht (Nat.not_lt_zero t)

/-- Another block, which jumps nowhere. -/
theorem init (h : Chained j nb live listed lists) :
    Chained (j.tbInit nb) (nb + 1) (fun s => live s ∨ s = nb) (fun s => listed s ∨ s = nb)
      (Function.update lists nb []) := by
  have hfield : ∀ l, (∀ n, l ≠ .jmpNext nb n) → l ≠ .jmpFirst nb →
      (j.tbInit nb).field l = j.field l := by
    intro l hnext hfirst
    simp only [Jumps.tbInit, Jumps.tbSetJmpTarget_field, Jumps.assign_field]
    rw [Function.update_of_ne (hnext 1), Function.update_of_ne (hnext 0),
      Function.update_of_ne hfirst]
  have hfirst : (j.tbInit nb).field (.jmpFirst nb) = some (.jmpFirst nb) := by
    simp [Jumps.tbInit]
  have hnone : ∀ n, (j.tbInit nb).field (.jmpNext nb n) = none
    | 0 => by simp [Jumps.tbInit]
    | 1 => by simp [Jumps.tbInit]
  have hother : ∀ s ≠ nb, (j.tbInit nb).tbNext s = j.tbNext s := by
    intro s hs
    funext n
    simp [Jumps.tbInit, Jumps.tbSetJmpTarget_tbNext, hs]
  have hreset : ∀ n, (j.tbInit nb).tbNext nb n = none
    | 0 => by simp [Jumps.tbInit, Jumps.tbSetJmpTarget_tbNext]
    | 1 => by simp [Jumps.tbInit, Jumps.tbSetJmpTarget_tbNext]
  have hlists : ∀ t ≠ nb, Function.update lists nb [] t = lists t := fun t ht =>
    Function.update_of_ne ht ..
  refine ⟨?_, ?_, ?_, ?_, ?_, ?_⟩
  · rintro s (hs | rfl)
    · exact Nat.lt_succ_of_lt (h.lt s hs)
    · exact Nat.lt_succ_self s
  · intro t ht
    by_cases heq : t = nb
    · subst heq
      rw [Function.update_self]
      exact ⟨hfirst, List.nodup_singleton _⟩
    · have hlt : t < nb := by omega
      rw [hlists t heq]
      refine (h.ring t hlt).congr fun l hl => ?_
      rcases List.mem_cons.1 hl with rfl | hl
      · exact hfield _ (fun n => Link.noConfusion) fun hc => heq (Link.jmpFirst.inj hc)
      · obtain ⟨s, n, rfl, hs, -⟩ := h.source t hlt l hl
        refine hfield _ (fun m hc => ?_) Link.noConfusion
        have hsame := (Link.jmpNext.inj hc).1
        omega
  · intro t ht l hl
    by_cases heq : t = nb
    · subst heq
      rw [Function.update_self] at hl
      exact absurd hl List.not_mem_nil
    · rw [hlists t heq] at hl
      obtain ⟨s, n, rfl, hs, hnext⟩ := h.source t (by omega) l hl
      refine ⟨s, n, rfl, Nat.lt_succ_of_lt hs, ?_⟩
      rw [hother s (by omega)]
      exact hnext
  · intro s hs n hne
    by_cases heq : s = nb
    · subst heq
      exact absurd (hnone n) hne
    · have hsame := hfield (.jmpNext s n) (fun m hc => heq (Link.jmpNext.inj hc).1) Link.noConfusion
      rw [hsame] at hne
      obtain ⟨t, ht, hmem⟩ := h.target s (by omega) n hne
      refine ⟨t, Nat.lt_succ_of_lt ht, ?_⟩
      rw [hlists t (by omega)]
      exact hmem
  · rintro s n t (hs | rfl) hnext
    · have hlt := h.lt s hs
      rw [hother s (by omega)] at hnext
      obtain ⟨ht, hmem⟩ := h.jump s n t hs hnext
      refine ⟨Nat.lt_succ_of_lt ht, ?_⟩
      rw [hlists t (by omega)]
      exact hmem
    · rw [hreset n] at hnext
      cases hnext
  · intro t ht hnot
    by_cases heq : t = nb
    · exact absurd (Or.inr heq) hnot
    · rw [hlists t heq]
      exact h.unlisted t (by omega) fun hlisted => hnot (Or.inl hlisted)

/-- A jump of a block that leads to a listed one. -/
theorem addJump (h : Chained j nb live listed lists) (htb : tb < nb) (ht : t < nb)
    (hlisted : listed t) :
    ∃ lists', Chained (j.tbAddJump tb n t) nb live listed lists' := by
  unfold Jumps.tbAddJump
  by_cases hnone : j.field (.jmpNext tb n) = none
  · rw [if_pos hnone]
    have hnot : ∀ i < nb, .jmpNext tb n ∉ Link.jmpFirst i :: lists i := fun i hi hmem =>
      h.field_ne_none hi hmem hnone
    have hsub : ∀ i, ∀ l ∈ lists i, l ∈ Function.update lists t (.jmpNext tb n :: lists t) i := by
      intro i l hl
      by_cases heq : i = t
      · subst heq
        rw [Function.update_self]
        exact List.mem_cons_of_mem _ hl
      · rwa [Function.update_of_ne heq]
    have hnew : .jmpNext tb n ∈ Function.update lists t (.jmpNext tb n :: lists t) t := by
      rw [Function.update_self]
      exact List.mem_cons_self
    refine ⟨Function.update lists t (.jmpNext tb n :: lists t), h.lt, ?_, ?_, ?_, ?_, ?_⟩
    · intro i hi
      by_cases heq : i = t
      · subst heq
        rw [Function.update_self]
        exact (h.ring i hi).insert (hnot i hi)
      · rw [Function.update_of_ne heq]
        refine (h.ring i hi).congr fun l hl => ?_
        have hfirst : l ≠ .jmpFirst t := fun hc =>
          heq (h.ring_unique hi ht hl (hc ▸ List.mem_cons_self))
        have hlink : l ≠ .jmpNext tb n := fun hc => hnot i hi (hc ▸ hl)
        exact (Function.update_of_ne hfirst ..).trans (Function.update_of_ne hlink ..)
    · intro i hi l hl
      have hold : l ∈ lists i → ∃ s m, l = .jmpNext s m ∧ s < nb ∧
          (if s = tb ∧ m = n then some t else j.tbNext s m) = some i := by
        intro hmem
        obtain ⟨s, m, rfl, hs, hnext⟩ := h.source i hi l hmem
        refine ⟨s, m, rfl, hs, ?_⟩
        rwa [if_neg]
        rintro ⟨rfl, rfl⟩
        exact hnot i hi (List.mem_cons_of_mem _ hmem)
      simp only [Jumps.assign_tbNext, Jumps.tbSetJmpTarget_tbNext]
      by_cases heq : i = t
      · subst heq
        rw [Function.update_self] at hl
        rcases List.mem_cons.1 hl with rfl | hl
        · exact ⟨tb, n, rfl, htb, if_pos ⟨rfl, rfl⟩⟩
        · exact hold hl
      · rw [Function.update_of_ne heq] at hl
        exact hold hl
    · intro s hs m hne
      by_cases heq : Link.jmpNext s m = .jmpNext tb n
      · obtain ⟨rfl, rfl⟩ := Link.jmpNext.inj heq
        exact ⟨t, ht, hnew⟩
      · have hsame : j.field (.jmpNext s m) ≠ none := by
          simpa [Function.update_of_ne heq] using hne
        obtain ⟨i, hi, hmem⟩ := h.target s hs m hsame
        exact ⟨i, hi, hsub i _ hmem⟩
    · intro s m i hs hnext
      simp only [Jumps.assign_tbNext, Jumps.tbSetJmpTarget_tbNext] at hnext
      by_cases heq : s = tb ∧ m = n
      · rw [if_pos heq] at hnext
        obtain ⟨rfl, rfl⟩ := heq
        obtain rfl := Option.some.inj hnext
        exact ⟨ht, hnew⟩
      · rw [if_neg heq] at hnext
        obtain ⟨hi, hmem⟩ := h.jump s m i hs hnext
        exact ⟨hi, hsub i _ hmem⟩
    · intro i hi hi'
      have hne : i ≠ t := fun heq => hi' (heq ▸ hlisted)
      rw [Function.update_of_ne hne]
      exact h.unlisted i hi hi'
  · rw [if_neg hnone]
    exact ⟨lists, h⟩

/-- A jump that is in a list is taken out of it.  It still leads where it led, so that its block is
not live, unless the jump is reset. -/
theorem remove (h : Chained j nb live listed lists) {u v : List Link} {p : Link} (ht : t < nb)
    (hlist : lists t = u ++ .jmpNext tb n :: v)
    (hp : p = (Link.jmpFirst t :: u).getLast (List.cons_ne_nil _ u)) {live' : Nat → Prop}
    (hj : j'.field = Function.update (Function.update j.field p (j.field (.jmpNext tb n)))
      (.jmpNext tb n) none)
    (hsame : ∀ s m, Link.jmpNext s m ≠ .jmpNext tb n → j'.tbNext s m = j.tbNext s m)
    (hlive : ∀ s, live' s → live s) (hreset : live' tb → j'.tbNext tb n = none) :
    Chained j' nb live' listed (Function.update lists t (u ++ v)) := by
  have hmem : .jmpNext tb n ∈ lists t := hlist ▸ List.mem_append_right u List.mem_cons_self
  have hpmem : p ∈ Link.jmpFirst t :: lists t := by
    rw [hp, hlist, ← List.cons_append]
    exact List.mem_append_left _ (List.getLast_mem _)
  have hsub : ∀ l, l ∈ u ++ v → l ∈ lists t := fun l hl => by
    rw [hlist]
    exact (List.Sublist.append (List.Sublist.refl u) (List.sublist_cons_self _ v)).subset hl
  have hring := h.ring t ht
  rw [hlist] at hring
  have hgone : .jmpNext tb n ∉ u ++ v := by
    have hmiddle := List.nodup_middle.1 (List.nodup_cons.1 hring.nodup).2
    exact (List.nodup_cons.1 hmiddle).1
  have hstays : ∀ i, ∀ l ∈ lists i, l ≠ .jmpNext tb n →
      l ∈ Function.update lists t (u ++ v) i := by
    intro i l hl hne
    by_cases heq : i = t
    · subst heq
      rw [Function.update_self]
      rw [hlist] at hl
      rcases List.mem_append.1 hl with hl | hl
      · exact List.mem_append_left _ hl
      · rcases List.mem_cons.1 hl with rfl | hl
        · exact absurd rfl hne
        · exact List.mem_append_right _ hl
    · rwa [Function.update_of_ne heq]
  refine ⟨fun s hs => h.lt s (hlive s hs), ?_, ?_, ?_, ?_, ?_⟩
  · intro i hi
    rw [hj]
    by_cases heq : i = t
    · subst heq
      rw [Function.update_self]
      exact hring.remove hp
    · rw [Function.update_of_ne heq]
      refine (h.ring i hi).congr fun l hl => ?_
      have hother : ∀ x ∈ Link.jmpFirst t :: lists t, l ≠ x := fun x hx hc =>
        heq (h.ring_unique hi ht hl (hc ▸ hx))
      rw [Function.update_of_ne (hother _ (List.mem_cons_of_mem _ hmem)),
        Function.update_of_ne (hother p hpmem)]
  · intro i hi l hl
    have hold : l ∈ lists i ∧ l ≠ .jmpNext tb n := by
      by_cases heq : i = t
      · subst heq
        rw [Function.update_self] at hl
        exact ⟨hsub l hl, fun hc => hgone (hc ▸ hl)⟩
      · rw [Function.update_of_ne heq] at hl
        exact ⟨hl, fun hc => heq (h.list_unique hi ht hl (hc ▸ hmem))⟩
    obtain ⟨s, m, rfl, hs, hnext⟩ := h.source i hi l hold.1
    exact ⟨s, m, rfl, hs, (hsame s m hold.2).trans hnext⟩
  · intro s hs m hne
    rw [hj] at hne
    have hlink : Link.jmpNext s m ≠ .jmpNext tb n := by
      intro hc
      rw [hc, Function.update_self] at hne
      exact hne rfl
    rw [Function.update_of_ne hlink] at hne
    have hfield : j.field (.jmpNext s m) ≠ none := by
      by_cases hc : Link.jmpNext s m = p
      · exact h.field_ne_none ht (hc ▸ hpmem)
      · rwa [Function.update_of_ne hc] at hne
    obtain ⟨i, hi, hmem⟩ := h.target s hs m hfield
    exact ⟨i, hi, hstays i _ hmem hlink⟩
  · intro s m i hs hnext
    by_cases hlink : Link.jmpNext s m = .jmpNext tb n
    · obtain ⟨rfl, rfl⟩ := Link.jmpNext.inj hlink
      rw [hreset hs] at hnext
      cases hnext
    · rw [hsame s m hlink] at hnext
      obtain ⟨hi, hmem⟩ := h.jump s m i (hlive s hs) hnext
      exact ⟨hi, hstays i _ hmem hlink⟩
  · intro i hi hnot
    have hne : i ≠ t := by
      rintro rfl
      rw [h.unlisted i hi hnot] at hmem
      exact absurd hmem List.not_mem_nil
    rw [Function.update_of_ne hne]
    exact h.unlisted i hi hnot

/-- `tb_jmp_remove` finds the jump in the list that it is in. -/
theorem jmpRemove (h : Chained j nb live listed lists) (htb : tb < nb) (n : Fin 2) :
    ∃ j' lists', j.tbJmpRemove (2 * nb + 1) tb n = some j' ∧
      Chained j' nb (fun s => live s ∧ s ≠ tb) listed lists' := by
  unfold Jumps.tbJmpRemove
  by_cases hnone : j.field (.jmpNext tb n) = none
  · rw [if_pos hnone]
    exact ⟨j, lists, rfl,
      { h with
        lt := fun s hs => h.lt s hs.1
        jump := fun s m i hs => h.jump s m i hs.1 }⟩
  · rw [if_neg hnone]
    obtain ⟨t, ht, hmem⟩ := h.target tb htb n hnone
    obtain ⟨u, v, hlist, hbefore⟩ :=
      (h.ring t ht).before_eq hmem (Nat.lt_succ_of_le (h.length_le ht))
    refine ⟨(j.assign ((Link.jmpFirst t :: u).getLast (List.cons_ne_nil _ u))
      (j.field (.jmpNext tb n))).assign (.jmpNext tb n) none,
      Function.update lists t (u ++ v), ?_, ?_⟩
    · rw [hbefore]
      rfl
    · exact h.remove ht hlist rfl rfl (fun s m _ => rfl) (fun s hs => hs.1)
        fun hs => absurd rfl hs.2

/-- The loop over the list of a block resets the jumps in it. -/
theorem resetJumps_of_path {next : Link → Option Link} {a : Link}
    (hpath : Path next a ls (.jmpFirst t)) (hnodup : ls.Nodup)
    (hlinks : ∀ l ∈ ls, ∃ s n, l = .jmpNext s n) (hfield : ∀ l ∈ ls, j.field l = next l)
    (hfuel : ls.length < fuel) :
    ∃ j', j.resetJumps fuel (next a) = some j' ∧
      (∀ l, j'.field l = if l ∈ ls then none else j.field l) ∧
      ∀ s n, j'.tbNext s n = if .jmpNext s n ∈ ls then none else j.tbNext s n := by
  induction ls generalizing j a fuel with
  | nil =>
      obtain ⟨fuel, rfl⟩ := Nat.exists_eq_add_one_of_ne_zero (Nat.ne_of_gt hfuel)
      rw [show next a = some (.jmpFirst t) from hpath]
      exact ⟨j, rfl, fun l => (if_neg List.not_mem_nil).symm,
        fun s n => (if_neg List.not_mem_nil).symm⟩
  | cons l ls ih =>
      obtain ⟨fuel, rfl⟩ :=
        Nat.exists_eq_add_one_of_ne_zero (Nat.ne_of_gt (Nat.zero_lt_of_lt hfuel))
      obtain ⟨s, n, rfl⟩ := hlinks l List.mem_cons_self
      obtain ⟨hnot, hnodup⟩ := List.nodup_cons.1 hnodup
      have hkept : ∀ l ∈ ls,
          ((j.tbSetJmpTarget s n none).assign (.jmpNext s n) none).field l = next l := by
        intro l hl
        have hne : l ≠ .jmpNext s n := fun heq => hnot (heq ▸ hl)
        exact (Function.update_of_ne hne ..).trans (hfield l (List.mem_cons_of_mem _ hl))
      obtain ⟨j', hrun, hj, hnext⟩ := ih hpath.2 hnodup
        (fun l hl => hlinks l (List.mem_cons_of_mem _ hl)) hkept (Nat.lt_of_succ_lt_succ hfuel)
      refine ⟨j', ?_, fun l => ?_, fun s' n' => ?_⟩
      · rw [hpath.1, Jumps.resetJumps, hfield _ List.mem_cons_self]
        exact hrun
      · rw [hj, Jumps.assign_field, Jumps.tbSetJmpTarget_field]
        by_cases hl : l = .jmpNext s n
        · subst hl
          rw [if_pos List.mem_cons_self, Function.update_self, ite_self]
        · rw [Function.update_of_ne hl]
          exact if_congr (List.mem_cons.trans (or_iff_right hl)).symm rfl rfl
      · rw [hnext, Jumps.assign_tbNext, Jumps.tbSetJmpTarget_tbNext]
        by_cases hl : Link.jmpNext s' n' = .jmpNext s n
        · obtain ⟨rfl, rfl⟩ := Link.jmpNext.inj hl
          rw [if_neg hnot, if_pos ⟨rfl, rfl⟩, if_pos List.mem_cons_self]
        · have hne : ¬(s' = s ∧ n' = n) := fun hc => hl (congrArg₂ Link.jmpNext hc.1 hc.2)
          rw [if_neg hne]
          exact if_congr (List.mem_cons.trans (or_iff_right hl)).symm rfl rfl

/-- `tb_phys_invalidate`: no live block jumps to the block any more. -/
theorem invalidate (h : Chained j nb live listed lists) (ht : t < nb) :
    ∃ j' lists', j.tbInvalidate (2 * nb + 1) t = some j' ∧
      Chained j' nb (fun s => live s ∧ s ≠ t) (fun s => listed s ∧ s ≠ t) lists' := by
  obtain ⟨j₀, lists₀, hzero, h₀⟩ := h.jmpRemove ht 0
  obtain ⟨j₁, lists₁, hone, h₁⟩ := h₀.jmpRemove ht 1
  have hring := h₁.ring t ht
  obtain ⟨j₂, hreset, hfield, hnext⟩ := resetJumps_of_path hring.path
    (List.nodup_cons.1 hring.nodup).2
    (fun l hl => by
      obtain ⟨s, n, heq, -⟩ := h₁.source t ht l hl
      exact ⟨s, n, heq⟩)
    (fun _ _ => rfl) (Nat.lt_succ_of_le (h₁.length_le ht))
  -- a jump in another list is not touched
  have hother : ∀ i < nb, i ≠ t → ∀ l ∈ lists₁ i, l ∉ lists₁ t := fun i hi hne l hl hl' =>
    hne (h₁.list_unique hi ht hl hl')
  refine ⟨j₂.assign (.jmpFirst t) (some (.jmpFirst t)), Function.update lists₁ t [], ?_,
    fun s hs => h.lt s hs.1, ?_, ?_, ?_, ?_, ?_⟩
  · rw [Jumps.tbInvalidate, hzero]
    simp only [Option.bind_eq_bind, Option.bind_some, hone, hreset]
  · intro i hi
    by_cases heq : i = t
    · subst heq
      rw [Function.update_self]
      exact ⟨Function.update_self .., List.nodup_singleton _⟩
    · rw [Function.update_of_ne heq]
      refine (h₁.ring i hi).congr fun l hl => ?_
      have hfirst : l ≠ .jmpFirst t := fun hc =>
        heq (h₁.ring_unique hi ht hl (hc ▸ List.mem_cons_self))
      have hnot : l ∉ lists₁ t := fun hc =>
        heq (h₁.ring_unique hi ht hl (List.mem_cons_of_mem _ hc))
      rw [Jumps.assign_field, Function.update_of_ne hfirst, hfield, if_neg hnot]
  · intro i hi l hl
    by_cases heq : i = t
    · subst heq
      rw [Function.update_self] at hl
      exact absurd hl List.not_mem_nil
    · rw [Function.update_of_ne heq] at hl
      obtain ⟨s, n, rfl, hs, hto⟩ := h₁.source i hi l hl
      refine ⟨s, n, rfl, hs, ?_⟩
      rw [Jumps.assign_tbNext, hnext, if_neg (hother i hi heq _ hl)]
      exact hto
  · intro s hs n hne
    have hlink : Link.jmpNext s n ≠ .jmpFirst t := Link.noConfusion
    rw [Jumps.assign_field, Function.update_of_ne hlink, hfield] at hne
    have hnot : .jmpNext s n ∉ lists₁ t := fun hc => hne (if_pos hc)
    rw [if_neg hnot] at hne
    obtain ⟨i, hi, hmem⟩ := h₁.target s hs n hne
    refine ⟨i, hi, ?_⟩
    have hne : i ≠ t := by
      rintro rfl
      exact hnot hmem
    rwa [Function.update_of_ne hne]
  · intro s n i hs hto
    rw [Jumps.assign_tbNext, hnext] at hto
    by_cases hin : .jmpNext s n ∈ lists₁ t
    · rw [if_pos hin] at hto
      cases hto
    · rw [if_neg hin] at hto
      obtain ⟨hi, hmem⟩ := h₁.jump s n i ⟨hs, hs.2⟩ hto
      refine ⟨hi, ?_⟩
      have hne : i ≠ t := by
        rintro rfl
        exact hin hmem
      rwa [Function.update_of_ne hne]
  · intro i hi hnot
    by_cases heq : i = t
    · subst heq
      exact Function.update_self ..
    · rw [Function.update_of_ne heq]
      exact h₁.unlisted i hi fun hlisted => hnot ⟨hlisted, heq⟩

end Chained

/-! ## Unlinking -/

/-- The links that are in lists. -/
def linked (j : Jumps) (nb : Nat) : Finset (Nat × Fin 2) :=
  (Finset.range nb ×ˢ Finset.univ).filter fun p => j.field (.jmpNext p.1 p.2) ≠ none

/-- The block jumps nowhere. -/
def Quiet (j : Jumps) (t : Nat) : Prop := ∀ n, j.tbNext t n = none

/-- Some jumps were reset, each together with all jumps of the block that it led to. -/
structure Reset (j j' : Jumps) : Prop where
  less : ∀ s n, j'.tbNext s n = j.tbNext s n ∨ j'.tbNext s n = none
  quiet : ∀ s n t, j.tbNext s n = some t → j'.tbNext s n = none → Quiet j' t

theorem Reset.refl (j : Jumps) : Reset j j where
  less := fun _ _ => Or.inl rfl
  quiet := fun s n t hto hnone => by
    rw [hnone] at hto
    cases hto

theorem Reset.keeps_quiet (h : Reset j j') (ht : Quiet j t) : Quiet j' t := by
  intro n
  rcases h.less t n with heq | hnone
  · exact heq.trans (ht n)
  · exact hnone

theorem Reset.trans {j₁ : Jumps} (h : Reset j j₁) (h' : Reset j₁ j') : Reset j j' where
  less := fun s n => by
    rcases h'.less s n with heq | hnone
    · rw [heq]
      exact h.less s n
    · exact Or.inr hnone
  quiet := fun s n t hto hnone => by
    rcases h.less s n with heq | hmiddle
    · exact h'.quiet s n t (heq.trans hto) hnone
    · exact h'.keeps_quiet (h.quiet s n t hto hmiddle)

/-- Whatever the jumps of a block that is quiet now led to is quiet. -/
theorem Reset.quiet_of_reaches (h : Reset j j') (htb : Quiet j' tb)
    (hreach : Relation.ReflTransGen (fun s t => ∃ n, j.tbNext s n = some t) tb t) : Quiet j' t := by
  induction hreach with
  | refl => exact htb
  | tail _ hstep ih =>
      obtain ⟨n, hto⟩ := hstep
      exact h.quiet _ n _ hto (ih n)

namespace Chained

/-- The pointers of a list lead to its head. -/
theorem listHead_of_path {next : Link → Option Link} {a : Link}
    (hpath : Path next a ls (.jmpFirst t)) (hlinks : ∀ l ∈ ls, ∃ s n, l = .jmpNext s n)
    (hfield : ∀ l ∈ ls, j.field l = next l) (hfuel : ls.length < fuel) :
    j.listHead fuel (next a) = some t := by
  induction ls generalizing a fuel with
  | nil =>
      obtain ⟨fuel, rfl⟩ := Nat.exists_eq_add_one_of_ne_zero (Nat.ne_of_gt hfuel)
      rw [show next a = some (.jmpFirst t) from hpath]
      rfl
  | cons l ls ih =>
      obtain ⟨fuel, rfl⟩ :=
        Nat.exists_eq_add_one_of_ne_zero (Nat.ne_of_gt (Nat.zero_lt_of_lt hfuel))
      obtain ⟨s, n, rfl⟩ := hlinks l List.mem_cons_self
      rw [hpath.1, Jumps.listHead, hfield _ List.mem_cons_self]
      exact ih hpath.2 (fun l hl => hlinks l (List.mem_cons_of_mem _ hl))
        (fun l hl => hfield l (List.mem_cons_of_mem _ hl)) (Nat.lt_of_succ_lt_succ hfuel)

/-- One jump is reset: it is taken out of the list of the block that it led to. -/
theorem resetJump2 (h : Chained j nb live listed lists) (htb : tb < nb)
    (hne : j.field (.jmpNext tb n) ≠ none) :
    ∃ j' t lists', j.tbResetJump2 (2 * nb + 1) tb n = some (j', t) ∧ t < nb ∧
      j.tbNext tb n = some t ∧ Chained j' nb live listed lists' ∧
      (∀ s m, j'.tbNext s m = if s = tb ∧ m = n then none else j.tbNext s m) ∧
      linked j' nb ⊂ linked j nb := by
  obtain ⟨t, ht, hmem⟩ := h.target tb htb n hne
  have hring := h.ring t ht
  obtain ⟨u, v, hlist⟩ := List.append_of_mem hmem
  have hparts := hring
  rw [hlist] at hparts
  obtain ⟨hto, hfrom⟩ := path_append.1 hparts.path
  have hlength := h.length_le ht
  have hsizes : u.length + (v.length + 1) = (lists t).length := by
    rw [hlist, List.length_append, List.length_cons]
  have hlinks : ∀ l ∈ v, ∃ s m, l = .jmpNext s m := fun l hl => by
    obtain ⟨s, m, heq, -⟩ :=
      h.source t ht l (hlist ▸ List.mem_append_right u (List.mem_cons_of_mem _ hl))
    exact ⟨s, m, heq⟩
  have hhead : j.listHead (2 * nb + 1) (j.field (.jmpNext tb n)) = some t :=
    listHead_of_path hfrom hlinks (fun _ _ => rfl) (by omega)
  have hnotu : .jmpNext tb n ∉ u := fun hc => by
    have hmiddle := List.nodup_middle.1 (List.nodup_cons.1 hparts.nodup).2
    exact (List.nodup_cons.1 hmiddle).1 (List.mem_append_left v hc)
  have hbefore : before j.field (.jmpNext tb n) (2 * nb + 1) (.jmpFirst t) =
      some ((Link.jmpFirst t :: u).getLast (List.cons_ne_nil _ u)) :=
    before_of_path hto hnotu (by omega)
  refine ⟨((j.assign ((Link.jmpFirst t :: u).getLast (List.cons_ne_nil _ u))
      (j.field (.jmpNext tb n))).assign (.jmpNext tb n) none).tbSetJmpTarget tb n none, t,
    Function.update lists t (u ++ v), ?_, ht, h.tbNext_eq ht hmem, ?_, ?_, ?_⟩
  · rw [Jumps.tbResetJump2, hhead]
    simp only [Option.bind_eq_bind, Option.bind_some, hbefore]
  · refine h.remove ht hlist rfl rfl (fun s m hlink => ?_) (fun _ hs => hs) fun _ => ?_
    · rw [Jumps.tbSetJmpTarget_tbNext, if_neg fun hc => hlink (congrArg₂ Link.jmpNext hc.1 hc.2)]
      rfl
    · rw [Jumps.tbSetJmpTarget_tbNext, if_pos ⟨rfl, rfl⟩]
  · intro s m
    rw [Jumps.tbSetJmpTarget_tbNext]
    rfl
  · refine Finset.ssubset_iff_of_subset (fun p hp => ?_) |>.2 ⟨(tb, n), ?_, ?_⟩
    · obtain ⟨hmem', hfield⟩ := Finset.mem_filter.1 hp
      refine Finset.mem_filter.2 ⟨hmem', ?_⟩
      rw [Jumps.tbSetJmpTarget_field, Jumps.assign_field] at hfield
      have hlink : Link.jmpNext p.1 p.2 ≠ .jmpNext tb n := by
        intro hc
        rw [hc, Function.update_self] at hfield
        exact hfield rfl
      rw [Function.update_of_ne hlink, Jumps.assign_field] at hfield
      by_cases hc : Link.jmpNext p.1 p.2 = (Link.jmpFirst t :: u).getLast (List.cons_ne_nil _ u)
      · refine h.field_ne_none ht (l := Link.jmpNext p.1 p.2) ?_
        rw [hc, hlist, ← List.cons_append]
        exact List.mem_append_left _ (List.getLast_mem _)
      · rwa [Function.update_of_ne hc] at hfield
    · exact Finset.mem_filter.2
        ⟨Finset.mem_product.2 ⟨Finset.mem_range.2 htb, Finset.mem_univ n⟩, hne⟩
    · intro hp
      exact (Finset.mem_filter.1 hp).2 (Function.update_self ..)

/-- The jumps of a live block are reset, and with each all jumps of the block that it led to. -/
theorem resetJumpRecursive (h : Chained j nb live live lists) (depth : Nat) (ns : List (Fin 2))
    (htb : live tb)
    (hdepth : 3 * (linked j nb).card + ns.length < depth) :
    ∃ j' lists', j.tbResetJumpRecursive (2 * nb + 1) tb depth ns = some j' ∧
      Chained j' nb live live lists' ∧ Reset j j' ∧ (∀ n ∈ ns, j'.tbNext tb n = none) ∧
      linked j' nb ⊆ linked j nb := by
  induction depth generalizing j lists tb ns with
  | zero => exact absurd hdepth (Nat.not_lt_zero _)
  | succ depth ih =>
      cases ns with
      | nil => exact ⟨j, lists, rfl, h, Reset.refl j, fun n hn => absurd hn List.not_mem_nil,
          Finset.Subset.refl _⟩
      | cons n ns =>
          rw [List.length_cons] at hdepth
          rw [Jumps.tbResetJumpRecursive]
          by_cases hnone : j.field (.jmpNext tb n) = none
          · obtain ⟨j', lists', hrun, h', hreset, hquiet, hsub⟩ := ih h ns htb (by omega)
            refine ⟨j', lists', ?_, h', hreset, fun m hm => ?_, hsub⟩
            · rw [if_pos hnone, hrun]
            · rcases List.mem_cons.1 hm with rfl | hm
              · have hno := (h.field_eq_none_iff (h.lt tb htb) htb).1 hnone
                rcases hreset.less tb m with heq | hnone'
                · exact heq.trans hno
                · exact hnone'
              · exact hquiet m hm
          · obtain ⟨j₁, t, lists₁, hone, ht, hto, h₁, hnext, hfewer⟩ :=
              h.resetJump2 (h.lt tb htb) hnone
            have hcard := Finset.card_lt_card hfewer
            have hlive : live t := h.listed_of_jump htb hto
            have htwo : ([0, 1] : List (Fin 2)).length = 2 := rfl
            obtain ⟨j₂, lists₂, htwo, h₂, hreset₂, hquiet₂, hsub₂⟩ :=
              ih h₁ [0, 1] hlive (by omega)
            have hcard₂ := Finset.card_le_card hsub₂
            obtain ⟨j', lists', hrest, h', hreset', hquiet', hsub'⟩ :=
              ih h₂ ns htb (by omega)
            have hquiet : Quiet j₂ t := by
              intro m
              match m with
              | 0 => exact hquiet₂ 0 (by decide)
              | 1 => exact hquiet₂ 1 (by decide)
            have hfirst : Reset j j₂ := by
              constructor
              · intro s m
                rcases hreset₂.less s m with heq | hno
                · rw [heq, hnext]
                  by_cases hc : s = tb ∧ m = n
                  · exact Or.inr (if_pos hc)
                  · exact Or.inl (if_neg hc)
                · exact Or.inr hno
              · intro s m i hsi hno
                by_cases hc : s = tb ∧ m = n
                · obtain ⟨rfl, rfl⟩ := hc
                  rw [hto] at hsi
                  exact Option.some.inj hsi ▸ hquiet
                · refine hreset₂.quiet s m i ?_ hno
                  rw [hnext, if_neg hc]
                  exact hsi
            refine ⟨j', lists', ?_, h', hfirst.trans hreset', fun m hm => ?_,
              hsub'.trans (hsub₂.trans hfewer.subset)⟩
            · rw [if_neg hnone, hone]
              simp only [Option.bind_eq_bind, Option.bind_some, htwo, hrest]
            · rcases List.mem_cons.1 hm with rfl | hm
              · have hno : j₂.tbNext tb m = none := by
                  rcases hreset₂.less tb m with heq | hno
                  · rw [heq, hnext, if_pos ⟨rfl, rfl⟩]
                  · exact hno
                rcases hreset'.less tb m with heq | hno'
                · exact heq.trans hno
                · exact hno'
              · exact hquiet' m hm

/-- `cpu_unlink_tb` has depth enough for all jumps that there are. -/
theorem unlink (h : Chained j nb live live lists) (htb : live tb) :
    ∃ j' lists', j.tbResetJumpRecursive (2 * nb + 1) tb (6 * nb + 3) [0, 1] = some j' ∧
      Chained j' nb live live lists' ∧ Reset j j' ∧ Quiet j' tb := by
  have hcard : (linked j nb).card ≤ 2 * nb := by
    calc (linked j nb).card ≤ (Finset.range nb ×ˢ (Finset.univ : Finset (Fin 2))).card :=
          Finset.card_filter_le _ _
      _ = 2 * nb := card_links nb
  have htwo : ([0, 1] : List (Fin 2)).length = 2 := rfl
  obtain ⟨j', lists', hrun, h', hreset, hquiet, -⟩ :=
    h.resetJumpRecursive (6 * nb + 3) [0, 1] htb (by omega)
  refine ⟨j', lists', hrun, h', hreset, fun n => hquiet n ?_⟩
  match n with
  | 0 => exact List.mem_cons_self
  | 1 => exact List.mem_cons_of_mem _ List.mem_cons_self

end Chained

end Vin64.Vx64
