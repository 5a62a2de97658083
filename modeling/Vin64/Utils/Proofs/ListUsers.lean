import Vin64.Utils.ListUsers
import Vin64.Utils.Proofs.Layout
import Vin64.Lib.Run
import Mathlib.Data.List.Induction

/-!
# The links of a list

`linkNext` leaves the `_prev` of the node behind the new one as it was, and `linkPrev` leaves the
`_next` of the node in front.  So a list is well linked as long as nodes are inserted at its
ends only, and no longer.
-/

namespace Vin64.Utils

open Dllist Vin64.Lib

namespace Dllist

variable {α : Type} {l : Dllist α} {es xs ys : List (Entry α)} {ds : List Nat} {fuel : Nat}

theorem endPtr_eq_last (es : List (Entry α)) : endPtr none es = es.getLast?.map Entry.addr := by
  rcases List.eq_nil_or_concat' es with rfl | ⟨zs, z, rfl⟩
  · rfl
  · simp [endPtr_concat]

theorem Layout.path_next (h : Layout l (xs ++ ys) ds) (hf : ys.length ≤ fuel) :
    l.path Node.next fuel (ptrTo ys none) = some (addrs ys) := by
  induction ys generalizing xs fuel with
  | nil => cases fuel <;> rfl
  | cons y ys ih =>
      obtain ⟨fuel, rfl⟩ : ∃ k, fuel = k + 1 := ⟨fuel - 1, by simp at hf; omega⟩
      have hrest := @ih (xs ++ [y]) fuel (by simpa using h) (by simpa using hf)
      simp [Dllist.path, h.deref, hrest]

/-- The walk along `_prev` sees the objects that point back to each other, whatever else was
inserted. -/
theorem path_prev (hd : ∀ e ∈ es, (l.deref (some e.addr)).map Node.prev = some e.prev)
    (hp : PrevOk none es) (hf : es.length ≤ fuel) :
    l.path Node.prev fuel (endPtr none es) = some (addrs es).reverse := by
  induction es using List.reverseRecOn generalizing fuel with
  | nil => cases fuel <;> rfl
  | append_singleton es e ih =>
      obtain ⟨fuel, rfl⟩ : ∃ k, fuel = k + 1 := ⟨fuel - 1, by simp at hf; omega⟩
      obtain ⟨hes, he, -⟩ := prevOk_append.1 hp
      obtain ⟨n, hn, hprev⟩ := Option.map_eq_some_iff.1 (hd e (by simp))
      have hrest := ih (fun x hx => hd x (by simp [hx])) hes (show es.length ≤ fuel by simpa using hf)
      rw [endPtr_concat]
      simp [Dllist.path, hn, hprev, he, hrest]

theorem Layout.prev_eq (h : Layout l es ds) :
    ∀ e ∈ es, (l.deref (some e.addr)).map Node.prev = some e.prev := by
  intro e he
  obtain ⟨xs, ys, rfl⟩ := List.append_of_mem he
  rw [h.deref]
  rfl

end Dllist

namespace ListUser

variable {α : Type} {s t : ListUser α} {es : List (Entry α)}

/-- The list consists of the linked nodes, and every `_prev` points to the node before. -/
structure Linked (s : ListUser α) (es : List (Entry α)) : Prop where
  layout : Layout s.list es []
  prev : PrevOk none es
  mem : ∀ a, a ∈ addrs es ↔ a ∈ s.linked

theorem linked_start : Linked (start : ListUser α) [] :=
  ⟨layout_empty, trivial, by simp [start]⟩

theorem Linked.wellLinked (h : Linked s es) : s.WellLinked := by
  refine ⟨addrs es, ?_, ?_, h.mem⟩
  · rw [h.layout.first]
    exact @Layout.path_next _ s.list [] es [] _ h.layout h.layout.length_le_fresh
  · rw [h.layout.last, ← endPtr_eq_last]
    exact path_prev h.layout.prev_eq h.prev h.layout.length_le_fresh

theorem prevOk_setHeadPrev {p q : Ptr} {ys : List (Entry α)} (h : PrevOk q ys) :
    PrevOk p (setHeadPrev p ys) := by
  cases ys with
  | nil => trivial
  | cons y ys => exact ⟨rfl, h.2⟩

/-- A linked node and the objects around it. -/
theorem Linked.split (h : Linked s es) {self : Nat} (hm : self ∈ s.linked) :
    ∃ xs e ys, es = xs ++ e :: ys ∧ e.addr = self := by
  obtain ⟨e, he, haddr⟩ := List.mem_map.1 ((h.mem self).2 hm)
  obtain ⟨xs, ys, rfl⟩ := List.append_of_mem he
  exact ⟨xs, e, ys, rfl, haddr⟩

theorem Linked.fresh_not_mem (h : Linked s es) : s.list.fresh ∉ addrs es := fun hm =>
  Nat.lt_irrefl _ (h.layout.fresh _ ((h.layout.owned _).2 (by simpa using hm)))

variable {xs ys : List (Entry α)} {e : Entry α}

theorem Linked.last_iff (h : Linked s (xs ++ e :: ys)) : s.list.last = some e.addr ↔ ys = [] := by
  rw [h.layout.last]
  rcases List.eq_nil_or_concat' ys with rfl | ⟨zs, z, rfl⟩
  · simp
  · have hnd := (List.nodup_append.1 h.layout.nodup).1
    rw [addrs_append] at hnd
    have hnd := (List.nodup_append.1 hnd).2.1
    have hze : z.addr ≠ e.addr := by
      rintro he
      exact (List.nodup_cons.1 hnd).1 (by simp [← he])
    have hlast : (xs ++ e :: (zs ++ [z])).getLast? = some z := by
      rw [← List.cons_append, ← List.append_assoc, List.getLast?_concat]
    simp [hlast, hze]

theorem Linked.first_iff (h : Linked s (xs ++ e :: ys)) :
    s.list.first = some e.addr ↔ xs = [] := by
  rw [h.layout.first]
  cases xs with
  | nil => simp
  | cons x xs =>
      have hnd := (List.nodup_append.1 h.layout.nodup).1
      have hxe : x.addr ≠ e.addr := by
        rintro he
        exact (List.nodup_cons.1 hnd).1 (by simp [he])
      simp [hxe]

theorem Linked.setFirst (h : Linked s es) (v : α) :
    ∃ t es', s.step (.setFirst v) = some t ∧ Linked t es' := by
  obtain ⟨h₁, hc₁⟩ := h.layout.new v
  obtain ⟨l', hl', h'⟩ := h₁.setFirst hc₁
  refine ⟨⟨l', [s.list.fresh]⟩, [⟨s.list.fresh, none, v⟩], ?_, h', ⟨rfl, trivial⟩, by simp⟩
  simp only [Dllist.new] at hl'
  simp [ListUser.step, Dllist.new, hl']

/-- Behind the last node `linkNext` keeps the links; elsewhere the walk along `_prev` misses the
new node. -/
theorem Linked.linkNext (h : Linked s es) {self : Nat} (hm : self ∈ s.linked) (v : α) :
    ∃ t, s.step (.linkNext self v) = some t ∧
      (s.list.last = some self → ∃ es', Linked t es') ∧
      (t.WellLinked → s.list.last = some self) := by
  obtain ⟨xs, e, ys, rfl, rfl⟩ := h.split hm
  obtain ⟨h₁, hc₁⟩ := h.layout.new v
  obtain ⟨l', hl', h'⟩ := h₁.linkNext hc₁
  refine ⟨⟨l', s.list.fresh :: s.linked⟩, ?_, fun hlast => ?_, fun hwell => ?_⟩
  · simp only [Dllist.new] at hl'
    simp [ListUser.step, Dllist.new, hl']
  · obtain rfl := h.last_iff.1 hlast
    refine ⟨_, h', ?_, fun a => ?_⟩
    · rw [prevOk_append]
      obtain ⟨hxs, he, -⟩ := prevOk_append.1 h.prev
      exact ⟨hxs, he, rfl, trivial⟩
    · have hma := h.mem a
      simp only [List.map_append, List.map_cons, List.mem_append, List.mem_cons] at hma ⊢
      tauto
  · rw [h.last_iff]
    by_contra hys
    obtain ⟨as, -, hback, hmem⟩ := hwell
    -- the walk along `_prev` is the one from before
    have hlast : l'.last = endPtr none (xs ++ e :: ys) := by
      obtain ⟨zs, z, rfl⟩ := (List.eq_nil_or_concat' ys).resolve_left hys
      rw [h'.last, endPtr_eq_last]
      have hold : (xs ++ e :: (zs ++ [z])).getLast? = some z := by
        rw [← List.cons_append, ← List.append_assoc, List.getLast?_concat]
      simp [hold, List.getLast?_append, List.getLast?_cons]
    have hwalk : l'.path Node.prev l'.fresh l'.last = some (addrs (xs ++ e :: ys)).reverse := by
      rw [hlast]
      refine path_prev (fun x hx => h'.prev_eq x ?_) h.prev ?_
      · simp only [List.mem_append, List.mem_cons] at hx ⊢
        tauto
      · have hlen := h'.length_le_fresh
        simp only [List.length_append, List.length_cons] at hlen ⊢
        omega
    have has : addrs (xs ++ e :: ys) = as :=
      List.reverse_injective (Option.some_inj.1 (hwalk.symm.trans hback))
    refine h.fresh_not_mem ?_
    rw [has]
    exact (hmem _).2 (by simp)

/-- In front of the first node `linkPrev` keeps the links; elsewhere the walk along `_next`
misses the new node. -/
theorem Linked.linkPrev (h : Linked s es) {self : Nat} (hm : self ∈ s.linked) (v : α) :
    ∃ t, s.step (.linkPrev self v) = some t ∧
      (s.list.first = some self → ∃ es', Linked t es') ∧
      (t.WellLinked → s.list.first = some self) := by
  obtain ⟨xs, e, ys, rfl, rfl⟩ := h.split hm
  obtain ⟨h₁, hc₁⟩ := h.layout.new v
  rw [h.first_iff]
  rcases List.eq_nil_or_concat' xs with rfl | ⟨zs, z, rfl⟩
  · obtain ⟨l', hl', h'⟩ := h₁.linkPrev_first h.prev.1 hc₁
    refine ⟨⟨l', s.list.fresh :: s.linked⟩, ?_, fun _ => ⟨_, h', ⟨rfl, rfl, h.prev.2⟩, fun a => ?_⟩,
      fun _ => rfl⟩
    · simp only [Dllist.new] at hl'
      simp [ListUser.step, Dllist.new, hl']
    · have hma := h.mem a
      simp only [List.nil_append, List.map_cons, List.mem_cons] at hma ⊢
      tauto
  · obtain ⟨l', hl', h', -⟩ := h₁.linkPrev_stores hc₁
    have hprev : e.prev = some z.addr := by
      have he := (prevOk_append.1 h.prev).2.1
      rwa [endPtr_concat] at he
    rw [if_neg (by simp [hprev])] at hl'
    refine ⟨⟨l', s.list.fresh :: s.linked⟩, ?_, fun hnil => by simp at hnil, fun hwell => ?_⟩
    · simp only [Dllist.new] at hl'
      simp [ListUser.step, Dllist.new, hl']
    · obtain ⟨as, hforth, -, hmem⟩ := hwell
      -- the walk along `_next` is the one from before
      have hwalk : l'.path Node.next l'.fresh l'.first = some (addrs (zs ++ [z] ++ e :: ys)) := by
        have hpath := @Layout.path_next _ l' [] _ _ l'.fresh h' h'.length_le_fresh
        rw [h'.first]
        refine hpath.trans ?_
        simp
      have has : addrs (zs ++ [z] ++ e :: ys) = as :=
        Option.some_inj.1 (hwalk.symm.trans hforth)
      refine absurd ?_ h.fresh_not_mem
      rw [has]
      exact (hmem _).2 (by simp)

theorem Linked.unlink (h : Linked s es) {self : Nat} (hm : self ∈ s.linked) :
    ∃ t es', s.step (.unlink self) = some t ∧ Linked t es' := by
  obtain ⟨xs, e, ys, rfl, rfl⟩ := h.split hm
  obtain ⟨hxs, he, hys⟩ := prevOk_append.1 h.prev
  have hnd := (List.nodup_append.1 h.layout.nodup).1
  have hmem : ∀ a, a ∈ addrs xs ++ addrs ys ↔ a ∈ s.linked.filter fun a => a ≠ e.addr := by
    intro a
    have hma := h.mem a
    simp only [List.map_append, List.map_cons, List.mem_append, List.mem_cons, List.mem_filter,
      decide_eq_true_eq, List.nodup_middle, List.nodup_cons, not_or] at hma hnd ⊢
    rw [← hma]
    constructor
    · intro ha
      refine ⟨by tauto, ?_⟩
      rintro rfl
      tauto
    · rintro ⟨ha, hne⟩
      tauto
  rcases List.eq_nil_or_concat' xs with rfl | ⟨zs, z, rfl⟩
  · obtain ⟨l', hl', h'⟩ := h.layout.unlink_first he
    refine ⟨⟨l', s.linked.filter fun a => a ≠ e.addr⟩, _, by simp [ListUser.step, hl'], h',
      prevOk_setHeadPrev hys, fun a => ?_⟩
    rw [addrs_setHeadPrev, ← hmem a]
    simp
  · rw [endPtr_concat] at he
    obtain ⟨l', hl', h'⟩ := @Layout.unlink _ s.list zs z e ys [] (by simpa using h.layout) he
    refine ⟨⟨l', s.linked.filter fun a => a ≠ e.addr⟩, _, by simp [ListUser.step, hl'], h', ?_,
      fun a => ?_⟩
    · obtain ⟨hzs, hz, -⟩ := prevOk_append.1 hxs
      exact prevOk_append.2 ⟨hzs, hz, prevOk_setHeadPrev hys⟩
    · rw [← hmem a]
      simp

/-- A call on a linked node ends; the list stays well linked exactly when the node is not
inserted between two others. -/
theorem Linked.step (h : Linked s es) {c : ListCall α} (hc : s.Legal c) :
    ∃ t, s.step c = some t ∧ (s.AtEnd c → ∃ es', Linked t es') ∧ (t.WellLinked → s.AtEnd c) := by
  cases c with
  | setFirst v =>
      obtain ⟨t, es', hstep, ht⟩ := h.setFirst v
      exact ⟨t, hstep, fun _ => ⟨es', ht⟩, fun _ => trivial⟩
  | linkNext self v => exact h.linkNext hc v
  | linkPrev self v => exact h.linkPrev hc v
  | unlink self =>
      obtain ⟨t, es', hstep, ht⟩ := h.unlink hc
      exact ⟨t, hstep, fun _ => ⟨es', ht⟩, fun _ => trivial⟩

/-- While nodes are inserted at the ends of the list only, it is well linked; the next call
keeps it so exactly when it does that too. -/
theorem run_wellLinked {calls : List (ListCall α)}
    (hrun : Run (When (fun s c => s.Legal c ∧ s.AtEnd c) fun s c t => s.step c = some t)
      start calls s) :
    s.WellLinked ∧ ∀ c, s.Legal c → ∃ t, s.step c = some t ∧ (t.WellLinked ↔ s.AtEnd c) := by
  obtain ⟨es, h⟩ : ∃ es, Linked s es := by
    refine @Run.invariant _ _ _ (fun s => ∃ es, Linked s es) _ _ _ hrun ⟨[], linked_start⟩ ?_
    rintro s c t ⟨es, hs⟩ ⟨⟨hlegal, hend⟩, hstep⟩
    obtain ⟨t', ht', hkeep, -⟩ := hs.step hlegal
    obtain rfl : t' = t := Option.some_inj.1 (ht'.symm.trans hstep)
    exact hkeep hend
  refine ⟨h.wellLinked, fun c hc => ?_⟩
  obtain ⟨t, ht, hkeep, hback⟩ := h.step hc
  refine ⟨t, ht, hback, fun hend => ?_⟩
  obtain ⟨es', h'⟩ := hkeep hend
  exact h'.wellLinked

/-- Two nodes, one behind the other. -/
theorem run_wellLinked_two : ∃ s₁ s : ListUser Nat, start.step (.setFirst 10) = some s₁ ∧
    s₁.step (.linkNext 0 11) = some s ∧ s.WellLinked ∧
    ∀ c, s.Legal c → ∃ t, s.step c = some t ∧ (t.WellLinked ↔ s.AtEnd c) := by
  have heval : ((start : ListUser Nat).step (.setFirst 10)).any (fun s =>
      (0 ∈ s.linked ∧ s.list.last = some 0) ∧ (s.step (.linkNext 0 11)).isSome) = true := by
    decide +kernel
  obtain ⟨s₁, hs₁, hv⟩ := (Option.any_eq_true _ _).1 heval
  obtain ⟨hend, hsome⟩ : (0 ∈ s₁.linked ∧ s₁.list.last = some 0) ∧
      (s₁.step (.linkNext 0 11)).isSome = true := by simpa using hv
  obtain ⟨s, hs⟩ := Option.isSome_iff_exists.1 hsome
  have hfirst : (start : ListUser Nat).Legal (.setFirst 10) ∧ start.AtEnd (.setFirst 10) :=
    ⟨trivial, trivial⟩
  have hsecond : s₁.Legal (.linkNext 0 11) ∧ s₁.AtEnd (.linkNext 0 11) := hend
  obtain ⟨hwell, hnext⟩ := run_wellLinked (Run.snoc (Run.snoc Run.nil ⟨hfirst, hs₁⟩) ⟨hsecond, hs⟩)
  exact ⟨s₁, s, hs₁, hs, hwell, hnext⟩

/-- A node inserted between two others is not seen from the end of the list. -/
theorem linkNext_misses_back : ¬ ∀ (s : ListUser Nat) (calls : List (ListCall Nat)),
    Run (When Legal fun s c t => s.step c = some t) start calls s → s.WellLinked := by
  intro hall
  have heval : (((start : ListUser Nat).step (.setFirst 10)).bind fun s =>
      if 0 ∈ s.linked then s.step (.linkNext 0 11) else none).any (fun s =>
        0 ∈ s.linked ∧ (s.step (.linkNext 0 12)).any fun t =>
          t.list.path Node.next t.list.fresh t.list.first = some [0, 2, 1] ∧
            t.list.path Node.prev t.list.fresh t.list.last = some [1, 0]) = true := by
    decide +kernel
  obtain ⟨s₂, hs₂, hv⟩ := (Option.any_eq_true _ _).1 heval
  obtain ⟨s₁, hs₁, h₂⟩ := Option.bind_eq_some_iff.1 hs₂
  obtain ⟨hm₁, h₂⟩ := Option.ite_none_right_eq_some.1 h₂
  obtain ⟨hm₂, hwalks⟩ : 0 ∈ s₂.linked ∧ ((s₂.step (.linkNext 0 12)).any fun t =>
      t.list.path Node.next t.list.fresh t.list.first = some [0, 2, 1] ∧
        t.list.path Node.prev t.list.fresh t.list.last = some [1, 0]) = true := by simpa using hv
  obtain ⟨s, h₃, hs⟩ := (Option.any_eq_true _ _).1 hwalks
  obtain ⟨hforth, hback⟩ : s.list.path Node.next s.list.fresh s.list.first = some [0, 2, 1] ∧
      s.list.path Node.prev s.list.fresh s.list.last = some [1, 0] := by simpa using hs
  have hfirst : (start : ListUser Nat).Legal (.setFirst 10) := trivial
  have hsecond : s₁.Legal (.linkNext 0 11) := hm₁
  have hthird : s₂.Legal (.linkNext 0 12) := hm₂
  obtain ⟨as, has, hrev, -⟩ := hall s _
    (Run.snoc (Run.snoc (Run.snoc Run.nil ⟨hfirst, hs₁⟩) ⟨hsecond, h₂⟩) ⟨hthird, h₃⟩)
  rw [hforth] at has
  obtain rfl := Option.some_inj.1 has
  rw [hback] at hrev
  cases hrev

end ListUser

end Vin64.Utils
