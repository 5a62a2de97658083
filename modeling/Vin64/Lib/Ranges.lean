/-!
# Ranges in order

A list of ranges that are not empty, in order and apart, as a partial map of the addresses.  Each
range has a first address, an end, and a value for each address in it.
-/

namespace Vin64.Lib.Ranges

variable {ρ γ : Type} (start stop : ρ → Int) (val : ρ → Int → γ)

/-- The ranges are in order from `b` on. -/
def From : Int → List ρ → Prop
  | _, [] => True
  | b, r :: l => b ≤ start r ∧ start r < stop r ∧ From (stop r) l

def Sorted (l : List ρ) : Prop := ∃ b, From start stop b l

/-- The value at an address. -/
def lookup : List ρ → Int → Option γ
  | [], _ => none
  | r :: l, a => if start r ≤ a ∧ a < stop r then some (val r a) else lookup l a

variable {start stop val} {r s : ρ} {l l' : List ρ} {a b c : Int}

theorem From.mono (h : From start stop b l) (hle : c ≤ b) : From start stop c l := by
  cases l with
  | nil => trivial
  | cons r l => exact ⟨Int.le_trans hle h.1, h.2⟩

theorem From.tail (h : From start stop b (r :: l)) : From start stop b l :=
  h.2.2.mono (by have := h.1; have := h.2.1; omega)

theorem From.start_le (h : From start stop b l) (hr : r ∈ l) :
    b ≤ start r ∧ start r < stop r := by
  induction l generalizing b with
  | nil => cases hr
  | cons s l ih =>
      rcases List.mem_cons.1 hr with rfl | hr
      · exact ⟨h.1, h.2.1⟩
      · obtain ⟨hle, hlt⟩ := ih h.2.2 hr
        have h1 := h.1
        have h2 := h.2.1
        exact ⟨by omega, hlt⟩

theorem From.pairwise (h : From start stop b l) : l.Pairwise fun r s => stop r ≤ start s := by
  induction l generalizing b with
  | nil => exact List.Pairwise.nil
  | cons r l ih => exact List.pairwise_cons.2 ⟨fun s hs => (h.2.2.start_le hs).1, ih h.2.2⟩

theorem From.head (h : From start stop b (r :: l)) : From start stop (start r) (r :: l) :=
  ⟨Int.le_refl _, h.2⟩

theorem Sorted.nil : Sorted start stop ([] : List ρ) := ⟨0, trivial⟩

theorem Sorted.tail (h : Sorted start stop (r :: l)) : Sorted start stop l :=
  h.elim fun _ hb => ⟨_, hb.2.2⟩

theorem Sorted.from (h : Sorted start stop (r :: l)) : From start stop (start r) (r :: l) :=
  h.elim fun _ hb => hb.head

theorem lookup_cons_of_covers (h : start r ≤ a) (h' : a < stop r) :
    lookup start stop val (r :: l) a = some (val r a) := if_pos ⟨h, h'⟩

theorem lookup_cons_of_lt (h : a < start r) :
    lookup start stop val (r :: l) a = lookup start stop val l a :=
  if_neg fun hc => by omega

theorem lookup_cons_of_le (h : stop r ≤ a) :
    lookup start stop val (r :: l) a = lookup start stop val l a :=
  if_neg fun hc => by omega

/-- Nothing is found in front of the first range. -/
theorem From.lookup_of_lt (h : From start stop b l) (ha : a < b) :
    lookup start stop val l a = none := by
  induction l generalizing b with
  | nil => rfl
  | cons r l ih =>
      have h1 := h.1
      have h2 := h.2.1
      rw [lookup_cons_of_lt (by omega)]
      exact ih h.2.2 (by omega)

theorem lookup_eq_some_iff (h : From start stop b l) {v : γ} :
    lookup start stop val l a = some v ↔
      ∃ r ∈ l, start r ≤ a ∧ a < stop r ∧ val r a = v := by
  induction l generalizing b with
  | nil => simp [lookup]
  | cons r l ih =>
      by_cases hc : start r ≤ a ∧ a < stop r
      · rw [lookup_cons_of_covers hc.1 hc.2, Option.some.injEq]
        constructor
        · exact fun hv => ⟨r, List.mem_cons_self, hc.1, hc.2, hv⟩
        · rintro ⟨s, hs, h1, h2, hv⟩
          rcases List.mem_cons.1 hs with rfl | hs
          · exact hv
          · -- the ranges behind start where this one ends
            have hle := (h.2.2.start_le hs).1
            omega
      · rw [lookup, if_neg hc, ih h.2.2]
        constructor
        · rintro ⟨s, hs, hrest⟩
          exact ⟨s, List.mem_cons_of_mem _ hs, hrest⟩
        · rintro ⟨s, hs, h1, h2, hv⟩
          rcases List.mem_cons.1 hs with rfl | hs
          · exact absurd ⟨h1, h2⟩ hc
          · exact ⟨s, hs, h1, h2, hv⟩

/-- The ranges are apart. -/
theorem From.eq_of_covers (h : From start stop b l) (hr : r ∈ l) (hs : s ∈ l)
    (h1 : start r ≤ a) (h2 : a < stop r) (h3 : start s ≤ a) (h4 : a < stop s) : r = s := by
  have hfound : lookup start stop (fun r _ => r) l a = some r :=
    (lookup_eq_some_iff h).2 ⟨r, hr, h1, h2, rfl⟩
  have hfound' : lookup start stop (fun r _ => r) l a = some s :=
    (lookup_eq_some_iff h).2 ⟨s, hs, h3, h4, rfl⟩
  exact Option.some.inj (hfound.symm.trans hfound')

/-! ## Ranges that cannot be merged -/

section
variable (start stop val)

/-- Where a range ends and the next one starts, the values do not go on. -/
def Unmerged : List ρ → Prop
  | [] => True
  | r :: l => (∀ s ∈ l.head?, stop r = start s → val r (start s) ≠ val s (start s)) ∧ Unmerged l

end

theorem lookup_head (val : ρ → Int → γ) (h : From start stop b (r :: l)) :
    lookup start stop val (r :: l) (start r) = some (val r (start r)) :=
  lookup_cons_of_covers (Int.le_refl _) h.2.1

theorem start_le_of_lookup_eq (h : From start stop b (r :: l)) (h' : From start stop c (s :: l'))
    (heq : lookup start stop val (r :: l) = lookup start stop val (s :: l')) :
    start s ≤ start r := by
  refine Int.not_lt.1 fun hlt => ?_
  have hsome := lookup_head val h
  rw [heq, h'.head.lookup_of_lt hlt] at hsome
  cases hsome

/-- A range that cannot be merged goes as far as its values do. -/
theorem stop_le_of_lookup_eq (h : From start stop b (r :: l))
    (hunmerged : Unmerged start stop val (r :: l)) (hstart : start r = start s)
    (hval : val r = val s)
    (heq : lookup start stop val (r :: l) = lookup start stop val (s :: l')) :
    stop s ≤ stop r := by
  refine Int.not_lt.1 fun hlt => ?_
  have hrange := h.2.1
  have hsome : lookup start stop val l (stop r) = some (val r (stop r)) := by
    rw [← lookup_cons_of_le (Int.le_refl (stop r)), heq, hval]
    exact lookup_cons_of_covers (by omega) hlt
  cases l with
  | nil => cases hsome
  | cons t l =>
      have htouch : stop r = start t := by
        refine Int.le_antisymm h.2.2.1 (Int.not_lt.1 fun hgap => ?_)
        rw [h.2.2.head.lookup_of_lt hgap] at hsome
        cases hsome
      rw [htouch, lookup_head val h.2.2] at hsome
      exact hunmerged.1 t rfl htouch (Option.some.inj hsome).symm

/-- A map of the addresses has one list of ranges that cannot be merged. -/
theorem eq_of_lookup_eq
    (hrigid : ∀ (r s : ρ) (a b : Int), val r a = val s a → val r b = val s b)
    (hext : ∀ r s : ρ, start r = start s → stop r = stop s → val r = val s → r = s)
    (h : From start stop b l) (h' : From start stop c l')
    (hunmerged : Unmerged start stop val l) (hunmerged' : Unmerged start stop val l')
    (heq : lookup start stop val l = lookup start stop val l') : l = l' := by
  induction l generalizing b c l' with
  | nil =>
      cases l' with
      | nil => rfl
      | cons s l' =>
          have hsome := lookup_head val h'
          rw [← heq] at hsome
          cases hsome
  | cons r l ih =>
      cases l' with
      | nil =>
          have hsome := lookup_head val h
          rw [heq] at hsome
          cases hsome
      | cons s l' =>
          have hstart : start r = start s :=
            Int.le_antisymm (start_le_of_lookup_eq h' h heq.symm) (start_le_of_lookup_eq h h' heq)
          have hval : val r = val s := by
            have hsame := lookup_head val h
            rw [heq, hstart, lookup_head val h'] at hsame
            exact funext fun a => (hrigid s r _ a (Option.some.inj hsame)).symm
          have hstop : stop r = stop s :=
            Int.le_antisymm
              (stop_le_of_lookup_eq h' hunmerged' hstart.symm hval.symm heq.symm)
              (stop_le_of_lookup_eq h hunmerged hstart hval heq)
          have htail : lookup start stop val l = lookup start stop val l' := by
            funext a
            by_cases ha : a < stop r
            · rw [h.2.2.lookup_of_lt ha, h'.2.2.lookup_of_lt (hstop ▸ ha)]
            · have hle : stop r ≤ a := Int.not_lt.1 ha
              have hwhole := congrFun heq a
              rwa [lookup_cons_of_le hle, lookup_cons_of_le (hstop ▸ hle)] at hwhole
          rw [hext r s hstart hstop hval, ih h.2.2 h'.2.2 hunmerged.2 hunmerged'.2 htail]

theorem Unmerged.ne_of_touch (h : From start stop b l) (hunmerged : Unmerged start stop val l)
    (hr : r ∈ l) (hs : s ∈ l) (htouch : stop r = start s) : val r (start s) ≠ val s (start s) := by
  induction l generalizing b with
  | nil => cases hr
  | cons t l ih =>
      rcases List.mem_cons.1 hs with rfl | hs'
      · -- nothing ends where the first range starts
        have hle := h.head.start_le hr
        omega
      · rcases List.mem_cons.1 hr with rfl | hr'
        · cases l with
          | nil => cases hs'
          | cons u l =>
              have hle := h.2.2.1
              have hle' := (h.2.2.head.start_le hs').1
              have hlt := h.2.2.2.1
              have hlt' := (h.2.2.start_le hs').2
              obtain rfl : u = s := h.2.2.eq_of_covers List.mem_cons_self hs'
                (Int.le_refl (start u)) hlt (by omega) (by omega)
              exact hunmerged.1 u rfl htouch
        · exact ih h.2.2 hunmerged.2 hr' hs'

/-- A range holds all of an interval of which it has one address, when its values go on through the
interval. -/
theorem Unmerged.holds (hrigid : ∀ (r s : ρ) (a b : Int), val r a = val s a → val r b = val s b)
    (h : From start stop b l) (hunmerged : Unmerged start stop val l) (hr : r ∈ l)
    {lo hi : Int} (ha : start r < hi) (ha' : lo < stop r)
    (hall : ∀ c, lo ≤ c → c < hi → lookup start stop val l c = some (val r c)) :
    start r ≤ lo ∧ hi ≤ stop r := by
  constructor
  · refine Int.not_lt.1 fun hlt => ?_
    obtain ⟨s, hs, hle, hlt', hval⟩ := (lookup_eq_some_iff h).1
      (hall (start r - 1) (by omega) (by omega))
    have hrange := (h.start_le hr).2
    have htouch : stop s = start r := by
      refine Int.le_antisymm (Int.not_lt.1 fun hover => ?_) (by omega)
      obtain rfl := h.eq_of_covers hs hr (a := start r) (by omega) hover (Int.le_refl _) hrange
      omega
    exact hunmerged.ne_of_touch h hs hr htouch (hrigid s r _ _ hval)
  · refine Int.not_lt.1 fun hlt => ?_
    obtain ⟨s, hs, hle, hlt', hval⟩ := (lookup_eq_some_iff h).1 (hall (stop r) (by omega) hlt)
    have hrange := (h.start_le hr).2
    have htouch : stop r = start s := by
      refine Int.le_antisymm (Int.not_lt.1 fun hover => ?_) hle
      obtain rfl := h.eq_of_covers hr hs (a := stop r - 1) (by omega) (by omega) (by omega) (by omega)
      omega
    exact hunmerged.ne_of_touch h hr hs htouch (hrigid r s _ _ hval.symm)

end Vin64.Lib.Ranges
