import Mathlib.Order.Lattice
import Mathlib.Data.List.Nodup
import Mathlib.Data.List.Perm.Subperm

/-!
# Maps with ordered keys

A map is the list of its entries with the keys in strictly increasing order.  What an
operation does is said by the entries it leaves; lookups follow from that.
-/

namespace Vin64.Lib

@[ext]
structure SortedMap (κ α : Type) [LinearOrder κ] where
  entries : List (κ × α)
  sorted : entries.Pairwise fun e f => e.1 < f.1

namespace SortedMap

variable {κ α : Type} [LinearOrder κ]

def empty : SortedMap κ α := ⟨[], .nil⟩

def find (m : SortedMap κ α) (k : κ) : Option α :=
  (m.entries.find? fun e => e.1 = k).map Prod.snd

/-- `k` holds `v` from now on, whether it was a key before or not. -/
def assign (m : SortedMap κ α) (k : κ) (v : α) : SortedMap κ α where
  entries := m.entries.filter (·.1 < k) ++ (k, v) :: m.entries.filter (k < ·.1)
  sorted := by
    have hbelow := m.sorted.filter fun e => decide (e.1 < k)
    have habove := m.sorted.filter fun e => decide (k < e.1)
    refine List.pairwise_append.2 ⟨hbelow, List.pairwise_cons.2 ⟨fun e he => ?_, habove⟩, ?_⟩
    · simpa using (List.mem_filter.1 he).2
    · intro e he f hf
      have hek : e.1 < k := by simpa using (List.mem_filter.1 he).2
      rcases List.mem_cons.1 hf with rfl | hf
      · exact hek
      · have hkf : k < f.1 := by simpa using (List.mem_filter.1 hf).2
        exact hek.trans hkf

def erase (m : SortedMap κ α) (k : κ) : SortedMap κ α where
  entries := m.entries.filter (·.1 ≠ k)
  sorted := m.sorted.filter _

/-- The entry with the largest key. -/
def last (m : SortedMap κ α) : Option (κ × α) := m.entries.getLast?

theorem mem_assign {m : SortedMap κ α} {k : κ} {v : α} {e : κ × α} :
    e ∈ (m.assign k v).entries ↔ e = (k, v) ∨ e ∈ m.entries ∧ e.1 ≠ k := by
  simp only [assign, List.mem_append, List.mem_cons, List.mem_filter, decide_eq_true_eq]
  constructor
  · rintro (⟨he, hlt⟩ | rfl | ⟨he, hlt⟩)
    · exact .inr ⟨he, hlt.ne⟩
    · exact .inl rfl
    · exact .inr ⟨he, hlt.ne'⟩
  · rintro (rfl | ⟨he, hne⟩)
    · exact .inr (.inl rfl)
    · rcases lt_or_gt_of_ne hne with hlt | hgt
      · exact .inl ⟨he, hlt⟩
      · exact .inr (.inr ⟨he, hgt⟩)

theorem mem_erase {m : SortedMap κ α} {k : κ} {e : κ × α} :
    e ∈ (m.erase k).entries ↔ e ∈ m.entries ∧ e.1 ≠ k := by
  simp [erase, List.mem_filter]

/-- A key has one entry. -/
theorem entry_unique {m : SortedMap κ α} {e f : κ × α} (he : e ∈ m.entries) (hf : f ∈ m.entries)
    (h : e.1 = f.1) : e = f := by
  have hkeys : (m.entries.map Prod.fst).Nodup :=
    List.pairwise_map.2 (m.sorted.imp fun hlt => hlt.ne)
  exact List.inj_on_of_nodup_map hkeys he hf h

theorem find_eq_some_iff {m : SortedMap κ α} {k : κ} {v : α} :
    m.find k = some v ↔ (k, v) ∈ m.entries := by
  unfold find
  constructor
  · intro h
    obtain ⟨e, he, rfl⟩ := Option.map_eq_some_iff.1 h
    have hk : e.1 = k := by simpa using List.find?_some he
    have hmem := List.mem_of_find?_eq_some he
    rwa [← hk]
  · intro h
    cases hfind : m.entries.find? fun e => e.1 = k with
    | none => simpa using List.find?_eq_none.1 hfind (k, v) h
    | some e =>
        have hk : e.1 = k := by simpa using List.find?_some hfind
        have hmem := List.mem_of_find?_eq_some hfind
        have heq : e = (k, v) := entry_unique hmem h hk
        rw [heq, Option.map_some]

@[simp] theorem find_assign_self (m : SortedMap κ α) (k : κ) (v : α) :
    (m.assign k v).find k = some v :=
  find_eq_some_iff.2 (mem_assign.2 (.inl rfl))

theorem find_assign_of_ne {m : SortedMap κ α} {k l : κ} (v : α) (h : l ≠ k) :
    (m.assign k v).find l = m.find l := by
  refine Option.ext fun w => ?_
  simp only [find_eq_some_iff, mem_assign]
  constructor
  · rintro (heq | ⟨hmem, -⟩)
    · exact absurd (congrArg Prod.fst heq) h
    · exact hmem
  · intro hmem
    exact .inr ⟨hmem, h⟩

theorem find_eq_none_of_forall {m : SortedMap κ α} {k : κ} (h : ∀ e ∈ m.entries, e.1 ≠ k) :
    m.find k = none := by
  cases hfind : m.find k with
  | none => rfl
  | some v => exact absurd rfl (h _ (find_eq_some_iff.1 hfind))

/-- No key is above the last one. -/
theorem le_last {m : SortedMap κ α} {e f : κ × α} (hlast : m.last = some e)
    (hf : f ∈ m.entries) : f.1 ≤ e.1 := by
  obtain ⟨front, hfront⟩ := List.getLast?_eq_some_iff.1 hlast
  have hsorted := m.sorted
  rw [hfront] at hsorted hf
  rcases List.mem_append.1 hf with hf | hf
  · exact ((List.pairwise_append.1 hsorted).2.2 f hf e (List.mem_singleton_self e)).le
  · rw [List.mem_singleton.1 hf]

theorem last_mem {m : SortedMap κ α} {e : κ × α} (h : m.last = some e) : e ∈ m.entries :=
  List.mem_of_getLast? h

@[simp] theorem find_erase_self (m : SortedMap κ α) (k : κ) : (m.erase k).find k = none :=
  find_eq_none_of_forall fun _ he => (mem_erase.1 he).2

theorem find_erase_of_ne {m : SortedMap κ α} {k l : κ} (h : l ≠ k) :
    (m.erase k).find l = m.find l := by
  refine Option.ext fun v => ?_
  simp only [find_eq_some_iff, mem_erase]
  exact ⟨fun hmem => hmem.1, fun hmem => ⟨hmem, h⟩⟩

theorem entries_nodup (m : SortedMap κ α) : m.entries.Nodup :=
  m.sorted.imp fun hlt heq => hlt.ne (congrArg Prod.fst heq)

/-- Maps with the same lookups are the same. -/
theorem ext_find {m n : SortedMap κ α} (h : ∀ k, m.find k = n.find k) : m = n := by
  have hmem : ∀ e, e ∈ m.entries ↔ e ∈ n.entries := by
    intro e
    rw [← find_eq_some_iff (v := e.2), ← find_eq_some_iff (v := e.2), h]
  have hperm : m.entries.Perm n.entries :=
    (List.perm_ext_iff_of_nodup m.entries_nodup n.entries_nodup).2 hmem
  have heq := hperm.eq_of_pairwise (fun _ _ _ _ hlt hgt => absurd hlt hgt.asymm) m.sorted n.sorted
  exact SortedMap.ext heq

theorem find_erase (m : SortedMap κ α) (k l : κ) :
    (m.erase k).find l = if l = k then none else m.find l := by
  split
  · rename_i h
    rw [h, find_erase_self]
  · rename_i h
    exact find_erase_of_ne h

theorem find_assign (m : SortedMap κ α) (k l : κ) (v : α) :
    (m.assign k v).find l = if l = k then some v else m.find l := by
  split
  · rename_i h
    rw [h, find_assign_self]
  · rename_i h
    exact find_assign_of_ne v h

theorem erase_comm (m : SortedMap κ α) (k l : κ) : (m.erase k).erase l = (m.erase l).erase k := by
  refine ext_find fun j => ?_
  simp only [find_erase]
  split <;> split <;> rfl

theorem erase_of_find_eq_none {m : SortedMap κ α} {k : κ} (h : m.find k = none) :
    m.erase k = m := by
  refine ext_find fun j => ?_
  by_cases hk : j = k
  · rw [hk, h, find_erase_self]
  · exact find_erase_of_ne hk

theorem erase_assign_self (m : SortedMap κ α) (k : κ) (v : α) :
    (m.assign k v).erase k = m.erase k := by
  refine ext_find fun j => ?_
  by_cases hk : j = k
  · rw [hk, find_erase_self, find_erase_self]
  · rw [find_erase_of_ne hk, find_erase_of_ne hk, find_assign_of_ne v hk]

theorem assign_assign (m : SortedMap κ α) (k : κ) (v w : α) :
    (m.assign k v).assign k w = m.assign k w := by
  refine ext_find fun j => ?_
  simp only [find_assign]
  split <;> rfl

theorem assign_of_find {m : SortedMap κ α} {k : κ} {v : α} (h : m.find k = some v) :
    m.assign k v = m := by
  refine ext_find fun j => ?_
  by_cases hk : j = k
  · rw [hk, find_assign_self, h]
  · exact find_assign_of_ne v hk

theorem length_erase_lt {m : SortedMap κ α} {k : κ} {v : α} (h : m.find k = some v) :
    (m.erase k).entries.length < m.entries.length := by
  refine List.length_filter_lt_length_iff_exists.2 ⟨(k, v), find_eq_some_iff.1 h, ?_⟩
  simp

section Count

variable [DecidableEq α]

/-- How many keys hold `v`. -/
def count (m : SortedMap κ α) (v : α) : Nat := m.entries.countP fun e => e.2 = v

theorem count_eq_erase_add (m : SortedMap κ α) (k : κ) (v : α) :
    m.count v = (m.erase k).count v + if m.find k = some v then 1 else 0 := by
  have hsplit := List.countP_eq_countP_filter_add m.entries (fun e => decide (e.2 = v))
    (fun e => decide (e.1 ≠ k))
  have hkey : (m.entries.filter fun e => !decide (e.1 ≠ k)).countP (fun e => decide (e.2 = v)) =
      m.entries.count (k, v) := by
    rw [List.countP_filter, List.count]
    refine List.countP_congr fun e _ => ?_
    simp [Prod.ext_iff, and_comm]
  have hone : m.entries.count (k, v) = if m.find k = some v then 1 else 0 := by
    rw [m.entries_nodup.count]
    exact if_congr find_eq_some_iff.symm rfl rfl
  rw [count, hsplit, hkey, hone]
  rfl

theorem count_assign (m : SortedMap κ α) (k : κ) (v w : α) :
    (m.assign k w).count v = (m.erase k).count v + if w = v then 1 else 0 := by
  rw [count_eq_erase_add _ k, erase_assign_self, find_assign_self]
  simp only [Option.some.injEq]

theorem count_le_of_find {m n : SortedMap κ α} (v : α)
    (h : ∀ k w, m.find k = some w → n.find k = some w) : m.count v ≤ n.count v := by
  have hsub : m.entries ⊆ n.entries := fun e he =>
    find_eq_some_iff.1 (h e.1 e.2 (find_eq_some_iff.2 he))
  exact (List.subperm_of_subset m.entries_nodup hsub).countP_le _

theorem count_pos_of_find {m : SortedMap κ α} {k : κ} {v : α} (h : m.find k = some v) :
    0 < m.count v := by
  rw [count_eq_erase_add m k, if_pos h]
  omega

end Count

end SortedMap

end Vin64.Lib
