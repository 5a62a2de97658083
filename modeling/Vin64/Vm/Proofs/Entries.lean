import Vin64.Lib.Radix
import Vin64.Vm.PageTable
import Vin64.Vram.Store

/-!
# Tables and their entries

A table is a page of 512 entries, and the tables of a `PageTable` form a radix tree in the
RAM.
-/

namespace Vin64.Vm

open Vin64.Lib Vin64.Lib.Op Vin64.Lib.Radix Vin64.Utils Vin64.Vram

variable {ε : Type} {x : X64} {t u : PageTable} {a b : Nat}

/-! ## Entries of a page -/

def entryOf (pg : Page) (i : Fin 512) : Entry := fun k => pg ⟨8 * i + k, by omega⟩

theorem entryOf_zero (i : Fin 512) : entryOf (fun _ => 0) i = fun _ => 0 := rfl

namespace PageTable

def ramPage (t : PageTable) (a : Nat) : Page := window t.mgr.mRamData 4096 a

theorem entry_eq (t : PageTable) (a : Nat) (i : Fin 512) :
    t.entry (a + 8 * i) = entryOf (t.ramPage a) i := by
  funext k
  show t.mgr.mRamData (a + 8 * i + k) = t.mgr.mRamData (a + (8 * i + k))
  rw [Nat.add_assoc]

@[simp] theorem entry_setEntry (t : PageTable) (a : Nat) (w : Entry) : (t.setEntry a w).entry a = w :=
  window_blit_self _ _ _

@[simp] theorem setEntry_setEntry (t : PageTable) (a : Nat) (w w' : Entry) :
    (t.setEntry a w).setEntry a w' = t.setEntry a w' := by
  unfold setEntry
  rw [blit_blit]

@[simp] theorem ramSize_setEntry (t : PageTable) (a : Nat) (w : Entry) :
    (t.setEntry a w).mgr.ramSize = t.mgr.ramSize := rfl

/-- A write to an entry of one table changes that entry only. -/
theorem entryOf_setEntry (t : PageTable) (a : Nat) (i j : Fin 512) (w : Entry) :
    entryOf ((t.setEntry (a + 8 * i) w).ramPage a) j =
      if j = i then w else entryOf (t.ramPage a) j := by
  rw [← entry_eq]
  by_cases hij : j = i
  · rw [hij, entry_setEntry, if_pos rfl]
  · rw [if_neg hij, ← entry_eq]
    apply window_blit_of_disjoint
    have hne : (j : Nat) ≠ i := fun h => hij (Fin.ext h)
    omega

theorem ramPage_setEntry_ne (t : PageTable) {k l : Nat} (h : k ≠ l) (i : Fin 512) (w : Entry) :
    (t.setEntry (l * 4096 + 8 * i) w).ramPage (k * 4096) = t.ramPage (k * 4096) := by
  funext c
  apply blit_of_outside
  rcases Nat.lt_or_gt_of_ne h with hlt | hgt
  · have hle : (k + 1) * 4096 ≤ l * 4096 := Nat.mul_le_mul_right 4096 hlt
    rw [Nat.succ_mul] at hle
    omega
  · have hle : (l + 1) * 4096 ≤ k * 4096 := Nat.mul_le_mul_right 4096 hgt
    rw [Nat.succ_mul] at hle
    omega

end PageTable

/-! ## Reading and writing -/

section

variable {Q : Entry → PageTable → Prop} {Q' : Unit → PageTable → Prop} {E : ε → PageTable → Prop}

@[simp] theorem wlp_readEntry : wlp (readEntry a : Op PageTable ε Entry) Q E t ↔
    (a + 8 ≤ t.mgr.ramSize → Q (t.entry a) t) := by
  by_cases h : a + 8 ≤ t.mgr.ramSize <;> simp [readEntry, h]

@[simp] theorem wlp_modifyEntry (f : Entry → Entry) :
    wlp (modifyEntry a f : Op PageTable ε Unit) Q' E t ↔
      (a + 8 ≤ t.mgr.ramSize → Q' () (t.setEntry a (f (t.entry a)))) := by
  by_cases h : a + 8 ≤ t.mgr.ramSize <;> simp [modifyEntry, h]

@[simp] theorem wp_readEntry : wp (readEntry a : Op PageTable ε Entry) Q E t ↔
    a + 8 ≤ t.mgr.ramSize ∧ Q (t.entry a) t := by
  by_cases h : a + 8 ≤ t.mgr.ramSize <;> simp [readEntry, h]

@[simp] theorem wp_modifyEntry (f : Entry → Entry) :
    wp (modifyEntry a f : Op PageTable ε Unit) Q' E t ↔
      a + 8 ≤ t.mgr.ramSize ∧ Q' () (t.setEntry a (f (t.entry a))) := by
  by_cases h : a + 8 ≤ t.mgr.ramSize <;> simp [modifyEntry, h]

theorem readEntry_eq (h : a + 8 ≤ t.mgr.ramSize) :
    (readEntry a : Op PageTable ε Entry) t = some (.ok (t.entry a), t) := by
  show (if a + 8 ≤ t.mgr.ramSize then (pure (t.entry a) : Op PageTable ε Entry) else fault) t = _
  rw [if_pos h]
  rfl

theorem readEntry_ok {ent : Entry}
    (h : (readEntry a : Op PageTable ε Entry) t = some (.ok ent, u)) :
    a + 8 ≤ t.mgr.ramSize ∧ t.entry a = ent ∧ t = u := by
  by_cases hin : a + 8 ≤ t.mgr.ramSize
  · obtain ⟨hr, hu⟩ := outcome_unique (readEntry_eq hin) h
    exact ⟨hin, Except.ok.inj hr, hu⟩
  · have hfault : (readEntry a : Op PageTable ε Entry) t = none := by
      show (if a + 8 ≤ t.mgr.ramSize then
        (pure (t.entry a) : Op PageTable ε Entry) else fault) t = _
      rw [if_neg hin]
      rfl
    rw [hfault] at h
    cases h

theorem modifyEntry_eq (f : Entry → Entry) (h : a + 8 ≤ t.mgr.ramSize) :
    (modifyEntry a f : Op PageTable ε Unit) t =
      some (.ok (), t.setEntry a (f (t.entry a))) := by
  show (if a + 8 ≤ t.mgr.ramSize then
    (modify fun t => t.setEntry a (f (t.entry a)) : Op PageTable ε Unit) else fault) t = _
  rw [if_pos h]
  rfl

end

/-! ## The tree -/

/-- What an entry leads to. -/
def Format.follow (f : Format) (w : Entry) : Option Nat := if f.P w then some (f.base w) else none

theorem Format.follow_of_not (f : Format) {w : Entry} (h : f.P w = false) : f.follow w = none := by
  simp [follow, h]

/-- The entries of the tables at a level; those of the last level lead to pages. -/
def X64.level (x : X64) : Nat → Format
  | 0 => x.pml4e
  | 1 => x.pdpe
  | 2 => x.pde
  | _ => x.pte

theorem X64.keeps_address (x : X64) {l : Nat} (h : l < 3) (a : Nat) (ha : a < 2 ^ 32) :
    (x.level l).keeps a := by
  match l with
  | 0 => exact x.pml4e_keeps a ha
  | 1 => exact x.pdpe_keeps a ha
  | 2 => exact x.pde_keeps a ha
  | l + 3 => omega

/-- Where an entry of the table at an address leads. -/
def tables (x : X64) (pg : Nat → Page) (l a : Nat) (i : Fin 512) : Option Nat :=
  (x.level l).follow (entryOf (pg a) i)

/-- The tables at `addrs` are the nodes of a tree of four levels. -/
structure Tree (x : X64) (pg : Nat → Page) (root : Nat) (addrs : List Nat) : Prop where
  apart : Apart (tables x pg) root 3
  nodes : ∀ q a, q.length ≤ 3 → walk (tables x pg) root q = some a → a ∈ addrs
  reached : ∀ a ∈ addrs, ∃ q, q.length ≤ 3 ∧ walk (tables x pg) root q = some a

/-- The same pages make the same tree. -/
theorem Tree.congr {pg pg' : Nat → Page} {root : Nat} {addrs : List Nat}
    (h : Tree x pg root addrs) (hpg : ∀ a ∈ addrs, pg' a = pg a) : Tree x pg' root addrs ∧
      ∀ p, p.length ≤ 4 → walk (tables x pg') root p = walk (tables x pg) root p := by
  have hsame : ∀ (q : List (Fin 512)) a i, q.length < 4 → walk (tables x pg) root q = some a →
      tables x pg' q.length a i = tables x pg q.length a i := by
    intro q a i hlt hq
    unfold tables
    rw [hpg a (h.nodes q a (Nat.le_of_lt_succ hlt) hq)]
  have hwalk := walk_congr hsame
  refine ⟨⟨?_, ?_, ?_⟩, hwalk⟩
  · exact h.apart.congr fun q a i hlt => hsame q a i (Nat.lt_succ_of_lt hlt)
  · intro q a hlen hq
    rw [hwalk q (Nat.le_succ_of_le hlen)] at hq
    exact h.nodes q a hlen hq
  · intro a ha
    obtain ⟨q, hlen, hq⟩ := h.reached a ha
    exact ⟨q, hlen, by rw [hwalk q (Nat.le_succ_of_le hlen), hq]⟩

/-- A root without entries is a tree. -/
theorem Tree.of_root (pg : Nat → Page) (root : Nat)
    (h : ∀ i, x.pml4e.P (entryOf (pg root) i) = false) : Tree x pg root [root] ∧
      ∀ p, p ≠ [] → walk (tables x pg) root p = none := by
  have hempty : ∀ p, p ≠ [] → walk (tables x pg) root p = none := by
    apply walk_of_empty
    intro i
    exact Format.follow_of_not _ (h i)
  have hroot : ∀ (p : List (Fin 512)) a, walk (tables x pg) root p = some a → p = [] ∧ a = root := by
    intro p a hp
    cases p with
    | nil => exact ⟨rfl, (Option.some.inj hp).symm⟩
    | cons i q =>
        rw [hempty (i :: q) (by simp)] at hp
        simp at hp
  refine ⟨⟨?_, ?_, ?_⟩, hempty⟩
  · intro p q a _ _ hp hq
    rw [(hroot p a hp).1, (hroot q a hq).1]
  · intro q a _ hq
    rw [(hroot q a hq).2]
    exact List.mem_singleton.2 rfl
  · intro a ha
    obtain rfl := List.mem_singleton.1 ha
    exact ⟨[], by simp, rfl⟩

section Change

variable {pg pg' : Nat → Page} {root a₀ : Nat} {addrs : List Nat} {q₀ : List (Fin 512)} {i₀ : Fin 512}

/-- An entry of a table that was absent leads to a new table without entries. -/
theorem Tree.grow (h : Tree x pg root addrs) (hdeep : q₀.length < 3)
    (hnode : walk (tables x pg) root q₀ = some a₀) (hwas : tables x pg q₀.length a₀ i₀ = none)
    (hb : b ∉ addrs) (hset : tables x pg' q₀.length a₀ i₀ = some b)
    (hrest : ∀ a ∈ addrs, ∀ i, ¬ (a = a₀ ∧ i = i₀) → entryOf (pg' a) i = entryOf (pg a) i)
    (hempty : ∀ i, tables x pg' (q₀.length + 1) b i = none) :
    Tree x pg' root (addrs ++ [b]) ∧ walk (tables x pg') root (i₀ :: q₀) = some b ∧
      ∀ p, p.length ≤ 4 → p ≠ i₀ :: q₀ →
        walk (tables x pg') root p = walk (tables x pg) root p := by
  have hupd : Updates (tables x pg) (tables x pg') root 3 q₀ a₀ i₀ (some b) :=
    { depth := Nat.le_of_lt hdeep
      node := hnode
      set := hset
      rest := by
        intro q a i hlen hq hne
        unfold tables
        rw [hrest a (h.nodes q a hlen hq) i hne]
      was := fun _ => hwas
      empty := by
        intro _ c hc i
        rw [← Option.some.inj hc]
        exact hempty i }
  have hwalk := hupd.walk_eq h.apart
  have hold : walk (tables x pg) root (i₀ :: q₀) = none := by rw [walk_cons_of hnode, hwas]
  have hdepth : (i₀ :: q₀).length ≤ 3 := hdeep
  refine ⟨⟨?_, ?_, ?_⟩, ?_, ?_⟩
  · apply hupd.apart_of_new h.apart
    intro c q hc hlen hq
    rw [← Option.some.inj hc] at hq
    exact hb (h.nodes q b hlen hq)
  · intro q a hlen hq
    rw [hwalk q (Nat.le_succ_of_le hlen)] at hq
    split_ifs at hq with hnew
    · simp [Option.some.inj hq]
    · exact List.mem_append_left _ (h.nodes q a hlen hq)
  · intro a ha
    rcases List.mem_append.1 ha with hmem | hnew
    · obtain ⟨q, hlen, hq⟩ := h.reached a hmem
      have hne : q ≠ i₀ :: q₀ := by
        rintro rfl
        rw [hold] at hq
        simp at hq
      exact ⟨q, hlen, by rw [hwalk q (Nat.le_succ_of_le hlen), if_neg hne, hq]⟩
    · obtain rfl := List.mem_singleton.1 hnew
      exact ⟨i₀ :: q₀, hdepth, by rw [hwalk _ (Nat.le_succ_of_le hdepth), if_pos rfl]⟩
  · rw [hwalk _ (Nat.le_succ_of_le hdepth), if_pos rfl]
  · intro p hp hne
    rw [hwalk p hp, if_neg hne]

/-- An entry of a table of the last level changes. -/
theorem Tree.assign (h : Tree x pg root addrs) (pg' : Nat → Page) (i₀ : Fin 512) (hleaf : q₀.length = 3)
    (hnode : walk (tables x pg) root q₀ = some a₀)
    (hrest : ∀ a ∈ addrs, ∀ i, ¬ (a = a₀ ∧ i = i₀) → entryOf (pg' a) i = entryOf (pg a) i) :
    Tree x pg' root addrs ∧ ∀ p, p.length ≤ 4 → walk (tables x pg') root p =
      if p = i₀ :: q₀ then tables x pg' 3 a₀ i₀ else walk (tables x pg) root p := by
  have hupd : Updates (tables x pg) (tables x pg') root 3 q₀ a₀ i₀ (tables x pg' 3 a₀ i₀) :=
    { depth := Nat.le_of_eq hleaf
      node := hnode
      set := by rw [hleaf]
      rest := by
        intro q a i hlen hq hne
        unfold tables
        rw [hrest a (h.nodes q a hlen hq) i hne]
      was := fun hlt => absurd hlt (by omega)
      empty := fun hlt => absurd hlt (by omega) }
  have hsame := fun q hlen => hupd.walk_of_leaf h.apart hleaf (p := q) hlen
  refine ⟨⟨hupd.apart_of_leaf h.apart hleaf, ?_, ?_⟩, hupd.walk_eq h.apart⟩
  · intro q a hlen hq
    rw [hsame q hlen] at hq
    exact h.nodes q a hlen hq
  · intro a ha
    obtain ⟨q, hlen, hq⟩ := h.reached a ha
    exact ⟨q, hlen, by rw [hsame q hlen, hq]⟩

end Change

end Vin64.Vm
