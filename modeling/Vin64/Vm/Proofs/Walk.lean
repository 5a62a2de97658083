import Vin64.Vm.Proofs.Clients
import Vin64.Vm.Proofs.Entries

/-!
# The walk through the tables

`get_pte` adds the tables that are missing to the tree.  It stays a tree as long as the slots
the new tables get held none of the others, and the new tables have no entries.
-/

namespace Vin64.Vm

open Vin64.Lib Vin64.Lib.Op Vin64.Lib.Radix Vin64.Utils Vin64.Vram Vin64.Vram.RamManager

variable {ε : Type} {x : X64} {t u w : PageTable} {a b p i : Nat} {l : Fin 4}

/-! ## The shape of a table -/

namespace PageTable

/-- The addresses of the tables, the root first. -/
def addrs (t : PageTable) : List Nat := t.pages.map fun p => (t.mgr.blocks p).addr

def root (t : PageTable) : Option Nat := t.addrs.head?

/-- Where the indices lead from the root. -/
def reach (x : X64) (t : PageTable) (q : List (Fin 512)) : Option Nat :=
  t.root.bind fun root => walk (tables x t.ramPage) root q

/-- What an address is mapped to. -/
def lookup (x : X64) (t : PageTable) (vma : Nat) : Option Nat := reach x t (path vma)

/-- Every block of the table is in its slot, and the tables are a tree. -/
structure Shaped (x : X64) (t : PageTable) : Prop where
  slots : t.mgr.mBlocks.length ≤ maxSlots
  homed : ∀ p ∈ t.pages, Homed t.mgr p
  tree : ∀ root, t.root = some root → Tree x t.ramPage root t.addrs

/-- The table is loaded, and its blocks are locked. -/
structure Held (t : PageTable) : Prop where
  loaded : t.attr &&& PGT_LOADED ≠ 0#64
  locked : ∀ p ∈ t.pages, (t.mgr.blocks p).flags &&& BF_LOCKED ≠ 0#32

/-- The blocks that are not the table's and are in a slot were there before, and their pages
are as they were. -/
def Spared (t u : PageTable) : Prop :=
  ∀ k m : Nat, u.mgr.mBlocks[k]? = some (some m) → m ∉ u.pages →
    t.mgr.mBlocks[k]? = some (some m) ∧ u.mgr.slotPage k = t.mgr.slotPage k

end PageTable

open PageTable

theorem PageTable.Spared.refl (t : PageTable) : Spared t t := fun _ _ hm _ => ⟨hm, rfl⟩

theorem PageTable.Spared.trans (h : Spared t u) (h' : Spared u w)
    (hpages : ∀ m ∈ u.pages, m ∈ w.pages) : Spared t w := by
  intro k m hm hout
  obtain ⟨hu, hpage⟩ := h' k m hm hout
  obtain ⟨ht, hpage'⟩ := h k m hu fun hin => hout (hpages m hin)
  exact ⟨ht, hpage.trans hpage'⟩

theorem PageTable.Shaped.slot (h : Shaped x t) (ha : a ∈ t.addrs) :
    ∃ k p, p ∈ t.pages ∧ a = k * 4096 ∧ k < t.mgr.mBlocks.length ∧
      t.mgr.mBlocks[k]? = some (some p) := by
  obtain ⟨p, hp, rfl⟩ := List.mem_map.1 ha
  obtain ⟨k, haddr, hk⟩ := h.homed p hp
  exact ⟨k, p, hp, haddr, (List.getElem?_eq_some_iff.1 hk).1, hk⟩

/-- The entries of a table lie in the RAM. -/
theorem entry_in_ram {s : RamManager} {k : Nat} (hk : k < s.mBlocks.length) (i : Fin 512) :
    k * 4096 + 8 * i + 8 ≤ s.ramSize := by
  have hle : (k + 1) * 4096 ≤ s.mBlocks.length * 4096 := Nat.mul_le_mul_right 4096 hk
  have hi := i.isLt
  show k * 4096 + 8 * (i : Nat) + 8 ≤ s.mBlocks.length * 4096
  rw [Nat.succ_mul] at hle
  omega

/-- The entry that is written for the table in a slot leads to it. -/
theorem X64.follow_new (x : X64) {n i : Nat} (hn : n < 3) (hi : i < maxSlots) (ent : Entry) :
    (x.level n).follow ((x.level n).setRW true ((x.level n).setBase (i * 4096)
      ((x.level n).setP true ent))) = some (i * 4096) := by
  have hlt : i * 4096 < 2 ^ 32 := by
    unfold maxSlots at hi
    omega
  unfold Format.follow
  simp [(x.level n).base_setBase _ _ (x.keeps_address hn _ hlt)]

theorem PageTable.Shaped.entry_in_ram (h : Shaped x t) (ha : a ∈ t.addrs) (i : Fin 512) :
    a + 8 * i + 8 ≤ t.mgr.ramSize := by
  obtain ⟨k, _, _, rfl, hk, _⟩ := h.slot ha
  exact Vm.entry_in_ram hk i

/-! ## Allocating a table -/

/-- The manager gave slot `i` to the new block `p`. -/
structure Gains (t u : PageTable) (p i : Nat) : Prop where
  pages : u.pages = t.pages ++ [p]
  attr : u.attr = t.attr
  new : p ∉ t.pages
  bound : i < t.mgr.mBlocks.length
  free : ∀ q ∈ t.pages, t.mgr.mBlocks[i]? ≠ some (some q)
  slots : u.mgr.mBlocks = t.mgr.mBlocks.set i (some p)
  addr : (u.mgr.blocks p).addr = ramAddress i
  flags : (u.mgr.blocks p).flags =
    (if t.attr &&& PGT_LOADED ≠ 0#64 then BF_LOCKED else 0#32) ||| BF_VALID
  kept : ∀ q ∈ t.pages, u.mgr.blocks q = t.mgr.blocks q
  bytes : ∀ k, k ≠ i → u.mgr.slotPage k = t.mgr.slotPage k

/-- An allocation failed: the blocks of the table and their pages are as they were. -/
structure Stays (t u : PageTable) : Prop where
  pages : u.pages = t.pages
  attr : u.attr = t.attr
  slots : u.mgr.mBlocks = t.mgr.mBlocks
  kept : ∀ q ∈ t.pages, u.mgr.blocks q = t.mgr.blocks q
  bytes : ∀ q ∈ t.pages, ∀ k : Nat, t.mgr.mBlocks[k]? = some (some q) →
    u.mgr.slotPage k = t.mgr.slotPage k

theorem Stays.refl (t : PageTable) : Stays t t := ⟨rfl, rfl, rfl, fun _ _ => rfl, fun _ _ _ _ => rfl⟩

/-- The same blocks with the same pages are the same table. -/
theorem PageTable.Shaped.congr_reach (h : Shaped x t) (hpages : u.pages = t.pages)
    (hlen : u.mgr.mBlocks.length = t.mgr.mBlocks.length)
    (hkept : ∀ q ∈ t.pages, (u.mgr.blocks q).addr = (t.mgr.blocks q).addr)
    (hslots : ∀ q ∈ t.pages, ∀ k : Nat, t.mgr.mBlocks[k]? = some (some q) →
      u.mgr.mBlocks[k]? = some (some q) ∧ u.mgr.slotPage k = t.mgr.slotPage k) :
    Shaped x u ∧ ∀ q, q.length ≤ 4 → u.reach x q = t.reach x q := by
  have haddrs : u.addrs = t.addrs := by
    unfold PageTable.addrs
    rw [hpages]
    exact List.map_congr_left hkept
  have hpg : ∀ a ∈ t.addrs, u.ramPage a = t.ramPage a := by
    intro a ha
    obtain ⟨k, q, hq, rfl, _, hk⟩ := h.slot ha
    exact (hslots q hq k hk).2
  have hroot : u.root = t.root := by
    unfold PageTable.root
    rw [haddrs]
  refine ⟨⟨by rw [hlen]; exact h.slots, ?_, ?_⟩, ?_⟩
  · intro q hq
    rw [hpages] at hq
    obtain ⟨k, haddr, hk⟩ := h.homed q hq
    exact ⟨k, by rw [hkept q hq, haddr], (hslots q hq k hk).1⟩
  · intro root hr
    rw [haddrs]
    exact ((h.tree root (hroot ▸ hr)).congr hpg).1
  · intro q hq
    unfold PageTable.reach
    rw [hroot]
    cases hr : t.root with
    | none => rfl
    | some root => exact ((h.tree root hr).congr hpg).2 q hq

theorem Stays.reach (h : Stays t u) (hs : Shaped x t) :
    Shaped x u ∧ ∀ q, q.length ≤ 4 → u.reach x q = t.reach x q := by
  apply hs.congr_reach h.pages (by rw [h.slots])
  · intro q hq
    rw [h.kept q hq]
  · intro q hq k hk
    exact ⟨by rw [h.slots, hk], h.bytes q hq k hk⟩

theorem Stays.shaped (h : Stays t u) (hs : Shaped x t) :
    Shaped x u ∧ ∀ v, lookup x u v = lookup x t v := by
  obtain ⟨hshaped, hreach⟩ := h.reach hs
  exact ⟨hshaped, fun v => hreach (path v) (Nat.le_refl 4)⟩

theorem Stays.held (h : Stays t u) (hheld : Held t) : Held u := by
  constructor
  · rw [h.attr]
    exact hheld.loaded
  · intro q hq
    rw [h.pages] at hq
    rw [h.kept q hq]
    exact hheld.locked q hq

namespace Gains

theorem address (h : Gains t u p i) (hslots : t.mgr.mBlocks.length ≤ maxSlots) :
    (u.mgr.blocks p).addr = i * 4096 := by
  rw [h.addr]
  exact ramAddress_of_lt (Nat.lt_of_lt_of_le h.bound hslots)

theorem addrs (h : Gains t u p i) (hslots : t.mgr.mBlocks.length ≤ maxSlots) :
    u.addrs = t.addrs ++ [i * 4096] := by
  unfold PageTable.addrs
  rw [h.pages, List.map_append, List.map_singleton, h.address hslots]
  congr 1
  apply List.map_congr_left
  intro q hq
  rw [h.kept q hq]

theorem fresh (h : Gains t u p i) (hs : Shaped x t) : i * 4096 ∉ t.addrs := by
  intro hmem
  obtain ⟨k, q, hq, heq, _, hk⟩ := hs.slot hmem
  have hki : k = i := (Nat.eq_of_mul_eq_mul_right (by decide) heq).symm
  rw [hki] at hk
  exact h.free q hq hk

/-- The other tables are as they were. -/
theorem ramPage (h : Gains t u p i) (hs : Shaped x t) (ha : a ∈ t.addrs) :
    u.ramPage a = t.ramPage a := by
  have hne : a ≠ i * 4096 := by
    rintro rfl
    exact h.fresh hs ha
  obtain ⟨k, _, _, rfl, _, _⟩ := hs.slot ha
  have hki : k ≠ i := by
    rintro rfl
    exact hne rfl
  exact h.bytes k hki

theorem homed (h : Gains t u p i) (hs : Shaped x t) {q : Nat} (hq : q ∈ u.pages) :
    Homed u.mgr q := by
  rw [h.pages] at hq
  rcases List.mem_append.1 hq with hold | hnew
  · obtain ⟨k, haddr, hk⟩ := hs.homed q hold
    have hik : i ≠ k := by
      rintro rfl
      exact h.free q hold hk
    exact ⟨k, by rw [h.kept q hold, haddr], by rw [h.slots, List.getElem?_set_ne hik, hk]⟩
  · obtain rfl := List.mem_singleton.1 hnew
    exact ⟨i, h.address hs.slots, by rw [h.slots, List.getElem?_set_self h.bound]⟩

theorem held (h : Gains t u p i) (hheld : Held t) : Held u := by
  constructor
  · rw [h.attr]
    exact hheld.loaded
  · intro q hq
    rw [h.pages] at hq
    rcases List.mem_append.1 hq with hold | hnew
    · rw [h.kept q hold]
      exact hheld.locked q hold
    · obtain rfl := List.mem_singleton.1 hnew
      rw [h.flags, if_pos hheld.loaded]
      decide

theorem spared (h : Gains t u p i) : Spared t u := by
  intro k m hm hout
  have hik : k ≠ i := by
    rintro rfl
    rw [h.slots, List.getElem?_set_self h.bound] at hm
    apply hout
    rw [h.pages, ← Option.some.inj (Option.some.inj hm)]
    exact List.mem_append_right _ (List.mem_singleton.2 rfl)
  rw [h.slots, List.getElem?_set_ne (Ne.symm hik)] at hm
  exact ⟨hm, h.bytes k hik⟩

end Gains

/-! ## One more table -/

/-- The table with more tables but the same mappings. -/
structure Grown (x : X64) (t u : PageTable) : Prop where
  shaped : Shaped x u
  lookup : ∀ v, PageTable.lookup x u v = PageTable.lookup x t v
  held : Held t → Held u
  pages : ∀ m ∈ t.pages, m ∈ u.pages
  attr : u.attr = t.attr

theorem Grown.refl (hs : Shaped x t) : Grown x t t := ⟨hs, fun _ => rfl, id, fun _ => id, rfl⟩

theorem Grown.trans (h : Grown x t u) (h' : Grown x u w) : Grown x t w where
  shaped := h'.shaped
  lookup := fun v => (h'.lookup v).trans (h.lookup v)
  held := h'.held ∘ h.held
  pages := fun m hm => h'.pages m (h.pages m hm)
  attr := h'.attr.trans h.attr

theorem Stays.grown (h : Stays t u) (hs : Shaped x t) : Grown x t u where
  shaped := (h.shaped hs).1
  lookup := (h.shaped hs).2
  held := h.held
  pages := by
    rw [h.pages]
    exact fun _ => id
  attr := h.attr

theorem reach_of_root {root : Nat} (hr : t.root = some root) (q : List (Fin 512)) :
    t.reach x q = walk (tables x t.ramPage) root q := by
  unfold PageTable.reach
  rw [hr]
  rfl

theorem exists_root {q : List (Fin 512)} (hq : t.reach x q = some a) :
    ∃ root, t.root = some root ∧ walk (tables x t.ramPage) root q = some a :=
  Option.bind_eq_some_iff.1 hq

/-- A path of up to three indices leads to a table. -/
theorem PageTable.Shaped.mem (hs : Shaped x t) {q : List (Fin 512)} (hlen : q.length ≤ 3)
    (hq : t.reach x q = some a) : a ∈ t.addrs := by
  obtain ⟨root, hr, hw⟩ := exists_root hq
  exact (hs.tree root hr).nodes q a hlen hw

/-- An entry of a table is written: the pages of other slots are as they were. -/
theorem setEntry_spared (hs : ∀ q ∈ t.pages, Homed t.mgr q) (ha : a ∈ t.addrs) (i : Fin 512)
    (W : Entry) : Spared t (t.setEntry (a + 8 * i) W) := by
  obtain ⟨q, hq, rfl⟩ := List.mem_map.1 ha
  obtain ⟨k₀, haddr, hk₀⟩ := hs q hq
  intro k m hm hout
  refine ⟨hm, ?_⟩
  have hne : k ≠ k₀ := by
    rintro rfl
    have hmq : t.mgr.mBlocks[k]? = some (some m) := hm
    rw [hk₀] at hmq
    exact hout (Option.some.inj (Option.some.inj hmq) ▸ hq)
  rw [haddr]
  exact ramPage_setEntry_ne t hne i W

/-- What the other tables hold after an entry of one is written. -/
theorem entryOf_written {addrs : List Nat} (haddrs : ∀ b ∈ addrs, ∃ k, b = k * 4096)
    (ha : a ∈ addrs) (i : Fin 512) (W : Entry) :
    ∀ b ∈ addrs, ∀ j, ¬ (b = a ∧ j = i) →
      entryOf ((t.setEntry (a + 8 * i) W).ramPage b) j = entryOf (t.ramPage b) j := by
  intro b hb j hne
  by_cases hba : b = a
  · subst hba
    have hji : j ≠ i := fun h => hne ⟨rfl, h⟩
    rw [entryOf_setEntry, if_neg hji]
  · obtain ⟨k, rfl⟩ := haddrs b hb
    obtain ⟨k', rfl⟩ := haddrs a ha
    have hkk : k ≠ k' := by
      rintro rfl
      exact hba rfl
    rw [ramPage_setEntry_ne t hkk]

theorem PageTable.Shaped.aligned (hs : Shaped x t) : ∀ b ∈ t.addrs, ∃ k, b = k * 4096 := by
  intro b hb
  obtain ⟨k, _, _, hk, _⟩ := hs.slot hb
  exact ⟨k, hk⟩

/-- The new table is hung in its place. -/
theorem Gains.hung {q : List (Fin 512)} {j : Fin 512} {W : Entry} (h : Gains t u p i)
    (hs : Shaped x t) (hdeep : q.length < 3) (hq : t.reach x q = some a)
    (hwas : (x.level q.length).P (t.entry (a + 8 * j)) = false)
    (hempty : ∀ k, (x.level (q.length + 1)).P (entryOf (u.mgr.slotPage i) k) = false)
    (hW : (x.level q.length).follow W = some (i * 4096)) :
    Shaped x (u.setEntry (a + 8 * j) W) ∧
      (u.setEntry (a + 8 * j) W).reach x (j :: q) = some (i * 4096) ∧
      ∀ q', q'.length ≤ 4 → q' ≠ j :: q →
        (u.setEntry (a + 8 * j) W).reach x q' = t.reach x q' := by
  obtain ⟨root, hr, hw⟩ := exists_root hq
  have htree := hs.tree root hr
  have ha : a ∈ t.addrs := htree.nodes q a (Nat.le_of_lt hdeep) hw
  have hroot : u.root = some root := by
    unfold PageTable.root at hr ⊢
    rw [h.addrs hs.slots, List.head?_append, hr]
    rfl
  have hb := h.fresh hs
  -- the tables that were there hold what they held, but for the entry that is written
  have hrest : ∀ b ∈ t.addrs, ∀ k, ¬ (b = a ∧ k = j) →
      entryOf ((u.setEntry (a + 8 * j) W).ramPage b) k = entryOf (t.ramPage b) k := by
    intro b hbt k hne
    rw [entryOf_written hs.aligned ha j W b hbt k hne, h.ramPage hs hbt]
  have hset : tables x (u.setEntry (a + 8 * j) W).ramPage q.length a j = some (i * 4096) := by
    unfold tables
    rw [entryOf_setEntry, if_pos rfl, hW]
  have hnone : tables x t.ramPage q.length a j = none := by
    unfold tables
    rw [← entry_eq]
    exact Format.follow_of_not _ hwas
  have hnew : ∀ k, tables x (u.setEntry (a + 8 * j) W).ramPage (q.length + 1) (i * 4096) k = none := by
    intro k
    obtain ⟨k', rfl⟩ := hs.aligned a ha
    have hne : i ≠ k' := by
      rintro rfl
      exact hb ha
    unfold tables
    rw [ramPage_setEntry_ne u hne]
    exact Format.follow_of_not _ (hempty k)
  obtain ⟨htree', hreach, hold⟩ := htree.grow hdeep hw hnone hb hset hrest hnew
  have hroot' : (u.setEntry (a + 8 * j) W).root = some root := hroot
  refine ⟨⟨?_, ?_, ?_⟩, ?_, ?_⟩
  · show u.mgr.mBlocks.length ≤ maxSlots
    rw [h.slots, List.length_set]
    exact hs.slots
  · intro q' hq'
    exact h.homed hs (q := q') hq'
  · intro root' hr'
    rw [hroot'] at hr'
    obtain rfl := Option.some.inj hr'
    have haddrs : (u.setEntry (a + 8 * j) W).addrs = t.addrs ++ [i * 4096] := h.addrs hs.slots
    rw [haddrs]
    exact htree'
  · rw [reach_of_root hroot']
    exact hreach
  · intro q' hlen hne
    rw [reach_of_root hroot', reach_of_root hr]
    exact hold q' hlen hne

theorem Gains.grown {q : List (Fin 512)} {j : Fin 512} {W : Entry} (h : Gains t u p i)
    (hs : Shaped x t) (hdeep : q.length < 3) (hq : t.reach x q = some a)
    (hwas : (x.level q.length).P (t.entry (a + 8 * j)) = false)
    (hempty : ∀ k, (x.level (q.length + 1)).P (entryOf (u.mgr.slotPage i) k) = false)
    (hW : (x.level q.length).follow W = some (i * 4096)) :
    Grown x t (u.setEntry (a + 8 * j) W) ∧ Spared t (u.setEntry (a + 8 * j) W) ∧
      (u.setEntry (a + 8 * j) W).reach x (j :: q) = some (i * 4096) := by
  obtain ⟨hshaped, hreach, hold⟩ := h.hung hs hdeep hq hwas hempty hW
  have hau : a ∈ u.addrs := by
    rw [h.addrs hs.slots]
    exact List.mem_append_left _ (hs.mem (Nat.le_of_lt hdeep) hq)
  refine ⟨⟨hshaped, ?_, ?_, ?_, h.attr⟩, ?_, hreach⟩
  · intro v
    apply hold (path v) (Nat.le_refl 4)
    intro heq
    have hlen : (path v).length = q.length + 1 := congrArg List.length heq
    simp [path] at hlen
    omega
  · intro hheld
    exact ⟨(h.held hheld).loaded, (h.held hheld).locked⟩
  · intro m hm
    show m ∈ u.pages
    rw [h.pages]
    exact List.mem_append_left _ hm
  · have hspared := setEntry_spared (fun q' hq' => h.homed hs (q := q') hq') hau j W
    exact h.spared.trans hspared fun _ => id

theorem root_of_cons {r : Nat} {rest : List Nat} (hpages : t.pages = r :: rest) :
    t.root = some (t.mgr.blocks r).addr := by
  unfold PageTable.root PageTable.addrs
  rw [hpages]
  rfl

theorem root_of_empty (hnone : t.pages = []) : t.root = none := by
  unfold PageTable.root PageTable.addrs
  rw [hnone]
  rfl

/-- The first table of a new tree. -/
theorem Gains.rooted (h : Gains t u p i) (hs : Shaped x t) (hnone : t.pages = [])
    (hempty : ∀ k, x.pml4e.P (entryOf (u.mgr.slotPage i) k) = false) :
    Grown x t u ∧ u.reach x [] = some (i * 4096) ∧ ∀ q, q ≠ [] → u.reach x q = t.reach x q := by
  have haddrs : u.addrs = [i * 4096] := by
    rw [h.addrs hs.slots]
    unfold PageTable.addrs
    rw [hnone]
    rfl
  have hroot : u.root = some (i * 4096) := by
    unfold PageTable.root
    rw [haddrs]
    rfl
  obtain ⟨htree, hpaths⟩ := Tree.of_root u.ramPage (i * 4096) hempty
  have hreach : ∀ q, q ≠ [] → u.reach x q = t.reach x q := by
    intro q hq
    rw [reach_of_root hroot, hpaths q hq]
    unfold PageTable.reach
    rw [root_of_empty hnone]
    rfl
  refine ⟨⟨⟨?_, ?_, ?_⟩, fun v => hreach (path v) (by simp [path]), h.held, ?_, h.attr⟩, ?_, hreach⟩
  · rw [h.slots, List.length_set]
    exact hs.slots
  · exact fun q hq => h.homed hs hq
  · intro root hr
    rw [hroot] at hr
    obtain rfl := Option.some.inj hr
    rw [haddrs]
    exact htree
  · rw [hnone]
    simp
  · rw [reach_of_root hroot]
    rfl

/-- An entry of a last table is written. -/
theorem PageTable.Shaped.assign_reach {q : List (Fin 512)} (hs : Shaped x t) (hleaf : q.length = 3)
    (hq : t.reach x q = some a) (j : Fin 512) (W : Entry) :
    Shaped x (t.setEntry (a + 8 * j) W) ∧ ∀ q', q'.length ≤ 4 →
      (t.setEntry (a + 8 * j) W).reach x q' =
        if q' = j :: q then x.pte.follow W else t.reach x q' := by
  obtain ⟨root, hr, hw⟩ := exists_root hq
  have htree := hs.tree root hr
  have ha : a ∈ t.addrs := htree.nodes q a (Nat.le_of_eq hleaf) hw
  have hroot' : (t.setEntry (a + 8 * j) W).root = some root := hr
  obtain ⟨htree', hpaths⟩ := htree.assign (t.setEntry (a + 8 * j) W).ramPage j hleaf hw
    (entryOf_written hs.aligned ha j W)
  have hset : tables x (t.setEntry (a + 8 * j) W).ramPage 3 a j = x.pte.follow W := by
    unfold tables
    rw [entryOf_setEntry, if_pos rfl]
    rfl
  refine ⟨⟨hs.slots, hs.homed, ?_⟩, ?_⟩
  · intro root' hr'
    rw [hroot'] at hr'
    obtain rfl := Option.some.inj hr'
    exact htree'
  · intro q' hlen
    rw [reach_of_root hroot', reach_of_root hr, hpaths q' hlen, hset]

/-- The entry of an address is written. -/
theorem PageTable.Shaped.assign {q : List (Fin 512)} (hs : Shaped x t) (hleaf : q.length = 3)
    (hq : t.reach x q = some a) (j : Fin 512) (W : Entry) :
    Shaped x (t.setEntry (a + 8 * j) W) ∧
      (∀ v, lookup x (t.setEntry (a + 8 * j) W) v =
        if path v = j :: q then x.pte.follow W else lookup x t v) ∧
      Spared t (t.setEntry (a + 8 * j) W) := by
  obtain ⟨hshaped, hreach⟩ := hs.assign_reach hleaf hq j W
  exact ⟨hshaped, fun v => hreach (path v) (Nat.le_refl 4),
    setEntry_spared hs.homed (hs.mem (Nat.le_of_eq hleaf) hq) j W⟩

/-! ## The walk -/

section Rules

variable {alloc : Fin 4 → Walk Nat} {E : Unit → PageTable → Prop}

theorem wlp_nextTable_of {f : Format} {Q : Nat → PageTable → Prop}
    (hold : f.P (t.entry a) = true → Q (f.base (t.entry a)) t)
    (hnew : f.P (t.entry a) = false → wlp (alloc l)
      (fun p u => Q (u.mgr.blocks p).addr (u.setEntry a
        (f.setRW true (f.setBase (u.mgr.blocks p).addr (f.setP true (u.entry a)))))) E t) :
    wlp (nextTable alloc f l true a) Q E t := by
  unfold nextTable
  simp only [wlp_bind, wlp_readEntry, wlp_ite, not_true_eq_false, false_implies, true_and,
    not_false_eq_true, true_implies, wlp_get, wlp_pure, wlp_modifyEntry]
  intro _
  constructor
  · intro hwas
    apply wlp_mono (hnew hwas)
    · intro p u hu _ _ _
      simp only [entry_setEntry, setEntry_setEntry]
      exact hu
    · exact fun _ _ hu => hu
  · exact fun hP => hold (by simpa using hP)

/-- What is kept from one table of the walk to the next is kept by the walk. -/
theorem wlp_walk {v : Nat} (At : List (Fin 512) → Nat → PageTable → Prop)
    (hroot : wlp (rootTable alloc true) (fun b u => At [] b u) E t)
    (hnext : ∀ (q : List (Fin 512)) (j : Fin 512) (l : Fin 4) (a : Nat) (u : PageTable),
      (j :: q) <:+ tablePath v → q.length < 3 → (l : Nat) = q.length + 1 → At q a u →
      wlp (nextTable alloc (x.level q.length) l true (a + 8 * j)) (fun b w => At (j :: q) b w) E u) :
    wlp (getPteWith alloc x v true)
      (fun pte u => ∃ a, At (tablePath v) a u ∧ pte = a + 8 * ipte v) E t := by
  unfold getPteWith
  simp only [wlp_bind, wlp_pure]
  have hsuffix : ∀ {q : List (Fin 512)}, q.length ≤ 3 → q = (tablePath v).drop (3 - q.length) →
      q <:+ tablePath v := by
    intro q _ hq
    rw [hq]
    exact List.drop_suffix _ _
  apply wlp_mono hroot
  · intro pmlt u₁ h₁
    apply wlp_mono (hnext [] (ipml4 v) 1 pmlt u₁ (hsuffix (by simp) rfl) (by simp) rfl h₁)
    · intro pdp u₂ h₂
      apply wlp_mono (hnext [ipml4 v] (ipdpe v) 2 pdp u₂ (hsuffix (by simp) rfl) (by simp) rfl h₂)
      · intro pd u₃ h₃
        apply wlp_mono (hnext [ipdpe v, ipml4 v] (ipde v) 3 pd u₃ (hsuffix (by simp) rfl) (by simp)
          rfl h₃)
        · exact fun pt u₄ h₄ => ⟨pt, h₄, rfl⟩
        · exact fun _ _ h₄ => h₄
      · exact fun _ _ h₃ => h₃
    · exact fun _ _ h₂ => h₂
  · exact fun _ _ h₁ => h₁

end Rules

/-- An allocator that gives tables of their own, without entries. -/
def Serves (x : X64) (need : Prop) (alloc : Fin 4 → Walk Nat) : Prop :=
  ∀ l t, (need → Held t) → wlp (alloc l)
    (fun p u => ∃ i, Gains t u p i ∧ ∀ k, (x.level l).P (entryOf (u.mgr.slotPage i) k) = false)
    (fun _ u => Stays t u) t

section Walk

variable {need : Prop} {alloc : Fin 4 → Walk Nat} {q : List (Fin 512)}

/-- Only the last table of the path `q` may be new. -/
def SameBut (x : X64) (t u : PageTable) (q : List (Fin 512)) : Prop :=
  ∀ v, tablePath v ≠ q → u.reach x (tablePath v) = t.reach x (tablePath v)

theorem SameBut.trans {q' : List (Fin 512)} (h : SameBut x t u q) (hq : q.length < 3)
    (h' : SameBut x u w q') : SameBut x t w q' := by
  intro v hv
  rw [h' v hv]
  apply h v
  rintro rfl
  exact absurd hq (by simp [tablePath])

theorem wlp_rootTable (halloc : Serves x need alloc) (hs : Shaped x t) (hneed : need → Held t) :
    wlp (rootTable alloc true)
      (fun b u => Grown x t u ∧ Spared t u ∧ u.reach x [] = some b ∧ SameBut x t u [])
      (fun _ u => Grown x t u ∧ SameBut x t u []) t := by
  unfold rootTable
  rw [wlp_bind, wlp_get]
  cases hpages : t.pages with
  | cons r rest =>
      rw [wlp_pure]
      exact ⟨Grown.refl hs, Spared.refl t, by rw [reach_of_root (root_of_cons hpages)]; rfl,
        fun _ _ => rfl⟩
  | nil =>
      simp only [not_true_eq_false, if_false, wlp_bind, wlp_attempt]
      apply wlp_mono (halloc 0 t hneed)
      · intro p u hu
        obtain ⟨i, hgain, hempty⟩ := hu
        obtain ⟨hgrown, hreach, hold⟩ := hgain.rooted hs hpages hempty
        simp only [wlp_get, wlp_pure]
        rw [hgain.address hs.slots]
        exact ⟨hgrown, hgain.spared, hreach, fun v hv => hold (tablePath v) hv⟩
      · exact fun _ _ _ => wlp_fault

theorem wlp_nextTable (halloc : Serves x need alloc) (hs : Shaped x t) (hneed : need → Held t)
    (hdeep : q.length < 3) (hq : t.reach x q = some a) (hl : (l : Nat) = q.length + 1)
    (j : Fin 512) :
    wlp (nextTable alloc (x.level q.length) l true (a + 8 * j))
      (fun b u => Grown x t u ∧ Spared t u ∧ u.reach x (j :: q) = some b ∧ SameBut x t u (j :: q))
      (fun _ u => Grown x t u ∧ SameBut x t u []) t := by
  apply wlp_nextTable_of
  · intro hP
    obtain ⟨root, hr, hw⟩ := exists_root hq
    refine ⟨Grown.refl hs, Spared.refl t, ?_, fun _ _ => rfl⟩
    rw [reach_of_root hr, walk_cons_of hw]
    unfold tables Format.follow
    rw [← entry_eq, if_pos hP]
  · intro hwas
    apply wlp_mono (halloc l t hneed)
    · intro p u hu
      obtain ⟨i, hgain, hempty⟩ := hu
      rw [hl] at hempty
      rw [hgain.address hs.slots]
      have hfollow := x.follow_new hdeep (Nat.lt_of_lt_of_le hgain.bound hs.slots)
        (u.entry (a + 8 * j))
      obtain ⟨hgrown, hspared, hreach⟩ := hgain.grown hs hdeep hq hwas hempty hfollow
      obtain ⟨-, -, hold⟩ := hgain.hung hs hdeep hq hwas hempty hfollow
      exact ⟨hgrown, hspared, hreach, fun v hv => hold (tablePath v) (by simp [tablePath]) hv⟩
    · exact fun _ _ hu => ⟨hu.grown hs, fun v _ => (hu.reach hs).2 (tablePath v) (by simp [tablePath])⟩

/-- What `get_pte` does when it may allocate tables. -/
theorem wlp_getPteWith (halloc : Serves x need alloc) (hs : Shaped x t) (hneed : need → Held t)
    (v : Nat) :
    wlp (getPteWith alloc x v true)
      (fun pte u => Grown x t u ∧ Spared t u ∧
        (∃ a, u.reach x (tablePath v) = some a ∧ pte = a + 8 * ipte v) ∧
          SameBut x t u (tablePath v))
      (fun _ u => Grown x t u ∧ SameBut x t u []) t := by
  refine wlp_mono (wlp_walk (x := x) (v := v)
    (fun q a u => Grown x t u ∧ Spared t u ∧ u.reach x q = some a ∧ SameBut x t u q)
    (wlp_rootTable halloc hs hneed) ?_) ?_ ?_
  · intro q j l a u _ hdeep hl hat
    obtain ⟨hg, hsp, hq, hsame⟩ := hat
    apply wlp_mono (wlp_nextTable halloc hg.shaped (fun hn => hg.held (hneed hn)) hdeep hq hl j)
    · intro b w hw
      obtain ⟨hg', hsp', hq', hsame'⟩ := hw
      exact ⟨hg.trans hg', hsp.trans hsp' hg'.pages, hq', hsame.trans hdeep hsame'⟩
    · exact fun _ _ hw => ⟨hg.trans hw.1, hsame.trans hdeep hw.2⟩
  · intro pte u hu
    obtain ⟨a, ⟨hg, hsp, hq, hsame⟩, hpte⟩ := hu
    exact ⟨hg, hsp, ⟨a, hq, hpte⟩, hsame⟩
  · exact fun _ _ hu => hu

end Walk

end Vin64.Vm
