import Vin64.Vm.Proofs.Saves

/-!
# A table whose blocks are evicted

What the blocks of a table hold is a tree wherever their pages are, as long as no two blocks
have one address and a walk meets only tables that are in their slots.
-/

namespace Vin64.Vm

open Vin64.Lib Vin64.Lib.Op Vin64.Lib.Radix Vin64.Utils Vin64.Vram Vin64.Vram.RamManager PageTable

variable {x : X64} {t u w : PageTable} {pg pg' : Nat → Page} {a b p i : Nat} {l : Fin 4}
  {q : List (Fin 512)} {j : Fin 512} {W : Entry} {v : Nat}

/-! ## Blocks and their pages -/

/-- The table at an address has a block of its own, with the page `pg` says. -/
structure Housed (t : PageTable) (pg : Nat → Page) : Prop where
  mgr : t.mgr.Invariant
  slots : t.mgr.mBlocks.length ≤ maxSlots
  holds : ∀ p ∈ t.pages, t.mgr.content p = some (pg (t.mgr.blocks p).addr)
  apart : ∀ p ∈ t.pages, ∀ p' ∈ t.pages, (t.mgr.blocks p).addr = (t.mgr.blocks p').addr → p = p'

/-- The pages of the blocks are a tree. -/
structure Stored (x : X64) (t : PageTable) (pg : Nat → Page) : Prop extends Housed t pg where
  tree : ∀ root, t.root = some root → Tree x pg root t.addrs

/-- The table at an address is in its slot. -/
def AtHome (t : PageTable) (a : Nat) : Prop :=
  ∃ p ∈ t.pages, (t.mgr.blocks p).addr = a ∧ Homed t.mgr p

/-- The place of a block that is in its slot. -/
theorem Housed.place (h : Housed t pg) (hp : Homed t.mgr p) :
    ∃ k, (t.mgr.blocks p).addr = k * 4096 ∧ t.mgr.place p = some (.slot k) := by
  obtain ⟨k, haddr, hk⟩ := hp
  exact ⟨k, haddr, (h.mgr.slot_iff k p).1 hk⟩

/-- The RAM shows the page of a table that is in its slot. -/
theorem Housed.ramPage (h : Housed t pg) (ha : AtHome t a) : t.ramPage a = pg a := by
  obtain ⟨p, hp, rfl, hhome⟩ := ha
  obtain ⟨k, haddr, hplace⟩ := h.place hhome
  have hpage := (content_slot hplace).symm.trans (h.holds p hp)
  rw [haddr] at hpage ⊢
  exact Option.some.inj hpage

theorem Housed.entry (h : Housed t pg) (ha : AtHome t a) (j : Fin 512) :
    t.entry (a + 8 * j) = entryOf (pg a) j := by
  rw [entry_eq, h.ramPage ha]

/-- An entry of a table in its slot is written: only this table changes. -/
theorem Housed.setEntry (h : Housed t pg) (ha : AtHome t a) (j : Fin 512) (W : Entry) :
    Housed (t.setEntry (a + 8 * j) W)
      (Function.update pg a ((t.setEntry (a + 8 * j) W).ramPage a)) where
  mgr := ⟨h.mgr.slot_iff, h.mgr.file, h.mgr.unshared, h.mgr.home, h.mgr.flags, h.mgr.grows,
    h.mgr.low⟩
  slots := h.slots
  holds := by
    obtain ⟨p₀, hp₀, rfl, hhome⟩ := ha
    obtain ⟨k₀, haddr₀, hplace₀⟩ := h.place hhome
    rw [haddr₀]
    intro p hp
    have hplace : (t.setEntry (k₀ * 4096 + 8 * j) W).mgr.place p = t.mgr.place p := rfl
    have haddr : ((t.setEntry (k₀ * 4096 + 8 * j) W).mgr.blocks p).addr = (t.mgr.blocks p).addr := rfl
    rw [haddr]
    by_cases hsame : p = p₀
    · rw [hsame, haddr₀, Function.update_self]
      exact content_slot hplace₀
    · have hne : (t.mgr.blocks p).addr ≠ k₀ * 4096 := by
        rw [← haddr₀]
        exact fun heq => hsame (h.apart p hp p₀ hp₀ heq)
      rw [Function.update_of_ne hne, ← h.holds p hp]
      unfold RamManager.content
      rw [hplace]
      cases hpl : t.mgr.place p with
      | none => rfl
      | some y =>
          cases y with
          | slot k =>
              have hkk : k ≠ k₀ := by
                rintro rfl
                exact hne (h.mgr.addr_lt hpl).2
              exact congrArg some (ramPage_setEntry_ne t hkk j W)
          | file n => rfl
  apart := h.apart

/-- The pages of the blocks were moved but not changed. -/
theorem Housed.saves (h : Housed t pg) (hpages : u.pages = t.pages)
    (hsaves : Saves t.pages t.mgr u.mgr) : Housed u pg where
  mgr := hsaves.invariant
  slots := by
    rw [hsaves.length]
    exact h.slots
  holds := by
    intro p hp
    rw [hpages] at hp
    rw [hsaves.content p hp, hsaves.addr p hp]
    exact h.holds p hp
  apart := by
    rw [hpages]
    intro p hp p' hp' heq
    rw [hsaves.addr p hp, hsaves.addr p' hp'] at heq
    exact h.apart p hp p' hp' heq

theorem Stored.saves (h : Stored x t pg) (hpages : u.pages = t.pages)
    (hsaves : Saves t.pages t.mgr u.mgr) : Stored x u pg where
  toHoused := h.toHoused.saves hpages hsaves
  tree := by
    have haddrs : u.addrs = t.addrs := by
      unfold PageTable.addrs
      rw [hpages]
      exact List.map_congr_left fun p hp => hsaves.addr p hp
    intro root hr
    unfold PageTable.root at hr
    rw [haddrs] at hr ⊢
    exact h.tree root hr

/-! ## New tables -/

/-- The slot chosen for a new table of level `l` is not at the address of another table, and if
it is free its page has no present entry. -/
def Unclaimed (x : X64) (e : PgtEnv) (l : Fin 4) (t : PageTable) : Prop :=
  ∀ i ∈ findFreeOrSwappable t.mgr (e.mgr l).change, i * 4096 ∉ t.addrs ∧
    (t.mgr.mBlocks[i]? = some none → ∀ k, (x.level l).P (entryOf (t.mgr.slotPage i) k) = false)

instance (x : X64) (e : PgtEnv) (l : Fin 4) : DecidablePred (Unclaimed x e l) :=
  fun t => inferInstanceAs (Decidable (∀ i ∈ findFreeOrSwappable t.mgr (e.mgr l).change, _ ∧ _))

/-- The manager gave slot `i`, at the address of no other table, to the new block `p`. -/
structure Adds (t u : PageTable) (p i : Nat) : Prop extends Gains t u p i where
  saves : Saves t.pages t.mgr u.mgr
  unclaimed : i * 4096 ∉ t.addrs

/-- An unused block is not placed, and stays so when it is made anew. -/
theorem lifts_unused {s : RamManager} (h : (s.blocks p).flags = 0#32) :
    Lifts s { s with blocks := Function.update s.blocks p ⟨0#32, 0, 0, none⟩ } p
      ⟨0#32, 0, 0, none⟩ := by
  have hplace : s.place p = none := by
    apply RamBlock.place_eq_none.2
    rw [h]
    exact BitVec.zero_and
  constructor <;> try rfl
  · intro k hk
    rw [hplace] at hk
    simp at hk
  · exact fun _ => rfl
  · exact fun _ _ => rfl
  · exact fun k hk => ⟨hk, by rw [hplace]; simp⟩
  · intro k hk
    rw [hplace] at hk
    simp at hk
  · exact fun _ => rfl

theorem wlp_allocPgtBlock_saves {pe : PgtEnv} (hs : t.mgr.Invariant)
    (hslots : t.mgr.mBlocks.length ≤ maxSlots) (hclean : (pe.mgr l).transfers.Clean) :
    wlp (allocPgtBlock pe l) (fun _ u => Saves t.pages t.mgr u.mgr)
      (fun _ u => Saves t.pages t.mgr u.mgr) t := by
  unfold allocPgtBlock
  cases pe.new l with
  | none => exact .refl t.pages hs
  | some p =>
      simp only [wlp_bind, wlp_get, wlp_ite, wlp_fault, implies_true, true_and, wlp_attempt, onRam,
        wlp_zoom, wlp_modifyBlock]
      intro huse
      obtain ⟨hout, hzero⟩ := not_or.1 huse
      have hlift := lifts_unused (not_not.1 hzero)
      have hsaves := Saves.of_lifts hlift hs hout
      have hnew : ¬ RamManager.Valid { t.mgr with
          blocks := Function.update t.mgr.blocks p ⟨0#32, 0, 0, none⟩ } p := by
        simp [RamManager.Valid]
      apply wlp_mono (wlp_alloc_saves hsaves.invariant hclean hslots hnew hout)
      · exact fun _ u hu => hsaves.trans hu
      · exact fun _ u hu => hsaves.trans hu

theorem wlp_allocWhen_unclaimed {pe : PgtEnv} (hs : Housed t pg) (hclean : (pe.mgr l).transfers.Clean) :
    wlp (allocWhen (Unclaimed x) pe l)
      (fun p u => ∃ i, Adds t u p i ∧ ∀ k, (x.level l).P (entryOf (u.mgr.slotPage i) k) = false)
      (fun _ u => Stays t u ∧ Saves t.pages t.mgr u.mgr) t := by
  unfold allocWhen
  rw [wlp_assuming]
  intro hfree
  have hspares : Spares x pe l t := by
    intro i hi
    refine ⟨?_, (hfree i hi).2⟩
    intro m hm hslot
    apply (hfree i hi).1
    rw [← (hs.mgr.addr_lt ((hs.mgr.slot_iff i m).1 hslot)).2]
    exact List.mem_map_of_mem hm
  apply wlp_mono (wlp_and (wlp_allocPgtBlock hspares) (wlp_allocPgtBlock_saves hs.mgr hs.slots hclean))
  · intro p u hu
    obtain ⟨⟨i, hi, hgain, hempty⟩, hsaves⟩ := hu
    exact ⟨i, ⟨hgain, hsaves, (hfree i hi).1⟩, hempty⟩
  · exact fun _ _ hu => hu

namespace Adds

/-- The new block is the one in its slot. -/
theorem home (h : Adds t u p i) (hs : Housed t pg) : Homed u.mgr p :=
  ⟨i, h.address hs.slots, by rw [h.slots, List.getElem?_set_self h.bound]⟩

theorem atHome_new (h : Adds t u p i) (hs : Housed t pg) : AtHome u (i * 4096) := by
  refine ⟨p, ?_, h.address hs.slots, h.home hs⟩
  rw [h.pages]
  exact List.mem_append_right _ (List.mem_singleton.2 rfl)

theorem atHome (h : Adds t u p i) (ha : AtHome t a) : AtHome u a := by
  obtain ⟨m, hm, rfl, k, haddr, hk⟩ := ha
  have hik : i ≠ k := by
    rintro rfl
    exact h.free m hm hk
  refine ⟨m, ?_, by rw [h.kept m hm], k, by rw [h.kept m hm, haddr], ?_⟩
  · rw [h.pages]
    exact List.mem_append_left _ hm
  · rw [h.slots, List.getElem?_set_ne hik, hk]

/-- The new block holds the page of its slot, and the others hold what they held. -/
theorem housed (h : Adds t u p i) (hs : Housed t pg) :
    Housed u (Function.update pg (i * 4096) (u.mgr.slotPage i)) := by
  have haddr := h.address hs.slots
  have hne : ∀ m ∈ t.pages, (u.mgr.blocks m).addr ≠ i * 4096 := by
    intro m hm heq
    apply h.unclaimed
    rw [← heq, h.kept m hm]
    exact List.mem_map_of_mem hm
  have hmem : ∀ m ∈ u.pages, m ∈ t.pages ∨ m = p := by
    intro m hm
    rw [h.pages] at hm
    simpa using hm
  refine ⟨h.saves.invariant, by rw [h.saves.length]; exact hs.slots, ?_, ?_⟩
  · intro m hm
    rcases hmem m hm with hold | rfl
    · rw [Function.update_of_ne (hne m hold), h.saves.content m hold, h.saves.addr m hold]
      exact hs.holds m hold
    · have hslot : u.mgr.mBlocks[i]? = some (some m) := by
        rw [h.slots, List.getElem?_set_self h.bound]
      rw [haddr, Function.update_self]
      exact content_slot ((h.saves.invariant.slot_iff i m).1 hslot)
  · intro m hm m' hm' heq
    rcases hmem m hm with hold | rfl <;> rcases hmem m' hm' with hold' | rfl
    · rw [h.kept m hold, h.kept m' hold'] at heq
      exact hs.apart m hold m' hold' heq
    · exact absurd (heq.trans haddr) (hne m hold)
    · exact absurd (heq.symm.trans haddr) (hne m' hold')
    · rfl

end Adds

/-! ## The walk -/

/-- The tables on the way to the entry of an address are in their slots. -/
def Resides (x : X64) (t : PageTable) (v : Nat) : Prop :=
  ∀ q a, q <:+ tablePath v → t.reach x q = some a → AtHome t a

/-- The same in the tree that the blocks hold. -/
def Clear (x : X64) (t : PageTable) (pg : Nat → Page) (v : Nat) : Prop :=
  ∀ root q a, t.root = some root → q <:+ tablePath v → walk (tables x pg) root q = some a →
    AtHome t a

theorem Stored.clear (hs : Stored x t pg) (h : Resides x t v) : Clear x t pg v := by
  intro root q a hr hq hw
  -- on this path the RAM shows what the blocks hold
  have hsame : ∀ q : List (Fin 512), q <:+ tablePath v →
      walk (tables x t.ramPage) root q = walk (tables x pg) root q := by
    intro q
    induction q with
    | nil => exact fun _ => rfl
    | cons j q ih =>
        intro hsuffix
        have hq := (List.suffix_cons j q).trans hsuffix
        rw [walk_cons, walk_cons, ← ih hq]
        cases hw : walk (tables x t.ramPage) root q with
        | none => rfl
        | some b =>
            have hhome := h q b hq (by rw [reach_of_root hr, hw])
            show tables x t.ramPage q.length b j = tables x pg q.length b j
            unfold tables
            rw [hs.ramPage hhome]
  apply h q a hq
  rw [reach_of_root hr, hsame q hq, hw]

/-- The blocks hold a tree. -/
def Intact (x : X64) (t : PageTable) : Prop := ∃ pg, Stored x t pg

/-- The walk to the entry of `v` has come to the table at `a`. -/
def Way (x : X64) (v : Nat) (q : List (Fin 512)) (a : Nat) (u : PageTable) : Prop :=
  ∃ pg root, Stored x u pg ∧ Clear x u pg v ∧ u.root = some root ∧
    walk (tables x pg) root q = some a

theorem Adds.rooted (h : Adds t u p i) (hs : Stored x t pg) (hnone : t.pages = [])
    (hempty : ∀ k, x.pml4e.P (entryOf (u.mgr.slotPage i) k) = false) : Way x v [] (i * 4096) u := by
  have haddrs : u.addrs = [i * 4096] := by
    rw [h.addrs hs.slots]
    unfold PageTable.addrs
    rw [hnone]
    rfl
  have hroot : u.root = some (i * 4096) := by
    unfold PageTable.root
    rw [haddrs]
    rfl
  have hpage : ∀ k, x.pml4e.P (entryOf (Function.update pg (i * 4096) (u.mgr.slotPage i)
      (i * 4096)) k) = false := by
    rw [Function.update_self]
    exact hempty
  obtain ⟨htree, hpaths⟩ := Tree.of_root _ (i * 4096) hpage
  refine ⟨_, i * 4096, ⟨h.housed hs.toHoused, ?_⟩, ?_, hroot, rfl⟩
  · intro root hr
    rw [hroot] at hr
    rw [haddrs, ← Option.some.inj hr]
    exact htree
  · intro root q a hr _ hw
    rw [hroot] at hr
    rw [← Option.some.inj hr] at hw
    cases q with
    | nil =>
        rw [← Option.some.inj hw]
        exact h.atHome_new hs.toHoused
    | cons j q =>
        rw [hpaths (j :: q) (by simp)] at hw
        simp at hw

/-- The new table is hung in its place. -/
theorem Adds.way {root : Nat} (h : Adds t u p i) (hs : Stored x t pg) (hclear : Clear x t pg v)
    (hr : t.root = some root) (hw : walk (tables x pg) root q = some a) (hdeep : q.length < 3)
    (hsuffix : (j :: q) <:+ tablePath v)
    (hwas : (x.level q.length).P (t.entry (a + 8 * j)) = false)
    (hempty : ∀ k, (x.level (q.length + 1)).P (entryOf (u.mgr.slotPage i) k) = false)
    (hW : (x.level q.length).follow W = some (i * 4096)) :
    Way x v (j :: q) (i * 4096) (u.setEntry (a + 8 * j) W) := by
  have htree := hs.tree root hr
  have ha : a ∈ t.addrs := htree.nodes q a (Nat.le_of_lt hdeep) hw
  have hhome := hclear root q a hr ((List.suffix_cons j q).trans hsuffix) hw
  have hne : a ≠ i * 4096 := by
    rintro rfl
    exact h.unclaimed ha
  have hhoused := (h.housed hs.toHoused).setEntry (h.atHome hhome) j W
  have hroot : (u.setEntry (a + 8 * j) W).root = some root := by
    show u.root = some root
    unfold PageTable.root at hr ⊢
    rw [h.addrs hs.slots, List.head?_append, hr]
    rfl
  generalize hpg : Function.update (Function.update pg (i * 4096) (u.mgr.slotPage i)) a
    ((u.setEntry (a + 8 * j) W).ramPage a) = pg' at hhoused
  have hself : pg' a = (u.setEntry (a + 8 * j) W).ramPage a := by
    rw [← hpg, Function.update_self]
  have hother : ∀ b ∈ t.addrs, b ≠ a → pg' b = pg b := by
    intro b hb hba
    have hbi : b ≠ i * 4096 := by
      rintro rfl
      exact h.unclaimed hb
    rw [← hpg, Function.update_of_ne hba, Function.update_of_ne hbi]
  have hpage : u.ramPage a = pg a := by
    rw [(h.housed hs.toHoused).ramPage (h.atHome hhome), Function.update_of_ne hne]
  have hset : tables x pg' q.length a j = some (i * 4096) := by
    unfold tables
    rw [hself, entryOf_setEntry, if_pos rfl, hW]
  have hnone : tables x pg q.length a j = none := by
    unfold tables
    rw [← hs.entry hhome]
    exact Format.follow_of_not _ hwas
  have hrest : ∀ b ∈ t.addrs, ∀ k, ¬ (b = a ∧ k = j) → entryOf (pg' b) k = entryOf (pg b) k := by
    intro b hb k hbk
    by_cases hba : b = a
    · have hkj : k ≠ j := fun hkj => hbk ⟨hba, hkj⟩
      rw [hba, hself, entryOf_setEntry, if_neg hkj, hpage]
    · rw [hother b hb hba]
  have hnew : ∀ k, tables x pg' (q.length + 1) (i * 4096) k = none := by
    intro k
    unfold tables
    rw [← hpg, Function.update_of_ne (Ne.symm hne), Function.update_self]
    exact Format.follow_of_not _ (hempty k)
  obtain ⟨htree', hreach, hold⟩ := htree.grow hdeep hw hnone h.unclaimed hset hrest hnew
  refine ⟨pg', root, ⟨hhoused, ?_⟩, ?_, hroot, hreach⟩
  · intro root' hr'
    rw [hroot] at hr'
    have haddrs : (u.setEntry (a + 8 * j) W).addrs = t.addrs ++ [i * 4096] := h.addrs hs.slots
    rw [haddrs, ← Option.some.inj hr']
    exact htree'
  · intro root' q' a' hr' hq' hw'
    rw [hroot] at hr'
    rw [← Option.some.inj hr'] at hw'
    by_cases hqq : q' = j :: q
    · rw [hqq, hreach] at hw'
      rw [← Option.some.inj hw']
      exact h.atHome_new hs.toHoused
    · have hlen : q'.length ≤ 4 := Nat.le_succ_of_le hq'.length_le
      rw [hold q' hlen hqq] at hw'
      exact h.atHome (hclear root q' a' hr hq' hw')

section Walk

variable {pe : PgtEnv}

theorem Stored.stays (hs : Stored x t pg) (h : Stays t u ∧ Saves t.pages t.mgr u.mgr) : Intact x u :=
  ⟨pg, hs.saves h.1.pages h.2⟩

theorem wlp_rootTable_way (hclean : ∀ l, (pe.mgr l).transfers.Clean) (hs : Stored x t pg)
    (hclear : Clear x t pg v) :
    wlp (rootTable (allocWhen (Unclaimed x) pe) true) (fun a u => Way x v [] a u)
      (fun _ u => Intact x u) t := by
  unfold rootTable
  rw [wlp_bind, wlp_get]
  cases hpages : t.pages with
  | cons r rest =>
      rw [wlp_pure]
      exact ⟨pg, _, hs, hclear, root_of_cons hpages, rfl⟩
  | nil =>
      simp only [not_true_eq_false, if_false, wlp_bind, wlp_attempt]
      apply wlp_mono (wlp_allocWhen_unclaimed hs.toHoused (hclean 0))
      · intro p u hu
        obtain ⟨i, hadds, hempty⟩ := hu
        simp only [wlp_get, wlp_pure]
        rw [hadds.address hs.slots]
        exact hadds.rooted hs hpages hempty
      · exact fun _ _ _ => wlp_fault

theorem wlp_nextTable_way (hclean : ∀ l, (pe.mgr l).transfers.Clean) (hdeep : q.length < 3)
    (hl : (l : Nat) = q.length + 1) (hsuffix : (j :: q) <:+ tablePath v) (hway : Way x v q a t) :
    wlp (nextTable (allocWhen (Unclaimed x) pe) (x.level q.length) l true (a + 8 * j))
      (fun b u => Way x v (j :: q) b u) (fun _ u => Intact x u) t := by
  obtain ⟨pg, root, hs, hclear, hr, hw⟩ := hway
  have hhome := hclear root q a hr ((List.suffix_cons j q).trans hsuffix) hw
  apply wlp_nextTable_of
  · intro hP
    refine ⟨pg, root, hs, hclear, hr, ?_⟩
    rw [walk_cons_of hw]
    unfold tables Format.follow
    rw [← hs.entry hhome, if_pos hP]
  · intro hwas
    apply wlp_mono (wlp_allocWhen_unclaimed hs.toHoused (hclean l))
    · intro p u hu
      obtain ⟨i, hadds, hempty⟩ := hu
      rw [hl] at hempty
      rw [hadds.address hs.slots]
      apply hadds.way hs hclear hr hw hdeep hsuffix hwas hempty
      exact x.follow_new hdeep (Nat.lt_of_lt_of_le hadds.bound hs.slots) _
    · exact fun _ u hu => hs.stays hu

theorem wlp_getPteWith_way (hclean : ∀ l, (pe.mgr l).transfers.Clean) (hs : Stored x t pg)
    (hclear : Clear x t pg v) :
    wlp (getPteWith (allocWhen (Unclaimed x) pe) x v true)
      (fun pte u => ∃ a, Way x v (tablePath v) a u ∧ pte = a + 8 * ipte v)
      (fun _ u => Intact x u) t := by
  apply wlp_walk (x := x) (Way x v)
  · exact wlp_rootTable_way hclean hs hclear
  · exact fun q j l a u hsuffix hdeep hl hway => wlp_nextTable_way hclean hdeep hl hsuffix hway

/-- An entry for a page is written. -/
theorem Way.assign (h : Way x v (tablePath v) a t) (j : Fin 512) (W : Entry) :
    Intact x (t.setEntry (a + 8 * j) W) := by
  obtain ⟨pg, root, hs, hclear, hr, hw⟩ := h
  have hhome := hclear root (tablePath v) a hr (List.suffix_refl _) hw
  have hhoused := hs.toHoused.setEntry hhome j W
  refine ⟨_, hhoused, ?_⟩
  intro root' hr'
  have hroot : (t.setEntry (a + 8 * j) W).root = some root := hr
  rw [hroot] at hr'
  rw [← Option.some.inj hr']
  refine ((hs.tree root hr).assign _ j rfl hw ?_).1
  intro b _ k hbk
  by_cases hba : b = a
  · have hkj : k ≠ j := fun hkj => hbk ⟨hba, hkj⟩
    rw [hba, Function.update_self, entryOf_setEntry, if_neg hkj, hs.ramPage hhome]
  · rw [Function.update_of_ne hba]

/-- What a `vmmap` keeps, whether it succeeds or not. -/
theorem wlp_vmmapWith_intact {vma pma : Nat} {attr : BitVec 64}
    (hclean : ∀ l, (pe.mgr l).transfers.Clean) (hs : Intact x t) (hres : Resides x t vma) :
    wlp (vmmapWith x (allocWhen (Unclaimed x) pe) vma pma attr) (fun _ u => Intact x u)
      (fun _ u => Intact x u) t := by
  obtain ⟨pg, hstored⟩ := hs
  unfold vmmapWith
  rw [wlp_ite]
  refine ⟨fun _ => ⟨pg, hstored⟩, fun _ => ?_⟩
  rw [wlp_bind, wlp_attempt]
  apply wlp_mono (wlp_getPteWith_way hclean hstored (hstored.clear hres))
  · intro pte u hu
    obtain ⟨a, hway, rfl⟩ := hu
    simp only [wlp_bind, wlp_readEntry, wlp_ite, wlp_fail, wlp_modifyEntry]
    intro _
    constructor
    · intro _
      obtain ⟨pg', _, hstored', _⟩ := hway
      exact ⟨pg', hstored'⟩
    · intro _ _
      apply wlp_setAttr
      rw [setEntry_setEntry]
      exact hway.assign _ _
  · exact fun _ _ hu => hu

end Walk

end Vin64.Vm
