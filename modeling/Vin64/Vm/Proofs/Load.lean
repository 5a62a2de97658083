import Vin64.Vm.Proofs.Evicted
import Vin64.Vram.Proofs.Locks

/-!
# Loading a table

`load` locks the blocks of a table and brings them back to their slots, one after the other.
A block whose slot another block of the table holds by then cannot return.
-/

namespace Vin64.Vm

open Vin64.Lib Vin64.Lib.Op Vin64.Lib.Radix Vin64.Utils Vin64.Vram Vin64.Vram.RamManager PageTable

variable {x : X64} {tgt : Target} {s : RamManager} {t u w : PageTable} {pg : Nat → Page}
  {c i j p : Nat} {e : Env}

/-! ## Bringing one block back -/

/-- A block returns to a slot whose block is not locked if the page file works. -/
theorem wp_fetch_clean (hs : s.Invariant) (hslots : s.mBlocks.length ≤ maxSlots)
    (hi : i < s.mBlocks.length) (hc : s.place c = some (.file j)) (hclean : e.transfers.Clean)
    (hfree : ∀ m, s.mBlocks[i]? = some (some m) → (s.blocks m).flags &&& BF_LOCKED = 0#32) :
    wp (swapRamAndPageFile e i (some c)) (fun _ u => Fetches s u i c) (fun _ _ => False) s := by
  rw [wp_congr (swap_eq hslots i (some c))]
  have hj : (s.blocks c).swapid = j := (RamBlock.place_eq_file.1 hc).2.2
  have hlow := hs.low j (hs.file c j hc).2
  have hmc : s.mBlocks[i]? ≠ some (some c) := by
    intro h
    rw [(hs.slot_iff i c).1 h] at hc
    simp at hc
  apply wp_swap_some hi hmc
  · intro hidle _
    have hpage := slotPage_setPage_self (s := s) (s.filePage j) i
    rw [← hj] at hpage hc
    exact .load hc (puts_loadedIn hidle hc) hpage
  · exact fun m hm _ _ _ => .exchange (exchanges_exchanged hs hm hc)
  · intro m hm hlock
    simp [lockedSlot, hfree m hm] at hlock
  · intro hseek
    rw [hj, hclean.1] at hseek
    exact hseek (seeks_ok hlow)
  · exact fun hload => absurd hclean.1 hload
  · intro hseek
    rw [hj, hclean.2] at hseek
    exact hseek (seeks_ok hlow)
  · exact fun _ _ _ _ _ hstore => hstore hclean.2

theorem fetches_locked {u : RamManager} (h : Fetches s u i c) (q : Nat) :
    (u.blocks q).flags &&& BF_LOCKED = 0#32 ↔ (s.blocks q).flags &&& BF_LOCKED = 0#32 := by
  rcases h.block q with ⟨_, hq⟩ | ⟨_, j, hq⟩ | hq <;> rw [hq]
  · exact RamBlock.locked_swappedIn
  · exact RamBlock.locked_swappedOut

/-- A block that returns to its slot keeps its address, and so do the others. -/
theorem fetches_addr {u : RamManager} (h : Fetches s u i c) (hc : (s.blocks c).addr = i * 4096)
    (q : Nat) : (u.blocks q).addr = (s.blocks q).addr := by
  rcases h.block q with ⟨rfl, hq⟩ | ⟨_, j, hq⟩ | hq <;> rw [hq]
  · exact hc.symm
  · rfl

theorem ramSwapIn_of (hswap : s.IsSwapped p) (hlock : (s.blocks p).flags &&& BF_LOCKED ≠ 0#32) :
    ramSwapIn e p s = swapRamAndPageFile e ((s.blocks p).addr / 4096) (some p) s := by
  unfold ramSwapIn ramSwapInBody
  rw [bind_ok (blockAt_eq p), if_neg hswap, bind_ok (blockAt_eq p), if_pos hlock]
  rfl

/-- The blocks of the table are locked, and no others are. -/
structure Pinned (t : PageTable) (pg : Nat → Page) : Prop extends Housed t pg where
  locked : ∀ p ∈ t.pages, (t.mgr.blocks p).flags &&& BF_LOCKED ≠ 0#32
  others : ∀ m, m ∉ t.pages → (t.mgr.blocks m).flags &&& BF_LOCKED = 0#32

/-- What bringing blocks of the table back leaves. -/
structure Returns (t u : PageTable) (pg : Nat → Page) : Prop where
  pinned : Pinned u pg
  pages : u.pages = t.pages
  attr : u.attr = t.attr
  addr : ∀ p ∈ t.pages, (u.mgr.blocks p).addr = (t.mgr.blocks p).addr
  homed : ∀ p ∈ t.pages, Homed t.mgr p → Homed u.mgr p

theorem Returns.refl (h : Pinned t pg) : Returns t t pg :=
  ⟨h, rfl, rfl, fun _ _ => rfl, fun _ _ => id⟩

theorem Returns.trans (h : Returns t u pg) (h' : Returns u w pg) : Returns t w pg where
  pinned := h'.pinned
  pages := h'.pages.trans h.pages
  attr := h'.attr.trans h.attr
  addr := by
    intro p hp
    rw [h'.addr p (by rw [h.pages]; exact hp), h.addr p hp]
  homed := by
    intro p hp hhome
    exact h'.homed p (by rw [h.pages]; exact hp) (h.homed p hp hhome)

theorem Housed.homed_iff (h : Housed t pg) (p : Nat) :
    Homed t.mgr p ↔ ∃ k, t.mgr.place p = some (.slot k) := by
  constructor
  · intro hhome
    obtain ⟨k, _, hplace⟩ := h.place hhome
    exact ⟨k, hplace⟩
  · intro hplace
    obtain ⟨k, hk⟩ := hplace
    exact ⟨k, (h.mgr.addr_lt hk).2, (h.mgr.slot_iff k p).2 hk⟩

/-- A block of the table is in its slot or in the page file. -/
theorem Housed.homed_or (h : Housed t pg) (hp : p ∈ t.pages) :
    Homed t.mgr p ∨ ∃ j, t.mgr.place p = some (.file j) := by
  have hpage := h.holds p hp
  unfold RamManager.content at hpage
  cases hplace : t.mgr.place p with
  | none =>
      rw [hplace] at hpage
      simp at hpage
  | some y =>
      cases y with
      | slot k => exact .inl ((h.homed_iff p).2 ⟨k, hplace⟩)
      | file j => exact .inr ⟨j, rfl⟩

/-- The pages of the table stay where they are found when a block returns to its slot. -/
theorem Housed.fetches {m : RamManager} (h : Housed t pg) (hfetch : Fetches t.mgr m i p)
    (haddr : (t.mgr.blocks p).addr = i * 4096) : Housed { t with mgr := m } pg where
  mgr := hfetch.invariant h.mgr
  slots := by
    show m.mBlocks.length ≤ maxSlots
    rw [hfetch.length]
    exact h.slots
  holds := by
    intro q hq
    show m.content q = some (pg (m.blocks q).addr)
    rw [hfetch.content h.mgr, fetches_addr hfetch haddr q]
    exact h.holds q hq
  apart := by
    intro q hq q' hq' heq
    apply h.apart q hq q' hq'
    rw [← fetches_addr hfetch haddr q, ← fetches_addr hfetch haddr q']
    exact heq

/-- A block of the table returns to its slot, which has no other block of the table. -/
theorem Pinned.fetches {m : RamManager} (h : Pinned t pg) (hfetch : Fetches t.mgr m i p)
    (haddr : (t.mgr.blocks p).addr = i * 4096)
    (hfree : ∀ q, t.mgr.mBlocks[i]? = some (some q) → q ∉ t.pages) :
    Returns t { t with mgr := m } pg ∧ Homed m p := by
  have hhoused : Housed { t with mgr := m } pg := h.toHoused.fetches hfetch haddr
  have hstays : ∀ q ∈ t.pages, Homed t.mgr q → Homed m q := by
    intro q hq hhome
    obtain ⟨k, _, hplace⟩ := h.place hhome
    apply (hhoused.homed_iff q).2
    rcases hfetch.block q with ⟨rfl, _⟩ | ⟨hin, _⟩ | hsame
    · exact ⟨i, hfetch.place_self h.mgr⟩
    · exact absurd hq (hfree q hin)
    · refine ⟨k, ?_⟩
      show (m.blocks q).place = some (.slot k)
      rw [hsame]
      exact hplace
  refine ⟨⟨⟨hhoused, ?_, ?_⟩, rfl, rfl, fun q _ => fetches_addr hfetch haddr q, hstays⟩, ?_⟩
  · intro q hq
    rw [ne_eq, show _ ↔ _ from fetches_locked hfetch q]
    exact h.locked q hq
  · intro q hq
    exact (fetches_locked hfetch q).2 (h.others q hq)
  · exact (hhoused.homed_iff p).2 ⟨i, hfetch.place_self h.mgr⟩

/-- `RamSwapIn` brings a block of the table back to its slot. -/
theorem Pinned.swapIn (h : Pinned t pg) (hp : p ∈ t.pages) (hclean : e.transfers.Clean) :
    ∃ m, ramSwapIn e p t.mgr = some (.ok (), m) ∧ Returns t { t with mgr := m } pg ∧ Homed m p := by
  rcases h.homed_or hp with hhome | ⟨j, hfile⟩
  · obtain ⟨k, _, hplace⟩ := h.place hhome
    have hres : (t.mgr.blocks p).flags &&& BF_SWAPPED = 0#32 := (RamBlock.place_eq_slot.1 hplace).2.1
    refine ⟨t.mgr, ?_, Returns.refl h, hhome⟩
    unfold ramSwapIn
    rw [bind_ok (blockAt_eq p), if_pos hres]
    rfl
  · obtain ⟨i, hi, haddr⟩ := h.mgr.home p (by rw [hfile]; simp)
    have hswap : t.mgr.IsSwapped p := (RamBlock.place_eq_file.1 hfile).2.1
    have hslot : (t.mgr.blocks p).addr / 4096 = i := by rw [haddr, Nat.mul_div_cancel i (by decide)]
    -- the slot holds no other block of the table, so its block is not locked
    have hfree : ∀ m, t.mgr.mBlocks[i]? = some (some m) → m ∉ t.pages := by
      intro m hm hmem
      have hplace := (h.mgr.slot_iff i m).1 hm
      obtain rfl := h.apart m hmem p hp ((h.mgr.addr_lt hplace).2.trans haddr.symm)
      rw [hplace] at hfile
      simp at hfile
    have hwp := wp_fetch_clean h.mgr h.slots hi hfile hclean fun m hm => h.others m (hfree m hm)
    rw [← hslot, ← wp_congr (ramSwapIn_of hswap (h.locked p hp)), hslot] at hwp
    obtain ⟨_, m, hcall, hfetch⟩ := ok_of_wp hwp
    obtain ⟨hreturns, hhome⟩ := h.fetches hfetch haddr hfree
    exact ⟨m, hcall, hreturns, hhome⟩

/-- The loop brings every block back. -/
theorem swapInAll_returns {es : Nat → Env} (hclean : ∀ i, (es i).transfers.Clean) {ps : List Nat}
    (n : Nat) (h : Pinned t pg) (hps : ∀ p ∈ ps, p ∈ t.pages) :
    ∃ u, (swapInAll es ps n : Op PageTable PgtError Bool) t = some (.ok true, u) ∧
      Returns t u pg ∧ ∀ p ∈ ps, Homed u.mgr p := by
  induction ps generalizing t n with
  | nil => exact ⟨t, rfl, Returns.refl h, by simp⟩
  | cons p ps ih =>
      have hp := hps p (by simp)
      obtain ⟨m, hcall, hreturns, hhome⟩ := h.swapIn hp (hclean n)
      obtain ⟨u, hrest, hreturns', hhomes⟩ := ih (n + 1) hreturns.pinned
        fun q hq => hps q (List.mem_cons_of_mem p hq)
      refine ⟨u, ?_, hreturns.trans hreturns', ?_⟩
      · have hone : (onRam (ramSwapIn (es n) p)) t = some (.ok (), { t with mgr := m }) := by
          unfold onRam zoom
          rw [hcall]
        unfold swapInAll
        rw [bind_ok (attempt_eq hone)]
        exact hrest
      · intro q hq
        rcases List.mem_cons.1 hq with rfl | hq
        · exact hreturns'.homed q hp hhome
        · exact hhomes q hq

/-! ## Locking the blocks -/

/-- A change of the flags that makes no difference the second time is made once to each block. -/
theorem blocks_modifyFlags {f : BitVec 32 → BitVec 32} (hf : ∀ b, f (f b) = f b) (t : PageTable)
    (q : Nat) : (t.modifyFlags f).mgr.blocks q =
      if q ∈ t.pages then { t.mgr.blocks q with flags := f (t.mgr.blocks q).flags }
      else t.mgr.blocks q := by
  show t.pages.foldl (fun blocks p => Function.update blocks p
    { blocks p with flags := f (blocks p).flags }) t.mgr.blocks q = _
  generalize t.mgr.blocks = blocks
  induction t.pages generalizing blocks with
  | nil => simp
  | cons p ps ih =>
      rw [List.foldl_cons, ih]
      by_cases hq : q = p
      · subst hq
        by_cases hps : q ∈ ps <;> simp [hps, hf]
      · simp [hq]

/-- A lock changes neither the place of a block nor its address. -/
theorem RamBlock.place_locked (b : RamBlock) :
    ({ b with flags := b.flags ||| BF_LOCKED } : RamBlock).place = b.place := by
  have hvalid : (b.flags ||| BF_LOCKED) &&& BF_VALID = 0#32 ↔ b.flags &&& BF_VALID = 0#32 := by
    have hmask : BF_LOCKED[0] = false := by decide
    rw [and_valid_eq_zero, and_valid_eq_zero]
    simp [hmask]
  have hswapped : (b.flags ||| BF_LOCKED) &&& BF_SWAPPED = 0#32 ↔ b.flags &&& BF_SWAPPED = 0#32 := by
    have hmask : BF_LOCKED[1] = false := by decide
    rw [and_swapped_eq_zero, and_swapped_eq_zero]
    simp [hmask]
  unfold RamBlock.place
  simp only [hvalid, ne_eq, hswapped]

/-- The table after `load` marked it. -/
def PageTable.marked (t : PageTable) : PageTable :=
  PageTable.modifyFlags { t with attr := t.attr ||| PGT_LOADED } (· ||| BF_LOCKED)

theorem load_eq (es : Nat → Env) : (load es : Op PageTable PgtError Bool) t =
    (swapInAll es t.pages 0 : Op PageTable PgtError Bool) t.marked := rfl

theorem marked_block (t : PageTable) (q : Nat) : t.marked.mgr.blocks q =
    if q ∈ t.pages then { t.mgr.blocks q with flags := (t.mgr.blocks q).flags ||| BF_LOCKED }
    else t.mgr.blocks q := by
  apply blocks_modifyFlags
  intro b
  rw [BitVec.or_assoc, BitVec.or_self]

theorem marked_place (t : PageTable) : t.marked.mgr.place = t.mgr.place := by
  funext q
  show (t.marked.mgr.blocks q).place = (t.mgr.blocks q).place
  rw [marked_block]
  split_ifs
  · exact RamBlock.place_locked _
  · rfl

theorem marked_addr (t : PageTable) (q : Nat) :
    (t.marked.mgr.blocks q).addr = (t.mgr.blocks q).addr := by
  rw [marked_block]
  split_ifs <;> rfl

theorem marked_attr (t : PageTable) : t.marked.attr &&& PGT_LOADED ≠ 0#64 := by
  show (t.attr ||| PGT_LOADED) &&& PGT_LOADED ≠ 0#64
  intro hzero
  have hbit := congrArg (fun b => b.getLsbD 0) hzero
  simp [PGT_LOADED] at hbit

theorem marked_locked (hp : p ∈ t.pages) : (t.marked.mgr.blocks p).flags &&& BF_LOCKED ≠ 0#32 := by
  have hmask : BF_LOCKED[2] = true := by decide
  rw [marked_block, if_pos hp, ne_eq, and_locked_eq_zero]
  simp [hmask]

/-- A table whose blocks hold their pages is pinned by the marking if no other block is locked. -/
theorem Housed.marked (h : Housed t pg)
    (hothers : ∀ m, m ∉ t.pages → (t.mgr.blocks m).flags &&& BF_LOCKED = 0#32) :
    Pinned t.marked pg := by
  have hplaced : ∀ q ∈ t.pages, t.mgr.place q ≠ none := by
    intro q hq hnone
    have hpage := h.holds q hq
    unfold RamManager.content at hpage
    rw [hnone] at hpage
    simp at hpage
  refine ⟨⟨⟨?_, ?_, ?_, ?_, ?_, h.mgr.grows, h.mgr.low⟩, h.slots, ?_, ?_⟩, ?_, ?_⟩
  · rw [marked_place]
    exact h.mgr.slot_iff
  · rw [marked_place]
    exact h.mgr.file
  · rw [marked_place]
    exact h.mgr.unshared
  · intro q hq
    rw [marked_place] at hq
    rw [marked_addr]
    exact h.mgr.home q hq
  · intro q hq
    rw [marked_place]
    rw [marked_block] at hq
    by_cases hmem : q ∈ t.pages
    · exact hplaced q hmem
    · rw [if_neg hmem] at hq
      exact h.mgr.flags q hq
  · intro q hq
    rw [marked_addr, ← h.holds q hq]
    unfold RamManager.content
    rw [marked_place]
    rfl
  · intro q hq q' hq' heq
    rw [marked_addr, marked_addr] at heq
    exact h.apart q hq q' hq' heq
  · exact fun q hq => marked_locked hq
  · intro m hm
    have hmem : m ∉ t.pages := hm
    rw [marked_block, if_neg hmem]
    exact hothers m hm

/-! ## Loading -/

/-- Every block of the table is resident, locked, in the slot at its address, and recorded at
this address in a table, but for the root. -/
structure Loaded (x : X64) (t : PageTable) : Prop where
  attr : t.attr &&& PGT_LOADED ≠ 0#64
  resident : ∀ p ∈ t.pages, t.mgr.Resident p
  locked : ∀ p ∈ t.pages, (t.mgr.blocks p).flags &&& BF_LOCKED ≠ 0#32
  homed : ∀ p ∈ t.pages, Homed t.mgr p
  recorded : ∀ a ∈ t.addrs, t.root = some a ∨
    ∃ b ∈ t.addrs, ∃ l < 3, ∃ j, (x.level l).follow (t.entry (b + 8 * j)) = some a

theorem recorded_of_tree (h : Housed t pg) (hhomes : ∀ p ∈ t.pages, Homed t.mgr p)
    (htree : ∀ root, t.root = some root → Tree x pg root t.addrs) :
    ∀ a ∈ t.addrs, t.root = some a ∨
      ∃ b ∈ t.addrs, ∃ l < 3, ∃ j, (x.level l).follow (t.entry (b + 8 * j)) = some a := by
  intro a ha
  obtain ⟨root, hr⟩ : ∃ root, t.root = some root := by
    unfold PageTable.root
    cases haddrs : t.addrs with
    | nil =>
        rw [haddrs] at ha
        simp at ha
    | cons root rest => exact ⟨root, rfl⟩
  obtain ⟨q, hlen, hq⟩ := (htree root hr).reached a ha
  cases q with
  | nil =>
      left
      rw [hr, ← Option.some.inj hq]
  | cons j q =>
      right
      obtain ⟨b, hb, hnext⟩ := walk_cons_eq_some.1 hq
      have hmem := (htree root hr).nodes q b (Nat.le_of_succ_le hlen) hb
      refine ⟨b, hmem, q.length, hlen, j, ?_⟩
      obtain ⟨p, hp, rfl⟩ := List.mem_map.1 hmem
      rw [h.entry ⟨p, hp, rfl, hhomes p hp⟩]
      exact hnext

/-- A table whose blocks hold a tree is loaded if no other block is locked and the page file
works. -/
theorem load_intact {es : Nat → Env} (h : Intact x t)
    (hothers : ∀ m, m ∉ t.pages → (t.mgr.blocks m).flags &&& BF_LOCKED = 0#32)
    (hclean : ∀ i, (es i).transfers.Clean) :
    ∃ u, (load es : Op PageTable PgtError Bool) t = some (.ok true, u) ∧ u.pages = t.pages ∧
      Loaded x u := by
  obtain ⟨pg, hs⟩ := h
  have hpinned := hs.toHoused.marked hothers
  obtain ⟨u, hcall, hreturns, hhomes⟩ := swapInAll_returns hclean 0 hpinned (fun p hp => hp)
  have hpages : u.pages = t.pages := hreturns.pages
  have hall : ∀ p ∈ u.pages, Homed u.mgr p := by
    rw [hpages]
    exact hhomes
  have haddrs : u.addrs = t.addrs := by
    unfold PageTable.addrs
    rw [hpages]
    apply List.map_congr_left
    intro p hp
    rw [hreturns.addr p hp, marked_addr]
  refine ⟨u, by rw [load_eq, ← hcall]; rfl, hpages, ?_, ?_, hreturns.pinned.locked, hall, ?_⟩
  · rw [hreturns.attr]
    exact marked_attr t
  · intro p hp
    obtain ⟨k, _, hplace⟩ := hreturns.pinned.toHoused.place (hall p hp)
    obtain ⟨hvalid, hswap, _⟩ := RamBlock.place_eq_slot.1 hplace
    exact ⟨hvalid, not_not.2 hswap⟩
  · apply recorded_of_tree hreturns.pinned.toHoused hall
    intro root hr
    unfold PageTable.root at hr
    rw [haddrs] at hr ⊢
    exact hs.tree root hr

/-! ## A table that cannot be loaded -/

/-- Some blocks are locked at the addresses of slots. -/
structure Holds (t : PageTable) (ps : List Nat) (addr : Nat → Nat) (u : PageTable) : Prop where
  attr : u.attr = t.attr
  slots : u.mgr.mBlocks.length ≤ maxSlots
  locked : ∀ p ∈ ps, LockedAt u.mgr p (addr p)

theorem wlp_ramSwapIn_locked {a q : Nat} (hslots : s.mBlocks.length ≤ maxSlots)
    (h : LockedAt s p a) : wlp (ramSwapIn e q) (fun _ u => LockedAt u p a)
      (fun _ u => LockedAt u p a) s := by
  simp only [ramSwapIn, ramSwapInBody, wlp_bind, wlp_blockAt, wlp_ite, wlp_pure, wlp_find]
  refine ⟨fun _ => h, fun _ => ⟨fun _ => ?_, fun hfree => ⟨fun i _ => ?_, fun _ => h⟩⟩⟩
  · rw [wlp_congr (swap_eq hslots _ _)]
    apply wlp_swap_locked h
    intro hq
    obtain rfl : q = p := by simpa using hq
    obtain ⟨i, hi⟩ := h.slot
    have hdiv : i * 4096 / VM_PAGE_SIZE = i := Nat.mul_div_cancel i (by decide)
    rw [h.addr, hi, hdiv]
  · rw [wlp_congr (swap_eq hslots _ _)]
    apply wlp_swap_locked h
    intro hq
    obtain rfl : q = p := by simpa using hq
    exact absurd h.locked hfree

/-- The loop leaves the locks, whatever it returns. -/
theorem wlp_swapInAll_holds {es : Nat → Env} {ps : List Nat} {addr : Nat → Nat} (qs : List Nat)
    (n : Nat) (h : Holds t ps addr u) :
    wlp (swapInAll es qs n : Op PageTable PgtError Bool) (fun _ w => Holds t ps addr w)
      (fun _ w => Holds t ps addr w) u := by
  induction qs generalizing u n with
  | nil => exact h
  | cons q qs ih =>
      have hstep : wlp (ramSwapIn (es n) q)
          (fun _ m => Holds t ps addr { u with mgr := m })
          (fun _ m => Holds t ps addr { u with mgr := m }) u.mgr := by
        have hlength : wlp (ramSwapIn (es n) q)
            (fun _ m => m.mBlocks.length = u.mgr.mBlocks.length)
            (fun _ m => m.mBlocks.length = u.mgr.mBlocks.length) u.mgr := by
          have hexec : wlp (exec .x64 (es n) (.swapIn q)) _ _ u.mgr :=
            wlp_exec_length h.slots (.swapIn q)
          rw [exec, wlp_bind] at hexec
          exact hexec
        apply wlp_of_result
        intro r m hr
        refine ⟨h.attr, ?_, ?_⟩
        · show m.mBlocks.length ≤ maxSlots
          rw [wlp_any hlength hr]
          exact h.slots
        · intro p hp
          have hkeeps := wlp_ramSwapIn_locked (e := es n) (q := q) h.slots (h.locked p hp)
          exact wlp_any (P := fun m => LockedAt m p (addr p)) hkeeps hr
      unfold swapInAll
      rw [wlp_bind, wlp_attempt]
      unfold onRam
      rw [wlp_zoom]
      apply wlp_mono hstep
      · exact fun _ m hm => ih (n + 1) hm
      · exact fun _ m hm => hm

/-- Whatever `load` returns, the table is marked and its blocks are locked: when it fails, nothing
is undone. -/
theorem load_locks {es : Nat → Env} {r : Except PgtError Bool}
    (hslots : t.mgr.mBlocks.length ≤ maxSlots)
    (haddrs : ∀ p ∈ t.pages, ∃ i, (t.mgr.blocks p).addr = i * 4096) (h : load es t = some (r, u)) :
    u.attr &&& PGT_LOADED ≠ 0#64 ∧ ∀ p ∈ t.pages, (u.mgr.blocks p).flags &&& BF_LOCKED ≠ 0#32 := by
  have hstart : Holds t.marked t.pages (fun p => (t.mgr.blocks p).addr) t.marked := by
    refine ⟨rfl, hslots, fun p hp => ⟨?_, marked_addr t p, haddrs p hp⟩⟩
    exact marked_locked hp
  rw [load_eq] at h
  have hholds := wlp_any (wlp_swapInAll_holds t.pages 0 hstart) h
  refine ⟨?_, fun p hp => (hholds.locked p hp).locked⟩
  rw [hholds.attr]
  exact marked_attr t

/-! ## Runs -/

/-- A step while a table is built: a `vmmap`, or the call of another client.  The page file
works. -/
def Regular (t : PageTable) (v : PgtEvent) : Prop :=
  match v.call with
  | .vmmap _ _ _ => ∀ l, (v.env.mgr l).transfers.Clean
  | .manager c e => Foreign t.pages t.mgr e c
  | _ => False

/-- A `vmmap` meets only tables that are in their slots, and takes no slot at the address of
another table. -/
def Builds (x : X64) (t : PageTable) (v : PgtEvent) : Prop :=
  Regular t v ∧ AllocsMeet (Unclaimed x) x t v ∧
    ∀ vma pma attr, v.call = .vmmap vma pma attr → Resides x t vma

theorem pgtStep_intact {v : PgtEvent} (h : Intact x t) (hbuilds : Builds x t v)
    (hstep : pgtStep x tgt t v u) : Intact x u := by
  obtain ⟨call, pe, reply⟩ := v
  obtain ⟨hregular, hmeets, hres⟩ := hbuilds
  cases call with
  | vmmap vma pma attr =>
      obtain ⟨r, hcall, _⟩ := bind_pure_eq hstep
      have hsame := hmeets.vmmap_eq.trans hcall
      exact wlp_any (wlp_vmmapWith_intact hregular h (hres vma pma attr rfl)) hsame
  | manager c e =>
      obtain ⟨pg, hs⟩ := h
      have hwlp : wlp (pgtExec x tgt pe (.manager c e))
          (fun _ u => u.pages = t.pages ∧ Saves t.pages t.mgr u.mgr)
          (fun _ u => u.pages = t.pages ∧ Saves t.pages t.mgr u.mgr) t := by
        simp only [pgtExec, wlp_bind, wlp_attempt, onRam, wlp_zoom, wlp_pure]
        exact wlp_mono (wlp_exec_saves tgt hs.mgr hs.slots hregular) (fun _ _ hu => ⟨trivial, hu⟩)
          fun _ _ hu => ⟨trivial, hu⟩
      obtain ⟨hpages, hsaves⟩ := wlp_any hwlp hstep
      exact ⟨pg, hs.saves hpages hsaves⟩
  | vmunmap vma => exact hregular.elim
  | vmattr vma f => exact hregular.elim
  | getPma vma => exact hregular.elim

/-- A new table on a new manager holds the empty tree. -/
theorem PageTable.New.intact (hnew : t.New) (hstarted : t.mgr.Started)
    (hslots : t.mgr.mBlocks.length ≤ maxSlots) : Intact x t := by
  have hroot := root_of_empty hnew.pages
  refine ⟨fun _ _ => 0, ⟨⟨hstarted.invariant, hslots, ?_, ?_⟩, ?_⟩⟩
  · rw [hnew.pages]
    simp
  · rw [hnew.pages]
    simp
  · rw [hroot]
    simp

/-- In a RAM below 4 GiB, if every `vmmap` met only tables in their slots and took no slot at the
address of another table, `load` brings every block back to its place. -/
theorem run_load_returns (x : X64) (tgt : Target) (es : Nat → Env) {t u : PageTable}
    {vs : List PgtEvent} (hnew : t.New) (hstarted : t.mgr.Started)
    (hslots : t.mgr.mBlocks.length ≤ maxSlots) (hrun : Run (When (Builds x) (pgtStep x tgt)) t vs u)
    (hothers : ∀ m, m ∉ u.pages → (u.mgr.blocks m).flags &&& BF_LOCKED = 0#32)
    (hclean : ∀ i, (es i).transfers.Clean) :
    ∃ w, (load es : Op PageTable PgtError Bool) u = some (.ok true, w) ∧ w.pages = u.pages ∧
      Loaded x w := by
  have hintact : Intact x u := by
    apply hrun.invariant
    · exact hnew.intact hstarted hslots
    · exact fun t v u h hstep => pgtStep_intact h hstep.1 hstep.2
  exact load_intact hintact hothers hclean

/-! ## Small runs -/

/-- The page file works, and a slot with a block is chosen only if it is slot `i` or the first
one. -/
def pick (i : Nat) : Env := ⟨fun k => k == i, .ok, .ok⟩

/-- A test of the steps of small runs. -/
def smallRegular (t : PageTable) (v : PgtEvent) : Bool :=
  match v.call with
  | .vmmap _ _ _ => decide (∀ l, (v.env.mgr l).transfers.Clean)
  | .manager (.alloc q _) e => decide (q ∉ t.pages ∧ ¬ t.mgr.Valid q ∧ e.transfers.Clean)
  | .manager (.free q) e => decide (q ∉ t.pages ∧ e.transfers.Clean)
  | _ => false

theorem regular_of_small {v : PgtEvent} (h : smallRegular t v = true) : Regular t v := by
  obtain ⟨call, pe, reply⟩ := v
  cases call with
  | vmmap vma pma attr =>
      have hclean : ∀ l, (pe.mgr l).transfers.Clean := of_decide_eq_true h
      exact hclean
  | vmunmap vma => simp [smallRegular] at h
  | vmattr vma f => simp [smallRegular] at h
  | getPma vma => simp [smallRegular] at h
  | manager c e =>
      cases c with
      | alloc q flags =>
          have htest : decide (q ∉ t.pages ∧ ¬ t.mgr.Valid q ∧ e.transfers.Clean) = true := h
          obtain ⟨hout, hnew, hclean⟩ := of_decide_eq_true htest
          exact ⟨hout, hnew, hclean, fun _ _ _ _ hc => by simp at hc⟩
      | free q =>
          have htest : decide (q ∉ t.pages ∧ e.transfers.Clean) = true := h
          obtain ⟨hout, hclean⟩ := of_decide_eq_true htest
          exact ⟨hout, trivial, hclean, fun _ _ _ _ hc => by simp at hc⟩
      | _ => simp [smallRegular] at h

/-- The first `vmmap` of a table is made when it has no tables that could be away. -/
def smallBuilds (t : PageTable) (v : PgtEvent) : Bool :=
  smallRegular t v && decide (AllocsMeet (Unclaimed amd64Tables) amd64Tables t v) &&
    match v.call with
    | .vmmap _ _ _ => t.pages.isEmpty
    | _ => true

theorem builds_of_small {v : PgtEvent} (h : smallBuilds t v = true) : Builds amd64Tables t v := by
  unfold smallBuilds at h
  simp only [Bool.and_eq_true, decide_eq_true_eq] at h
  obtain ⟨⟨hregular, hmeets⟩, hcall⟩ := h
  refine ⟨regular_of_small hregular, hmeets, ?_⟩
  intro vma pma attr hc q a _ hreach
  rw [hc] at hcall
  obtain ⟨root, hr, _⟩ := exists_root hreach
  rw [root_of_empty (List.isEmpty_iff.1 hcall)] at hr
  simp at hr

/-- What holds of the first blocks by evaluation and of the others whatever their number is. -/
theorem unlocked_of_tests {o : Option PageTable}
    (hlow : ∀ m < 40, o.all fun u => m ∈ u.pages ∨ (u.mgr.blocks m).flags &&& BF_LOCKED = 0#32)
    (hhigh : ∀ n, o.all fun u => (u.mgr.blocks (n + 40)).flags &&& BF_LOCKED = 0#32)
    {u : PageTable} (hu : o = some u) (m : Nat) (hm : m ∉ u.pages) :
    (u.mgr.blocks m).flags &&& BF_LOCKED = 0#32 := by
  rw [hu] at hlow hhigh
  by_cases hlt : m < 40
  · have htest : m ∈ u.pages ∨ (u.mgr.blocks m).flags &&& BF_LOCKED = 0#32 :=
      of_decide_eq_true (hlow m hlt)
    exact htest.resolve_left hm
  · have hsplit : m = m - 40 + 40 := (Nat.sub_add_cancel (Nat.not_lt.1 hlt)).symm
    rw [hsplit]
    exact of_decide_eq_true (hhigh (m - 40))

/-- A table of four blocks in four slots, whose root gives its slot to another block. -/
def evictedRoot : Option PageTable :=
  runAll (replay smallBuilds amd64Tables .x64) (newTable 4)
    [done 10 (.vmmap 0x1000 0x9000 R), done 0 (.manager (.alloc 1 0) (pick 0))]

set_option maxRecDepth 20000 in
/-- The root comes back. -/
theorem run_load_returns_fourSlots : ∃ u w, Run (When (Builds amd64Tables)
      (pgtStep amd64Tables .x64)) (newTable 4)
      [done 0 (.manager (.alloc 1 0) (pick 0)), done 10 (.vmmap 0x1000 0x9000 R)] u ∧
    u.pages = [10, 11, 12, 13] ∧ u.mgr.IsSwapped 10 ∧
    (load fun _ => calm : Op PageTable PgtError Bool) u = some (.ok true, w) ∧
    w.pages = u.pages ∧ Loaded amd64Tables w := by
  have hsome : evictedRoot.isSome := by decide +kernel
  have hstate : evictedRoot.all fun u => u.pages = [10, 11, 12, 13] ∧ u.mgr.IsSwapped 10 := by
    decide +kernel
  obtain ⟨u, hu⟩ := Option.isSome_iff_exists.1 hsome
  have hothers := unlocked_of_tests (o := evictedRoot) (by decide +kernel)
    (fun n => by with_unfolding_all rfl) hu
  rw [hu] at hstate
  obtain ⟨hpages, hswap⟩ := of_decide_eq_true hstate
  have hrun := run_of_replay_eq (Builds amd64Tables) (fun t v h => builds_of_small h) hu
  obtain ⟨w, hload⟩ := run_load_returns amd64Tables .x64 (fun _ => calm) (newTable_new 4)
    (newTable_started 4) (by decide) hrun hothers fun _ => by decide
  exact ⟨u, w, hrun, hpages, hswap, hload⟩

/-- A table whose block 13 gives slot 3 up to another client, which frees it; a new table, block
23, gets the slot. -/
def sharedSlot : Option PageTable :=
  runAll (replay smallRegular amd64Tables .x64) (newTable 5)
    [done 10 (.vmmap 0x1000 0x9000 R), done 0 (.manager (.alloc 1 0) calm),
      done 0 (.manager (.alloc 2 0) (pick 3)), done 0 (.manager (.free 2) calm),
      done 20 (.vmmap 0x200000 0x8000 R)]

set_option maxRecDepth 20000 in
/-- Block 13 cannot return to its slot: `load` fails, and the table stays marked and locked. -/
theorem load_leaves_locked : ∃ u w, Run (When Regular (pgtStep amd64Tables .x64)) (newTable 5)
      [done 20 (.vmmap 0x200000 0x8000 R), done 0 (.manager (.free 2) calm),
        done 0 (.manager (.alloc 2 0) (pick 3)), done 0 (.manager (.alloc 1 0) calm),
        done 10 (.vmmap 0x1000 0x9000 R)] u ∧
    u.pages.length ≤ u.mgr.mBlocks.length ∧
    (∀ m, m ∉ u.pages → (u.mgr.blocks m).flags &&& BF_LOCKED = 0#32) ∧
    (load fun _ => calm : Op PageTable PgtError Bool) u = some (.ok false, w) ∧
    w.attr &&& PGT_LOADED ≠ 0#64 ∧ ∀ p ∈ u.pages, (w.mgr.blocks p).flags &&& BF_LOCKED ≠ 0#32 := by
  have hsome : sharedSlot.isSome := by decide +kernel
  have hstate : sharedSlot.all fun u => u.pages.length ≤ u.mgr.mBlocks.length ∧
      u.mgr.mBlocks.length = 5 ∧
        ∀ p ∈ u.pages, (u.mgr.blocks p).addr = (u.mgr.blocks p).addr / 4096 * 4096 := by
    decide +kernel
  have hfails : sharedSlot.all fun u =>
      ((load fun _ => calm : Op PageTable PgtError Bool) u).any fun r => r.1.toOption = some false := by
    decide +kernel
  obtain ⟨u, hu⟩ := Option.isSome_iff_exists.1 hsome
  have hothers := unlocked_of_tests (o := sharedSlot) (by decide +kernel)
    (fun n => by with_unfolding_all rfl) hu
  have hrun := run_of_replay_eq Regular (fun t v h => regular_of_small h) hu
  rw [hu] at hstate hfails
  obtain ⟨hlength, hslots, haddrs⟩ := of_decide_eq_true hstate
  obtain ⟨⟨r, w⟩, hload, hr⟩ := (Option.any_eq_true _ _).1 hfails
  obtain ⟨hattr, hlocked⟩ := load_locks (by rw [hslots]; decide) (fun p hp => ⟨_, haddrs p hp⟩) hload
  have hfalse : r = .ok false := by
    cases r with
    | error er => simp [Except.toOption] at hr
    | ok b => simpa [Except.toOption] using hr
  rw [hfalse] at hload
  exact ⟨u, w, hrun, hlength, hothers, hload, hattr, hlocked⟩

end Vin64.Vm
