import Vin64.Lib.Run
import Vin64.Vm.Clients
import Vin64.Vm.Proofs.Rules
import Vin64.Vram.Proofs.Moves

/-!
# Slots under several clients

A block that is not swapped out is the one in its slot, whatever the order of the steps, as
long as no swap-out goes on after another client took the block's slot.
-/

namespace Vin64.Vm

open Vin64.Lib Vin64.Lib.Op Vin64.Utils Vin64.Vram Vin64.Vram.RamManager

variable {s t u : RamManager} {e : Env} {p q i : Nat}

/-! ## One block -/

/-- The block is the one in the slot at its address. -/
def Homed (s : RamManager) (p : Nat) : Prop :=
  ∃ i, (s.blocks p).addr = i * 4096 ∧ s.mBlocks[i]? = some (some p)

/-- The block is swapped out, or it is the one in its slot. -/
def Placed (s : RamManager) (p : Nat) : Prop := s.IsSwapped p ∨ Homed s p

/-- A block that is not VALID has no flag but SWAPPED. -/
def Bare (s : RamManager) (p : Nat) : Prop :=
  ¬ s.Valid p → (s.blocks p).flags &&& ~~~BF_SWAPPED = 0#32

/-- A step leaves the block placed, bare, and no more VALID than it was. -/
structure Keeps (s t : RamManager) (p : Nat) : Prop where
  valid : t.Valid p → s.Valid p
  placed : Placed s p → Placed t p
  bare : Bare s p → Bare t p

theorem Keeps.refl (s : RamManager) (p : Nat) : Keeps s s p := ⟨id, id, id⟩

theorem Keeps.trans (h : Keeps s u p) (h' : Keeps u t p) : Keeps s t p :=
  ⟨h.valid ∘ h'.valid, h'.placed ∘ h.placed, h'.bare ∘ h.bare⟩

theorem Keeps.of_block (hb : t.blocks p = s.blocks p)
    (hslot : ∀ k : Nat, s.mBlocks[k]? = some (some p) → t.mBlocks[k]? = some (some p)) :
    Keeps s t p := by
  constructor
  · unfold Valid
    rw [hb]
    exact id
  · unfold Placed Homed IsSwapped
    rw [hb]
    apply Or.imp_right
    intro hhomed
    obtain ⟨i, haddr, hi⟩ := hhomed
    exact ⟨i, haddr, hslot i hi⟩
  · unfold Bare Valid
    rw [hb]
    exact id

theorem Keeps.of_same (hb : t.blocks = s.blocks) (hslots : t.mBlocks = s.mBlocks) :
    Keeps s t p := by
  apply Keeps.of_block (congrFun hb p)
  intro k hk
  rw [hslots]
  exact hk

theorem swapped_swappedOut {b : RamBlock} {j : Nat} :
    (b.swappedOut j).flags &&& BF_SWAPPED ≠ 0#32 := by
  have hmask : BF_SWAPPED[1] = true := by decide
  rw [ne_eq, and_swapped_eq_zero]
  simp [RamBlock.swappedOut, hmask]

/-- Setting SWAPPED or clearing it leaves the other flags. -/
theorem rest_swappedOut (f : BitVec 32) :
    (f ||| BF_SWAPPED) &&& ~~~BF_SWAPPED = f &&& ~~~BF_SWAPPED := by
  rw [BitVec.and_or_distrib_right, BitVec.and_not_self]
  exact BitVec.or_zero

theorem rest_swappedIn (f : BitVec 32) :
    f &&& ~~~BF_SWAPPED &&& ~~~BF_SWAPPED = f &&& ~~~BF_SWAPPED := by
  rw [BitVec.and_assoc, BitVec.and_self]

/-- The block in a slot goes to the page file. -/
theorem Keeps.leave {m j : Nat} (hm : s.mBlocks[i]? = some (some m))
    (hb : t.blocks = Function.update s.blocks m ((s.blocks m).swappedOut j))
    (hslots : t.mBlocks = s.mBlocks.set i none) (p : Nat) : Keeps s t p := by
  by_cases hp : p = m
  · have hblock : t.blocks p = (s.blocks p).swappedOut j := by rw [hb, hp, Function.update_self]
    constructor
    · intro hv h0
      apply hv
      rw [hblock, RamBlock.valid_swappedOut]
      exact h0
    · intro _
      left
      unfold IsSwapped
      rw [hblock]
      exact swapped_swappedOut
    · intro hbare hv
      have hv' : ¬ s.Valid p := by
        intro h
        apply hv
        intro h0
        rw [hblock, RamBlock.valid_swappedOut] at h0
        exact h h0
      have hflags : (t.blocks p).flags = (s.blocks p).flags ||| BF_SWAPPED := by rw [hblock]; rfl
      rw [hflags, rest_swappedOut]
      exact hbare hv'
  · apply Keeps.of_block
    · rw [hb, Function.update_of_ne hp]
    · intro k hk
      have hki : i ≠ k := by
        rintro rfl
        rw [hm] at hk
        exact hp (by simpa using hk.symm)
      rw [hslots, List.getElem?_set_ne hki]
      exact hk

/-- A block comes to a free slot. -/
theorem Keeps.enter {c : Nat} {b : RamBlock} (hfree : s.mBlocks[i]? = some none)
    (hb : t.blocks = Function.update s.blocks c b)
    (hslots : t.mBlocks = s.mBlocks.set i (some c)) (hp : p ≠ c) : Keeps s t p := by
  apply Keeps.of_block
  · rw [hb, Function.update_of_ne hp]
  · intro k hk
    have hki : i ≠ k := by
      rintro rfl
      rw [hfree] at hk
      simp at hk
    rw [hslots, List.getElem?_set_ne hki]
    exact hk

theorem homed_enter {c : Nat} {b : RamBlock} (hfree : s.mBlocks[i]? = some none)
    (hb : t.blocks = Function.update s.blocks c b) (haddr : b.addr = i * 4096)
    (hslots : t.mBlocks = s.mBlocks.set i (some c)) : Homed t c := by
  have hlt := (List.getElem?_eq_some_iff.1 hfree).1
  refine ⟨i, by rw [hb, Function.update_self, haddr], ?_⟩
  rw [hslots, List.getElem?_set_self hlt]

theorem Keeps.fetch {c : Nat} (hfree : s.mBlocks[i]? = some none)
    (hb : t.blocks = Function.update s.blocks c ((s.blocks c).swappedIn i))
    (hslots : t.mBlocks = s.mBlocks.set i (some c)) (p : Nat) : Keeps s t p := by
  by_cases hp : p = c
  · have hblock : t.blocks p = (s.blocks p).swappedIn i := by rw [hb, hp, Function.update_self]
    constructor
    · intro hv h0
      apply hv
      rw [hblock, RamBlock.valid_swappedIn]
      exact h0
    · intro _
      right
      rw [hp]
      exact homed_enter hfree hb rfl hslots
    · intro hbare hv
      have hv' : ¬ s.Valid p := by
        intro h
        apply hv
        intro h0
        rw [hblock, RamBlock.valid_swappedIn] at h0
        exact h h0
      have hflags : (t.blocks p).flags = (s.blocks p).flags &&& ~~~BF_SWAPPED := by
        rw [hblock]
        rfl
      rw [hflags, rest_swappedIn]
      exact hbare hv'
  · exact Keeps.enter hfree hb hslots hp

/-! ## The exchange -/

/-- What an exchange at slot `i` does to a block: after one that succeeds the slot holds the
block that was brought in. -/
theorem wlp_swap_keeps (h : s.mBlocks.length ≤ maxSlots) (inPF : Option Nat) (p : Nat) :
    wlp (swapRamAndPageFile e i inPF)
      (fun _ t => Keeps s t p ∧ t.mBlocks.length = s.mBlocks.length ∧ t.mBlocks[i]? = some inPF)
      (fun _ t => Keeps s t p ∧ t.mBlocks.length = s.mBlocks.length) s := by
  have hset : ∀ m, s.mBlocks[i]? = some (some m) → (s.mBlocks.set i none)[i]? = some none := by
    intro m hm
    exact List.getElem?_set_self (List.getElem?_eq_some_iff.1 hm).1
  rw [wlp_congr (swap_eq h i inPF)]
  cases inPF with
  | none =>
      apply wlp_swap_none
      · exact fun hidle => ⟨Keeps.refl s p, rfl, hidle⟩
      · intro m hm _
        exact ⟨Keeps.leave hm rfl rfl p, by simp [vacated], hset m hm⟩
      · exact fun _ _ _ => ⟨Keeps.refl s p, rfl⟩
      · exact fun _ => ⟨Keeps.of_same rfl rfl, rfl⟩
      · exact fun _ _ _ _ _ => ⟨Keeps.of_same rfl rfl, rfl⟩
  | some c =>
      apply wlp_swap_some
      · intro hidle
        have hlt := (List.getElem?_eq_some_iff.1 hidle).1
        exact ⟨Keeps.fetch hidle rfl rfl p, by simp [brought, setPage],
          List.getElem?_set_self hlt⟩
      · intro m hm _
        have hlt := (List.getElem?_eq_some_iff.1 hm).1
        -- block `m` leaves the slot, and then block `c` comes to it
        have hleave := Keeps.leave (t := { (s.setPage .temp (s.incoming c)).stowed i
          (s.blocks c).swapid m (s.incoming c) with mBlocks := s.mBlocks.set i none }) hm rfl rfl p
        refine ⟨hleave.trans (Keeps.fetch (hset m hm) rfl ?_ p), ?_, List.getElem?_set_self hlt⟩
        · exact (List.set_set none).symm
        · exact List.length_set
      · exact fun _ _ _ => ⟨Keeps.refl s p, rfl⟩
      · exact fun _ _ _ _ => ⟨Keeps.refl s p, rfl⟩
      · intro _ _ _ _ _ b _
        cases b <;> exact ⟨Keeps.of_same rfl rfl, rfl⟩
      · exact fun _ _ _ => ⟨Keeps.of_same rfl rfl, rfl⟩
      · exact fun _ _ _ _ _ _ _ => ⟨Keeps.of_same rfl rfl, rfl⟩

/-! ## The steps of a client -/

/-- A step keeps a block, and the number of slots. -/
def KeepsAt (p : Nat) (s t : RamManager) : Prop :=
  Keeps s t p ∧ t.mBlocks.length = s.mBlocks.length

theorem KeepsAt.refl (p : Nat) (s : RamManager) : KeepsAt p s s := ⟨Keeps.refl s p, rfl⟩

theorem KeepsAt.of_same (hb : t.blocks = s.blocks) (hslots : t.mBlocks = s.mBlocks) :
    KeepsAt p s t := ⟨Keeps.of_same hb hslots, by rw [hslots]⟩

theorem KeepsAt.trans (h : KeepsAt p s u) (h' : KeepsAt p u t) : KeepsAt p s t :=
  ⟨h.1.trans h'.1, h'.2.trans h.2⟩

theorem KeepsAt.setPage (b : Buffer) (x : Page) : KeepsAt p s (s.setPage b x) := by
  cases b <;> exact .of_same rfl rfl

theorem KeepsAt.stored (a : Access) (j : Nat) (b : Buffer) : KeepsAt p s (s.stored a j b) := by
  cases b <;> exact .of_same rfl rfl

theorem wlp_exchange_keeps (h : s.mBlocks.length ≤ maxSlots) (inPF : Option Nat) (p : Nat) :
    wlp (swapRamAndPageFile e i inPF) (fun _ t => KeepsAt p s t) (fun _ t => KeepsAt p s t) s :=
  wlp_mono (wlp_swap_keeps h inPF p) (fun _ _ ht => ⟨ht.1, ht.2.1⟩) fun _ _ ht => ht

theorem wlp_swapInBody_keeps (h : s.mBlocks.length ≤ maxSlots) (q p : Nat) :
    wlp (ramSwapInBody e q) (fun _ t => KeepsAt p s t) (fun _ t => KeepsAt p s t) s := by
  simp only [ramSwapInBody, wlp_bind, wlp_blockAt, wlp_ite, wlp_pure, wlp_find]
  refine ⟨fun _ => wlp_exchange_keeps h _ p, fun _ => ⟨fun i _ => wlp_exchange_keeps h _ p, ?_⟩⟩
  exact fun _ => KeepsAt.refl p s

theorem wlp_load_keeps {a : Access} {j : Nat} {b : Buffer} (p : Nat) :
    wlp (loadFromStorage a j b) (fun _ t => KeepsAt p s t) (fun _ t => KeepsAt p s t) s := by
  apply wlp_loadFromStorage
  · exact fun _ _ => KeepsAt.setPage b _
  · exact fun _ => KeepsAt.refl p s
  · exact fun _ _ => KeepsAt.setPage b _

theorem wlp_store_keeps {a : Access} {j : Nat} {b : Buffer} (hu : KeepsAt p s u) :
    wlp (storeToStorage a j b) (fun _ t => KeepsAt p s t) (fun _ t => KeepsAt p s t) u := by
  apply wlp_storeToStorage
  · exact fun _ _ => hu.trans (KeepsAt.stored .ok j b)
  · exact fun _ => hu
  · exact fun _ _ => hu.trans (KeepsAt.stored a j b)

theorem wlp_access_keeps (h : s.mBlocks.length ≤ maxSlots) (q p : Nat) (o : Option Buffer) :
    wlp (ramDirectAccess e q o) (fun _ t => KeepsAt p s t) (fun _ t => KeepsAt p s t) s := by
  have hrefl := KeepsAt.refl p s
  simp only [ramDirectAccess, wlp_bind, wlp_blockAt, wlp_ite, wlp_fail, wlp_pure]
  refine ⟨fun _ => hrefl, fun _ => ⟨fun _ => ?_, fun _ => hrefl⟩⟩
  cases o with
  | some b =>
      rw [wlp_bind]
      exact wlp_mono (wlp_load_keeps p) (fun _ _ ht => ht) fun _ _ ht => ht
  | none =>
      simp only [ramSwapIn, wlp_bind, wlp_blockAt, wlp_ite, wlp_pure]
      refine ⟨fun _ => hrefl, fun _ => ?_⟩
      exact wlp_mono (wlp_swapInBody_keeps h q p) (fun _ _ ht => ht) fun _ _ ht => ht

theorem wlp_write_keeps (t : Target) (h : s.mBlocks.length ≤ maxSlots) (q p : Nat) {off cb : Nat}
    {bytes : Nat → UInt8} : wlp (ramDirectWrite t e q off bytes cb) (fun _ u => KeepsAt p s u)
      (fun _ u => KeepsAt p s u) s := by
  simp only [ramDirectWrite, copyInto, wlp_bind, wlp_ite, wlp_fail, wlp_pure]
  refine ⟨fun _ => KeepsAt.refl p s, fun _ => ?_⟩
  apply wlp_mono (wlp_access_keeps h q p _)
  · intro b u hu
    simp only [wlp_readPage, wlp_writePage, wlp_fault, wlp_blockAt, implies_true, and_true]
    intro _ _ _
    have hset := fun y => hu.trans (KeepsAt.setPage (p := p) (s := u) b y)
    exact ⟨fun _ => hset _, fun _ => wlp_store_keeps (hset _)⟩
  · exact fun _ _ hu => hu

theorem wlp_read_keeps (t : Target) (h : s.mBlocks.length ≤ maxSlots) (q p : Nat) {off cb : Nat} :
    wlp (ramDirectRead t e q off cb) (fun _ u => KeepsAt p s u) (fun _ u => KeepsAt p s u) s := by
  simp only [ramDirectRead, copyFrom, wlp_bind, wlp_ite, wlp_fail]
  refine ⟨fun _ => KeepsAt.refl p s, fun _ => ?_⟩
  apply wlp_mono (wlp_access_keeps h q p _)
  · intro b u hu
    rw [wlp_readPage]
    intro _
    by_cases hle : off + cb ≤ 4096
    · simpa [hle] using hu
    · simp [hle]
  · exact fun _ _ hu => hu

/-- A swap-out of the block in a slot keeps every block. -/
theorem wlp_swapOutBody_keeps (q p : Nat) (hq : Homed s q) :
    wlp (ramSwapOutBody e q) (fun _ t => KeepsAt p s t) (fun _ t => KeepsAt p s t) s := by
  obtain ⟨i, haddr, hslot⟩ := hq
  have hdiv : (s.blocks q).addr / VM_PAGE_SIZE = i := by
    rw [haddr]
    exact Nat.mul_div_cancel i (by decide)
  have hpre : KeepsAt p s s.prealloc := .of_same rfl rfl
  simp only [ramSwapOutBody, wlp_bind, wlp_blockAt, wlp_pageFilePreAlloc]
  apply wlp_storeToStorage
  · intro _ _
    simp only [wlp_mark, wlp_onBlockInvalid, wlp_modifyBlock, wlp_setSlot, hdiv]
    intro _
    exact ⟨Keeps.leave hslot rfl rfl p, List.length_set⟩
  · exact fun _ => hpre
  · exact fun _ _ => hpre.trans (KeepsAt.stored _ _ _)

/-- Freeing a block that is placed keeps the other blocks. -/
theorem wlp_freeBody_keeps (q p : Nat) (hq : Placed s q) :
    wlp (ramFreeBody q)
      (fun _ t => (p ≠ q → KeepsAt p s t) ∧ (t.blocks q).flags = 0#32 ∧
        t.mBlocks.length = s.mBlocks.length)
      (fun _ t => KeepsAt p s t) s := by
  simp only [ramFreeBody, pageFileMarkUsed, markSwapBlockUsed, wlp_bind, wlp_blockAt, wlp_ite,
    wlp_get, wlp_fail, wlp_modify, wlp_modifyBlock, wlp_onBlockInvalid, wlp_setSlot]
  constructor
  · intro _
    refine ⟨fun _ => KeepsAt.refl p s, fun _ => ⟨fun hp => ⟨?_, rfl⟩, by simp⟩⟩
    exact Keeps.of_block (Function.update_of_ne hp _ _) fun _ hk => hk
  · intro hres
    obtain ⟨i, haddr, hslot⟩ := hq.resolve_left fun h => hres h
    have hdiv : (s.blocks q).addr / VM_PAGE_SIZE = i := by
      rw [haddr]
      exact Nat.mul_div_cancel i (by decide)
    rw [hdiv]
    refine fun _ => ⟨fun hp => ⟨?_, List.length_set⟩, ?_, List.length_set⟩
    · apply Keeps.of_block (Function.update_of_ne hp _ _)
      intro k hk
      have hik : i ≠ k := by
        rintro rfl
        rw [hslot] at hk
        exact hp (by simpa using hk.symm)
      show (s.mBlocks.set i none)[k]? = _
      rw [List.getElem?_set_ne hik]
      exact hk
    · rw [Function.update_self]

theorem valid_of_update {b : RamBlock} (hb : t.blocks = Function.update s.blocks q b)
    (hv : b.flags &&& BF_VALID ≠ 0#32) : t.Valid q := by
  unfold Valid
  rwa [hb, Function.update_self]

/-- An allocation places its block, and keeps the other ones. -/
theorem wlp_alloc_keeps (h : s.mBlocks.length ≤ maxSlots) (q p : Nat) (flags : BitVec 32) :
    wlp (ramAllocAddress e q flags)
      (fun _ t => (p ≠ q → KeepsAt p s t) ∧ Homed t q ∧ t.Valid q ∧
        t.mBlocks.length = s.mBlocks.length)
      (fun _ t => KeepsAt p s t) s := by
  simp only [ramAllocAddress, wlp_bind, wlp_find]
  refine ⟨fun i hi => ?_, fun _ => KeepsAt.refl p s⟩
  apply wlp_mono (wlp_swap_keeps h none p)
  · intro _ u hu
    obtain ⟨hkeeps, hlen, hfree⟩ := hu
    have hlt := (List.getElem?_eq_some_iff.1 hfree).1
    have haddr : ramAddress i = i * 4096 := by
      apply ramAddress_of_lt
      exact Nat.lt_of_lt_of_le (hlen ▸ hlt) h
    simp only [wlp_modifyBlock, wlp_setSlot]
    refine fun _ => ⟨fun hp => ?_, ?_, ?_, ?_⟩
    · exact ⟨hkeeps.trans (Keeps.enter hfree rfl rfl hp), List.length_set.trans hlen⟩
    · exact homed_enter hfree rfl haddr rfl
    · exact valid_of_update rfl (RamBlock.valid_allocated (b := u.blocks q) (i := i))
    · exact List.length_set.trans hlen
  · exact fun _ _ ht => ht

/-! ## The system -/

/-- The block that a step allocates or frees. -/
def Act.reassigns (pending : Pending) : Act → Option Nat
  | .alloc q _ => some q
  | .resume => match pending with
    | .free q => some q
    | _ => none
  | _ => none

/-- A free is pending after a test of a block with flags only. -/
theorem test_eq_free {a : Act} (h : test s a = .free q) :
    a = .testFree q ∧ (s.blocks q).flags ≠ 0#32 := by
  cases a <;> simp only [test] at h
  case testSwapOut => split_ifs at h
  case testSwapIn => split_ifs at h
  case testEnsure => split_ifs at h
  case testFree pref =>
    split_ifs at h with hzero
    obtain rfl : pref = q := by simpa using h
    exact ⟨rfl, hzero⟩
  all_goals simp at h

/-- What a step of a client makes of a block, and what may be pending after it. -/
theorem wlp_perform (t : Target) {pending : Pending} {a : Act} (h : s.mBlocks.length ≤ maxSlots)
    (hout : a = .resume → ∀ q, pending = .swapOut q → Homed s q)
    (hfree : a = .resume → ∀ q, pending = .free q → Placed s q) (p : Nat) :
    wlp (perform t e pending a)
      (fun r u => (a.reassigns pending ≠ some p → KeepsAt p s u) ∧
        ∀ q, r = .free q → a = .testFree q ∧ (s.blocks q).flags ≠ 0#32)
      (fun _ u => KeepsAt p s u) s := by
  have hrefl := KeepsAt.refl p s
  have hkept : ∀ {x : Ram Unit},
      wlp x (fun _ u => KeepsAt p s u) (fun _ u => KeepsAt p s u) s →
      wlp (x >>= fun _ => pure Pending.idle)
        (fun r u => (a.reassigns pending ≠ some p → KeepsAt p s u) ∧
          ∀ q, r = .free q → a = .testFree q ∧ (s.blocks q).flags ≠ 0#32)
        (fun _ u => KeepsAt p s u) s := by
    intro x hx
    rw [wlp_bind]
    exact wlp_mono hx (fun _ _ hu => ⟨fun _ => hu, by simp⟩) fun _ _ hu => hu
  have htest : wlp (do let s ← get; return test s a : Ram Pending)
      (fun r u => (a.reassigns pending ≠ some p → KeepsAt p s u) ∧
        ∀ q, r = .free q → a = .testFree q ∧ (s.blocks q).flags ≠ 0#32)
      (fun _ u => KeepsAt p s u) s := by
    rw [wlp_bind, wlp_get, wlp_pure]
    exact ⟨fun _ => hrefl, fun q => test_eq_free⟩
  cases a with
  | testSwapOut q bForce => exact htest
  | testSwapIn q => exact htest
  | testEnsure q => exact htest
  | testFree q => exact htest
  | alloc q flags =>
      simp only [perform, wlp_bind, wlp_pure]
      apply wlp_mono (wlp_alloc_keeps h q p flags)
      · intro _ u hu
        have hkeeps := hu.1
        exact ⟨fun hne => hkeeps fun hpq => hne (by rw [hpq]; rfl), by simp⟩
      · exact fun _ _ hu => hu
  | directAccess q =>
      simp only [perform, wlp_bind, wlp_pure]
      apply wlp_mono (wlp_access_keeps h q p none)
      · exact fun _ _ hu => ⟨fun _ => hu, by simp⟩
      · exact fun _ _ hu => hu
  | directWrite q off x cb => exact hkept (wlp_write_keeps t h q p)
  | directRead q off cb =>
      rw [perform, wlp_bind]
      exact wlp_mono (wlp_read_keeps t h q p) (fun _ _ hu => ⟨fun _ => hu, by simp⟩)
        fun _ _ hu => hu
  | resume =>
      cases pending with
      | idle => exact ⟨fun _ => hrefl, by simp⟩
      | swapOut q => exact hkept (wlp_swapOutBody_keeps q p (hout rfl q rfl))
      | swapIn q => exact hkept (wlp_swapInBody_keeps h q p)
      | free q =>
          simp only [perform, resume, wlp_bind, wlp_pure]
          apply wlp_mono (wlp_freeBody_keeps q p (hfree rfl q rfl))
          · intro _ u hu
            exact ⟨fun hne => hu.1 fun hpq => hne (by rw [hpq]; rfl), by simp⟩
          · exact fun _ _ hu => hu
      | ensureFind q =>
          simp only [perform, resume, wlp_bind, wlp_find, wlp_pure]
          exact ⟨fun _ _ => ⟨fun _ => hrefl, by simp⟩, fun _ => hrefl⟩
      | ensureSwap q i => exact hkept (wlp_exchange_keeps h _ p)

/-- Every block that is VALID or about to be freed is placed. -/
structure Orderly (x : System) : Prop where
  slots : x.mgr.mBlocks.length ≤ maxSlots
  placed : ∀ p, x.mgr.Valid p ∨ (∃ c, x.pending c = .free p) → Placed x.mgr p
  bare : ∀ p, Bare x.mgr p
  single : ∀ c c' p, x.pending c = .free p → x.pending c' = .free p → c = c'

/-- A swap-out goes on only if its block is still resident. -/
def StillResident (x : System) (v : ClientStep) : Prop :=
  v.act = .resume → ∀ pref, x.pending v.client = .swapOut pref → x.mgr.Resident pref

theorem Orderly.homed {x : System} (h : Orderly x) (hp : x.mgr.Resident p) : Homed x.mgr p :=
  (h.placed p (.inl hp.1)).resolve_left hp.2

/-- A block with flags is VALID or SWAPPED. -/
theorem Orderly.placed_of_flags {x : System} (h : Orderly x)
    (hne : (x.mgr.blocks p).flags ≠ 0#32) : Placed x.mgr p := by
  by_cases hv : x.mgr.Valid p
  · exact h.placed p (.inl hv)
  · left
    intro hres
    apply hne
    have hrest := h.bare p hv
    have hsplit : (x.mgr.blocks p).flags &&& (BF_SWAPPED ||| ~~~BF_SWAPPED) = 0#32 := by
      rw [BitVec.and_or_distrib_left, hres, hrest]
      exact BitVec.zero_or
    have hall : BF_SWAPPED ||| ~~~BF_SWAPPED = BitVec.allOnes 32 := by decide
    rw [hall, BitVec.and_allOnes] at hsplit
    exact hsplit

/-- The frees that are pending after a step are those that were, and the one just tested. -/
theorem pending_free {x y : System} {v : ClientStep} {r : Except HRESULT Pending}
    (hpending : y.pending = Function.update x.pending v.client (after r))
    (hafter : ∀ q, after r = .free q → v.act = .testFree q) {c : Nat}
    (hc : y.pending c = .free p) :
    (c ≠ v.client ∧ x.pending c = .free p) ∨ (c = v.client ∧ v.act = .testFree p) := by
  rw [hpending] at hc
  by_cases hcv : c = v.client
  · rw [hcv, Function.update_self] at hc
    exact .inr ⟨hcv, hafter p hc⟩
  · rw [Function.update_of_ne hcv] at hc
    exact .inl ⟨hcv, hc⟩

theorem clientStep_single {x y : System} {v : ClientStep} {r : Except HRESULT Pending}
    (h : Orderly x) (halone : v.act.Alone x.pending)
    (hpending : y.pending = Function.update x.pending v.client (after r))
    (hafter : ∀ q, after r = .free q → v.act = .testFree q) :
    ∀ c c' p, y.pending c = .free p → y.pending c' = .free p → c = c' := by
  intro c c' p hc hc'
  rcases pending_free hpending hafter hc with ⟨_, hc⟩ | ⟨hcv, hact⟩ <;>
    rcases pending_free hpending hafter hc' with ⟨_, hc'⟩ | ⟨hcv', hact'⟩
  · exact h.single c c' p hc hc'
  · rw [hact'] at halone
    exact absurd hc (halone c)
  · rw [hact] at halone
    exact absurd hc' (halone c')
  · rw [hcv, hcv']

/-- What a step makes of the block it allocates or frees. -/
theorem wlp_perform_reassigned (t : Target) {pending : Pending} {a : Act}
    (h : s.mBlocks.length ≤ maxSlots) (hfree : a = .resume → ∀ q, pending = .free q → Placed s q)
    (hp : a.reassigns pending = some p) :
    wlp (perform t e pending a)
      (fun _ u => u.mBlocks.length = s.mBlocks.length ∧
        ((Homed u p ∧ u.Valid p) ∨
          ((u.blocks p).flags = 0#32 ∧ a = .resume ∧ pending = .free p)))
      (fun _ _ => True) s := by
  cases a with
  | alloc q flags =>
      obtain rfl : q = p := by simpa [Act.reassigns] using hp
      simp only [perform, wlp_bind, wlp_pure]
      apply wlp_mono (wlp_alloc_keeps h q q flags)
      · exact fun _ u hu => ⟨hu.2.2.2, .inl ⟨hu.2.1, hu.2.2.1⟩⟩
      · exact fun _ _ _ => trivial
  | resume =>
      cases pending with
      | free q =>
          obtain rfl : q = p := by simpa [Act.reassigns] using hp
          rw [perform, resume, wlp_bind]
          apply wlp_mono (wlp_freeBody_keeps q q (hfree rfl q rfl))
          · exact fun _ u hu => ⟨hu.2.2, .inr ⟨hu.2.1, rfl, rfl⟩⟩
          · exact fun _ _ _ => trivial
      | _ => simp [Act.reassigns] at hp
  | _ => simp [Act.reassigns] at hp

/-- What a step makes of a block: it keeps it, or it has given it a slot or freed it. -/
structure Reassigned (x y : System) (v : ClientStep) (p : Nat) : Prop where
  length : y.mgr.mBlocks.length = x.mgr.mBlocks.length
  block : (Homed y.mgr p ∧ y.mgr.Valid p) ∨
    ((y.mgr.blocks p).flags = 0#32 ∧ v.act = .resume ∧ x.pending v.client = .free p)

section Steps

variable {t : Target} {x y : System} {v : ClientStep} {r : Except HRESULT Pending}

theorem Orderly.homed_of_resume (h : Orderly x) (hstill : StillResident x v) :
    v.act = .resume → ∀ q, x.pending v.client = .swapOut q → Homed x.mgr q :=
  fun hact q hq => h.homed (hstill hact q hq)

theorem Orderly.placed_of_resume (h : Orderly x) :
    v.act = .resume → ∀ q, x.pending v.client = .free q → Placed x.mgr q :=
  fun _ q hq => h.placed q (.inr ⟨v.client, hq⟩)

/-- A step that leaves its client about to free a block has looked at its flags. -/
theorem pending_tested (h : Orderly x) (hstill : StillResident x v)
    (hperform : perform t v.env (x.pending v.client) v.act x.mgr = some (r, y.mgr)) {q : Nat}
    (hq : after r = .free q) : v.act = .testFree q ∧ (x.mgr.blocks q).flags ≠ 0#32 := by
  have hwlp := wlp_perform (e := v.env) t h.slots (h.homed_of_resume hstill) h.placed_of_resume 0
  cases r with
  | error _ => simp [after] at hq
  | ok pending =>
      have hok := wlp_ok hwlp hperform
      exact hok.2 q hq

/-- A block that the step does not allocate or free is kept. -/
theorem perform_cases (h : Orderly x) (hstill : StillResident x v)
    (hperform : perform t v.env (x.pending v.client) v.act x.mgr = some (r, y.mgr)) (p : Nat) :
    KeepsAt p x.mgr y.mgr ∨ Reassigned x y v p := by
  have hwlp := wlp_perform (e := v.env) t h.slots (h.homed_of_resume hstill) h.placed_of_resume p
  cases r with
  | error _ =>
      have herror := wlp_error hwlp hperform
      exact .inl herror
  | ok pending =>
      have hok := wlp_ok hwlp hperform
      by_cases hp : v.act.reassigns (x.pending v.client) = some p
      · have hreassigned := wlp_perform_reassigned (e := v.env) t h.slots h.placed_of_resume hp
        have hgiven := wlp_ok hreassigned hperform
        exact .inr ⟨hgiven.1, hgiven.2⟩
      · exact .inl (hok.1 hp)

theorem clientStep_orderly (h : Orderly x) (hstill : StillResident x v)
    (hstep : clientStep t x v y) : Orderly y := by
  obtain ⟨hfits, halone, r, hperform, hpending⟩ := hstep
  have hcases := perform_cases h hstill hperform
  have hafter : ∀ q, after r = .free q → v.act = .testFree q :=
    fun q hq => (pending_tested h hstill hperform hq).1
  constructor
  · rcases hcases 0 with hkept | hgiven
    · rw [hkept.2]
      exact h.slots
    · rw [hgiven.length]
      exact h.slots
  · intro p hp
    rcases hcases p with hkept | ⟨-, ⟨hhomed, -⟩ | ⟨hflags, hact, hmine⟩⟩
    · apply hkept.1.placed
      rcases hp with hv | ⟨c, hc⟩
      · exact h.placed p (.inl (hkept.1.valid hv))
      · rcases pending_free hpending hafter hc with ⟨-, hc⟩ | ⟨rfl, -⟩
        · exact h.placed p (.inr ⟨c, hc⟩)
        · have hr : after r = .free p := by
            rw [hpending, Function.update_self] at hc
            exact hc
          exact h.placed_of_flags (pending_tested h hstill hperform hr).2
    · exact .inr hhomed
    · -- the block was freed: it is not VALID, and nobody else was about to free it
      exfalso
      rcases hp with hv | ⟨c, hc⟩
      · unfold Valid at hv
        rw [hflags] at hv
        exact hv BitVec.zero_and
      · rcases pending_free hpending hafter hc with ⟨hcv, hc⟩ | ⟨-, htest⟩
        · exact hcv (h.single c v.client p hc hmine)
        · rw [hact] at htest
          simp at htest
  · intro p
    rcases hcases p with hkept | ⟨-, ⟨-, hv⟩ | ⟨hflags, -⟩⟩
    · exact hkept.1.bare (h.bare p)
    · exact fun hnv => absurd hv hnv
    · intro _
      rw [hflags]
      exact BitVec.zero_and
  · exact clientStep_single h halone hpending hafter

end Steps

/-! ## Runs -/

/-- What `Create` leaves for clients that have made no call. -/
structure Ready (x : System) : Prop where
  unused : ∀ p, (x.mgr.blocks p).flags = 0#32
  idle : ∀ c, x.pending c = .idle

theorem Ready.orderly {x : System} (h : Ready x) (hslots : x.mgr.mBlocks.length ≤ maxSlots) :
    Orderly x where
  slots := hslots
  placed := by
    intro p hp
    rcases hp with hv | ⟨c, hc⟩
    · unfold Valid at hv
      rw [h.unused p] at hv
      exact absurd BitVec.zero_and hv
    · rw [h.idle c] at hc
      simp at hc
  bare := by
    intro p _
    rw [h.unused p]
    exact BitVec.zero_and
  single := by
    intro c c' p hc
    rw [h.idle c] at hc
    simp at hc

/-- In a RAM below 4 GiB, whatever the order of the steps, if every swap-out that goes on has
a block that is still resident, then no two resident blocks share an address and each is the
one in its slot. -/
theorem run_slots_unshared (t : Target) {x y : System} {vs : List ClientStep} (hready : Ready x)
    (hslots : x.mgr.mBlocks.length ≤ maxSlots)
    (hrun : Run (When StillResident (clientStep t)) x vs y) :
    (∀ p q, y.mgr.Resident p → y.mgr.Resident q →
      (y.mgr.blocks p).addr = (y.mgr.blocks q).addr → p = q) ∧
    ∀ p, y.mgr.Resident p → y.mgr.mBlocks[(y.mgr.blocks p).addr / 4096]? = some (some p) := by
  have horderly : Orderly y := by
    apply hrun.invariant (hready.orderly hslots)
    exact fun x v y hx hstep => clientStep_orderly hx hstep.1 hstep.2
  have hentry : ∀ p, y.mgr.Resident p →
      y.mgr.mBlocks[(y.mgr.blocks p).addr / 4096]? = some (some p) := by
    intro p hp
    obtain ⟨i, haddr, hi⟩ := horderly.homed hp
    rw [haddr, Nat.mul_div_cancel i (by decide)]
    exact hi
  refine ⟨?_, hentry⟩
  intro p q hp hq haddr
  have hentryp := hentry p hp
  rw [haddr, hentry q hq] at hentryp
  simpa using hentryp.symm

/-- A run in which no free is pending. -/
def RunNoFree (ok : System → ClientStep → Prop) (t : Target) (x : System) (vs : List ClientStep)
    (y : System) : Prop :=
  Run (When ok (clientStep t)) x vs y ∧ ∀ c p, y.pending c ≠ .free p

theorem RunNoFree.snoc {ok : System → ClientStep → Prop} {t : Target} {x y : System}
    {vs : List ClientStep} {v : ClientStep} {r : Pending} {u : RamManager}
    (h : RunNoFree ok t x vs y) (hok : ok y v) (hfits : v.act.Fits (y.pending v.client))
    (hperform : perform t v.env (y.pending v.client) v.act y.mgr = some (.ok r, u))
    (hr : ∀ p, r ≠ .free p) :
    RunNoFree ok t x (v :: vs) ⟨u, Function.update y.pending v.client r⟩ := by
  have halone : v.act.Alone y.pending := by
    cases v.act with
    | alloc q flags => exact fun c => h.2 c q
    | testFree q => exact fun c => h.2 c q
    | _ => trivial
  refine ⟨h.1.snoc ⟨hok, hfits, halone, .ok r, hperform, rfl⟩, ?_⟩
  intro c p
  by_cases hc : c = v.client
  · simpa [hc] using hr p
  · simpa [hc] using h.2 c p

/-! ## A client alone

A test and the steps after it make up the call. -/

/-- The first step of a call. -/
def firstAct : Call → Act
  | .alloc pref flags => .alloc pref flags
  | .free pref => .testFree pref
  | .swapOut pref bForce => .testSwapOut pref bForce
  | .swapIn pref => .testSwapIn pref
  | .ensure pref => .testEnsure pref
  | .directAccess pref => .directAccess pref
  | .directWrite pref off p cb => .directWrite pref off p cb
  | .directRead pref off cb => .directRead pref off cb

section Alone

variable {s u : RamManager}

/-- A client goes on until its call is over. -/
inductive Finishes (e : Env) : Pending → RamManager → RamManager → Prop
  | idle (s : RamManager) : Finishes e .idle s s
  | resume {p : Pending} {r : Except HRESULT Pending} {s u v : RamManager}
      (h : resume e p s = some (r, u)) (hrest : Finishes e (after r) u v) : Finishes e p s v

theorem bind_idle {α : Type} {body : Ram α} {r : Except HRESULT α} (h : body s = some (r, u)) :
    ∃ r', (body >>= fun _ => pure Pending.idle) s = some (r', u) ∧ after r' = .idle := by
  cases r with
  | error er => exact ⟨.error er, bind_error h, rfl⟩
  | ok a => exact ⟨.ok .idle, bind_ok h, rfl⟩

/-- What is pending is the body of the call. -/
theorem Finishes.of_body {e : Env} {p : Pending} {body : Ram Unit} {r : Except HRESULT Unit}
    (hp : Vm.resume e p = body >>= fun _ => pure .idle) (h : body s = some (r, u)) :
    Finishes e p s u := by
  obtain ⟨r', hr', hover⟩ := bind_idle h
  rw [← hp] at hr'
  exact .resume hr' (hover ▸ .idle u)

/-- The search of `EnsureRamBlock` and its exchange are two steps. -/
theorem Finishes.of_ensure {e : Env} {pref : Nat} {r : Except HRESULT Unit}
    (h : (findFreeOrSwappableAddress e.change >>= fun i => swapRamAndPageFile e i (some pref)) s =
      some (r, u)) : Finishes e (.ensureFind pref) s u := by
  rcases hfind : findFreeOrSwappableAddress e.change s with _ | ⟨er | i, v⟩
  · rw [bind_none hfind] at h
    cases h
  · rw [bind_error hfind] at h
    obtain ⟨-, rfl⟩ := Prod.mk.inj (Option.some.inj h)
    exact .resume (r := .error er) (bind_error hfind) (.idle v)
  · rw [bind_ok hfind] at h
    exact .resume (r := .ok (.ensureSwap pref i)) (bind_ok hfind) (.of_body rfl h)

theorem free_finishes (e : Env) {pref : Nat} {r : Except HRESULT Unit}
    (h : ramFreeAddress pref s = some (r, u)) : Finishes e (test s (.testFree pref)) s u := by
  have hbody : (if (s.blocks pref).flags = 0#32 then (pure () : Ram Unit)
      else ramFreeBody pref) s = some (r, u) := h
  rw [test]
  by_cases hzero : (s.blocks pref).flags = 0#32
  · rw [if_pos hzero] at hbody ⊢
    obtain ⟨-, rfl⟩ := Prod.mk.inj (Option.some.inj hbody)
    exact .idle s
  · rw [if_neg hzero] at hbody ⊢
    exact .of_body rfl hbody

theorem swapIn_finishes {e : Env} {pref : Nat} {r : Except HRESULT Unit}
    (h : ramSwapIn e pref s = some (r, u)) : Finishes e (test s (.testSwapIn pref)) s u := by
  have hbody : (if (s.blocks pref).flags &&& BF_SWAPPED = 0#32 then (pure () : Ram Unit)
      else ramSwapInBody e pref) s = some (r, u) := h
  rw [test]
  by_cases hswap : (s.blocks pref).flags &&& BF_SWAPPED = 0#32
  · rw [if_pos hswap] at hbody ⊢
    obtain ⟨-, rfl⟩ := Prod.mk.inj (Option.some.inj hbody)
    exact .idle s
  · rw [if_neg hswap] at hbody ⊢
    exact .of_body rfl hbody

theorem swapOut_finishes {e : Env} {pref : Nat} {bForce : Bool} {r : Except HRESULT Unit}
    (h : ramSwapOut e pref bForce s = some (r, u)) :
    Finishes e (test s (.testSwapOut pref bForce)) s u := by
  have hbody : (if (s.blocks pref).flags &&& BF_SWAPPED ≠ 0#32 then (pure () : Ram Unit)
      else if (s.blocks pref).flags &&& BF_LOCKED ≠ 0#32 ∧ ¬ bForce then fail .E_FAIL
      else ramSwapOutBody e pref) s = some (r, u) := h
  rw [test]
  by_cases hswap : (s.blocks pref).flags &&& BF_SWAPPED ≠ 0#32
  · rw [if_pos hswap] at hbody ⊢
    obtain ⟨-, rfl⟩ := Prod.mk.inj (Option.some.inj hbody)
    exact .idle s
  · rw [if_neg hswap] at hbody ⊢
    by_cases hlock : (s.blocks pref).flags &&& BF_LOCKED ≠ 0#32 ∧ ¬ bForce
    · rw [if_pos hlock] at hbody ⊢
      obtain ⟨-, rfl⟩ := Prod.mk.inj (Option.some.inj hbody)
      exact .idle s
    · rw [if_neg hlock] at hbody ⊢
      exact .of_body rfl hbody

theorem ensure_finishes {e : Env} {pref : Nat} {r : Except HRESULT Unit}
    (h : ensureRamBlock e pref s = some (r, u)) : Finishes e (test s (.testEnsure pref)) s u := by
  have hbody : (if (s.blocks pref).flags = 0#32 then (fail .E_UNEXPECTED : Ram Unit)
      else if (s.blocks pref).flags &&& BF_SWAPPED = 0#32 then pure ()
      else findFreeOrSwappableAddress e.change >>= fun i => swapRamAndPageFile e i (some pref)) s =
        some (r, u) := h
  rw [test]
  by_cases hzero : (s.blocks pref).flags = 0#32
  · rw [if_pos hzero] at hbody ⊢
    obtain ⟨-, rfl⟩ := Prod.mk.inj (Option.some.inj hbody)
    exact .idle s
  rw [if_neg hzero] at hbody ⊢
  by_cases hswap : (s.blocks pref).flags &&& BF_SWAPPED = 0#32
  · rw [if_pos hswap] at hbody ⊢
    obtain ⟨-, rfl⟩ := Prod.mk.inj (Option.some.inj hbody)
    exact .idle s
  rw [if_neg hswap] at hbody ⊢
  exact .of_ensure hbody

/-- A call is its first step and what is pending after it. -/
theorem exec_finishes {t : Target} {e : Env} {c : Call} {r : Except HRESULT (List UInt8)}
    (h : exec t e c s = some (r, u)) :
    ∃ r' v, perform t e .idle (firstAct c) s = some (r', v) ∧ Finishes e (after r') v u := by
  have hwhole : ∀ {α : Type} {body : Ram α} {r₁ : Except HRESULT α}, body s = some (r₁, u) →
      ∃ r' v, (body >>= fun _ => pure Pending.idle) s = some (r', v) ∧
        Finishes e (after r') v u := by
    intro α body r₁ hbody
    obtain ⟨r', hr', hover⟩ := bind_idle hbody
    exact ⟨r', u, hr', hover ▸ .idle u⟩
  cases c with
  | alloc q flags =>
      obtain ⟨r₁, hcall, -⟩ := bind_pure_eq h
      exact hwhole hcall
  | directAccess q =>
      obtain ⟨r₁, hcall, -⟩ := bind_pure_eq h
      exact hwhole hcall
  | directWrite q off p cb =>
      obtain ⟨r₁, hcall, -⟩ := bind_pure_eq h
      exact hwhole hcall
  | directRead q off cb => exact hwhole h
  | free q =>
      obtain ⟨r₁, hcall, -⟩ := bind_pure_eq h
      exact ⟨.ok _, s, rfl, free_finishes e hcall⟩
  | swapOut q bForce =>
      obtain ⟨r₁, hcall, -⟩ := bind_pure_eq h
      exact ⟨.ok _, s, rfl, swapOut_finishes hcall⟩
  | swapIn q =>
      obtain ⟨r₁, hcall, -⟩ := bind_pure_eq h
      exact ⟨.ok _, s, rfl, swapIn_finishes hcall⟩
  | ensure q =>
      obtain ⟨r₁, hcall, -⟩ := bind_pure_eq h
      exact ⟨.ok _, s, rfl, ensure_finishes hcall⟩

/-- What is pending is a run of the one client. -/
theorem Finishes.run {e : Env} {p : Pending} (h : Finishes e p s u) (t : Target) {x : System}
    {k : Nat} {vs : List ClientStep} (hclient : ∀ v ∈ vs, v.client = k)
    (hrun : Run (clientStep t) x vs ⟨s, Function.update x.pending k p⟩) :
    ∃ vs, (∀ v ∈ vs, v.client = k) ∧
      Run (clientStep t) x vs ⟨u, Function.update x.pending k .idle⟩ := by
  induction h generalizing vs with
  | idle s => exact ⟨vs, hclient, hrun⟩
  | @resume p r s u v hresume hrest ih =>
      have hone : ∀ w ∈ ClientStep.mk k .resume e :: vs, w.client = k := by
        intro w hw
        rcases List.mem_cons.1 hw with rfl | hw
        · rfl
        · exact hclient w hw
      refine ih hone (hrun.snoc ⟨.inr rfl, trivial, r, ?_, ?_⟩)
      · show Vm.resume e (Function.update x.pending k p k) s = some (r, u)
        rw [Function.update_self]
        exact hresume
      · exact (Function.update_idem _ _ _).symm

/-- A client that is alone does the whole call, in some steps of its own. -/
theorem run_alone (t : Target) {e : Env} {c : Call} {x : System} {k : Nat}
    {r : Except HRESULT (List UInt8)} (hidle : x.pending k = .idle)
    (halone : (firstAct c).Alone x.pending) (h : exec t e c x.mgr = some (r, u)) :
    ∃ vs, (∀ v ∈ vs, v.client = k) ∧ Run (clientStep t) x vs { x with mgr := u } := by
  obtain ⟨r', v, hfirst, hrest⟩ := exec_finishes h
  rw [← hidle] at hfirst
  have hone : Run (clientStep t) x [⟨k, firstAct c, e⟩]
      ⟨v, Function.update x.pending k (after r')⟩ :=
    .snoc .nil ⟨.inl hidle, halone, r', hfirst, rfl⟩
  obtain ⟨vs, hclient, hrun⟩ := hrest.run t (by simp) hone
  refine ⟨vs, hclient, ?_⟩
  rwa [← hidle, Function.update_eq_self] at hrun

end Alone

/-! ## Two small runs -/

def calm : Env := ⟨fun _ => false, .ok, .ok⟩

/-- One slot and clients that have made no call. -/
def oneSlotSystem : System := ⟨Vram.oneSlot, fun _ => .idle⟩

theorem oneSlotSystem_ready : Ready oneSlotSystem := ⟨fun _ => rfl, fun _ => rfl⟩

theorem oneSlotSystem_run (ok : System → ClientStep → Prop) :
    RunNoFree ok .x64 oneSlotSystem [] oneSlotSystem :=
  ⟨.nil, fun _ _ h => by simp [oneSlotSystem] at h⟩

/-- Block 0 is swapped out by client 0, and client 1 allocates block 1 in its slot. -/
theorem run_slots_unshared_oneSlot : ∃ y,
    Run (When StillResident (clientStep .x64)) oneSlotSystem
      [⟨1, .alloc 1 0#32, calm⟩, ⟨0, .resume, calm⟩, ⟨0, .testSwapOut 0 false, calm⟩,
        ⟨0, .alloc 0 0#32, calm⟩] y ∧
      y.mgr.Resident 1 ∧ y.mgr.mBlocks[(y.mgr.blocks 1).addr / 4096]? = some (some 1) := by
  have hrun : ∃ y, RunNoFree StillResident .x64 oneSlotSystem
      [⟨1, .alloc 1 0#32, calm⟩, ⟨0, .resume, calm⟩, ⟨0, .testSwapOut 0 false, calm⟩,
        ⟨0, .alloc 0 0#32, calm⟩] y ∧ y.mgr.Resident 1 := by
    refine ⟨_, ((((oneSlotSystem_run _).snoc (by simp [StillResident]) (.inl rfl) rfl (by simp)).snoc
      (by simp [StillResident]) (.inl rfl) rfl fun _ h => absurd (test_eq_free h).1 (by simp)).snoc
      ?_ (.inr rfl) rfl (by simp)).snoc (by simp [StillResident]) (.inl rfl) rfl (by simp),
      by decide⟩
    intro _ pref hpref
    obtain rfl : 0 = pref := Pending.swapOut.inj hpref
    decide
  obtain ⟨y, hrun, hres⟩ := hrun
  have hslots : oneSlotSystem.mgr.mBlocks.length ≤ maxSlots := by decide
  exact ⟨y, hrun.1, hres, (run_slots_unshared .x64 oneSlotSystem_ready hslots hrun.1).2 1 hres⟩

/-- Client 0 tests block 0 and is about to swap it out; client 1 allocates block 1, which
takes the slot; client 0 goes on and frees the slot; client 1 allocates block 2. -/
def race : List ClientStep :=
  [⟨1, .alloc 2 0#32, calm⟩, ⟨0, .resume, calm⟩, ⟨1, .alloc 1 0#32, calm⟩,
    ⟨0, .testSwapOut 0 false, calm⟩, ⟨1, .alloc 0 0#32, calm⟩]

/-- Two resident blocks share an address. -/
theorem race_shares_slot : ∃ y, Run (clientStep .x64) oneSlotSystem race y ∧
    y.mgr.Resident 1 ∧ y.mgr.Resident 2 ∧ (y.mgr.blocks 1).addr = (y.mgr.blocks 2).addr := by
  have hrun : ∃ y, RunNoFree (fun _ _ => True) .x64 oneSlotSystem race y ∧
      y.mgr.Resident 1 ∧ y.mgr.Resident 2 ∧ (y.mgr.blocks 1).addr = (y.mgr.blocks 2).addr :=
    ⟨_, ((((((oneSlotSystem_run _).snoc trivial (.inl rfl) rfl (by simp)).snoc trivial (.inl rfl) rfl
      fun _ h => absurd (test_eq_free h).1 (by simp)).snoc trivial (.inl rfl) rfl (by simp)).snoc
      trivial (.inr rfl) rfl (by simp)).snoc trivial (.inl rfl) rfl (by simp)), by decide, by decide,
      by decide⟩
  obtain ⟨y, hrun, hres⟩ := hrun
  exact ⟨y, hrun.1.mono fun _ _ _ h => h.2, hres⟩

end Vin64.Vm
