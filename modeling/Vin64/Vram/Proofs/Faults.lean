import Vin64.Vram.Proofs.Owners
import Vin64.Vram.Proofs.Partial

/-!
# Calls that the page file fails

A page is coded in place before it is written, and a page that is read into a free slot is
read in place.  When the write or the read breaks off, the call returns its error and
leaves the page so.
-/

namespace Vin64.Vram

open Vin64.Lib Vin64.Lib.Op Vin64.Utils RamManager

variable {s t : RamManager} {e : Env} {c : Call}

/-- The blocks see the state as it was. -/
structure Unchanged (s t : RamManager) : Prop where
  blocks : t.blocks = s.blocks
  slots : t.mBlocks = s.mBlocks
  pages : ∀ q, s.Resident q →
    window t.mRamData 4096 (s.blocks q).addr = window s.mRamData 4096 (s.blocks q).addr

/-- The calls that move pages. -/
def Call.Moves : Call → Prop
  | .alloc _ _ => True
  | .swapOut _ _ => True
  | .swapIn _ => True
  | .ensure _ => True
  | _ => False

/-! ## Where a transfer breaks off -/

/-- The exchange that a call makes: its slot, and the block it brings in. -/
inductive Call.Exchanges (s : RamManager) (e : Env) : Call → Nat → Option Nat → Prop
  | alloc {pb i : Nat} {flags : BitVec 32} (h : s.findFreeOrSwappable e.rand = some i) :
      Exchanges s e (.alloc pb flags) i none
  | swapIn {pb i : Nat} (hswap : s.IsSwapped pb) (h : s.swapInSlot e pb = some i) :
      Exchanges s e (.swapIn pb) i (some pb)
  | ensure {pb i : Nat} (hswap : s.IsSwapped pb) (h : s.findFreeOrSwappable e.rand = some i) :
      Exchanges s e (.ensure pb) i (some pb)

/-- A write to the page `j` of the page file finds its place and then fails. -/
def Env.BreaksWrite (e : Env) (j : Nat) : Prop := seeks e.store (uOffset j) ∧ e.store ≠ .ok

/-- A read of the page `j` of the page file finds its place and then fails. -/
def Env.BreaksRead (e : Env) (j : Nat) : Prop := seeks e.load (uOffset j) ∧ e.load ≠ .ok

/-- The exchange at slot `i` reaches the write of the page in the slot, which fails. -/
def SwapBreaksWrite (s : RamManager) (e : Env) (i : Nat) (inPF : Option Nat) : Prop :=
  ∃ m, s.mBlocks[i]? = some (some m) ∧ ¬ s.lockedSlot (some m) ∧
    match inPF with
    | none => e.BreaksWrite s.nextPF
    | some pf => e.load = .ok ∧ seeks e.load (uOffset (s.blocks pf).swapid) ∧
        e.BreaksWrite (s.blocks pf).swapid

/-- The exchange reads the page `j` of the page file into the free slot `i`, and the read
fails. -/
def SwapBreaksRead (s : RamManager) (e : Env) (i : Nat) (inPF : Option Nat) (j : Nat) : Prop :=
  s.mBlocks[i]? = some none ∧ ∃ pf, inPF = some pf ∧ j = (s.blocks pf).swapid ∧ e.BreaksRead j

/-- The call fails at the write of the page at the address `a`. -/
inductive Call.BreaksWrite (s : RamManager) (e : Env) : Call → Nat → Prop
  | swap {c : Call} {i : Nat} {inPF : Option Nat} (h : c.Exchanges s e i inPF)
      (hw : SwapBreaksWrite s e i inPF) : BreaksWrite s e c (i * 4096)
  | swapOut {pb : Nat} {bForce : Bool} (hres : ¬ s.IsSwapped pb)
      (hlock : (s.blocks pb).flags &&& BF_LOCKED ≠ 0#32 → bForce = true)
      (hw : e.BreaksWrite s.nextPF) : BreaksWrite s e (.swapOut pb bForce) (s.blocks pb).addr

/-- The call fails at the read of the page `j` of the page file into the free slot `i`. -/
def Call.BreaksRead (s : RamManager) (e : Env) (c : Call) (i j : Nat) : Prop :=
  ∃ inPF, c.Exchanges s e i inPF ∧ SwapBreaksRead s e i inPF j

/-- The page of a resident block is at the address `a`, or overlaps the page there. -/
def ShowsPage (s : RamManager) (a : Nat) : Prop :=
  ∃ q, s.Resident q ∧ ∃ k l : Fin 4096, (s.blocks q).addr + k = a + l

/-- The bytes that a failed read of the page `j` puts into slot `i` are seen by no resident
block, or they are the ones that were there. -/
def HidesRead (s : RamManager) (e : Env) (i j : Nat) : Prop :=
  ∀ q, s.Resident q → ∀ k l : Fin 4096, (s.blocks q).addr + k = i * 4096 + l →
    s.fetched e.load j (.ram (i * 4096)) l = s.mRamData (i * 4096 + l)

/-! ## What a failed call leaves -/

/-- A state with the blocks and the slots of `s`. -/
structure SameBlocks (s t : RamManager) : Prop where
  blocks : t.blocks = s.blocks
  slots : t.mBlocks = s.mBlocks

/-- What an exchange that fails leaves of the RAM. -/
inductive SwapFails (s : RamManager) (e : Env) (i : Nat) (inPF : Option Nat) (t : RamManager) : Prop
  | whole (hb : SameBlocks s t) (hram : t.mRamData = s.mRamData)
      (hw : ¬ SwapBreaksWrite s e i inPF) (hr : ∀ j, ¬ SwapBreaksRead s e i inPF j)
  | coded (hb : SameBlocks s t)
      (hram : t.mRamData = blit s.mRamData (i * 4096) (codeBlockPage (s.slotPage i)))
      (hw : SwapBreaksWrite s e i inPF)
  | partly {j : Nat} (hb : SameBlocks s t)
      (hram : t.mRamData = blit s.mRamData (i * 4096) (s.fetched e.load j (.ram (i * 4096))))
      (hr : SwapBreaksRead s e i inPF j)

theorem wlp_swap_fails {i : Nat} {inPF : Option Nat} :
    wlp (swapRamAndPageFile e i inPF) (fun _ _ => True) (fun _ t => SwapFails s e i inPF t) s := by
  cases inPF with
  | none =>
      have hread : ∀ j, ¬ SwapBreaksRead s e i none j := by
        intro j ⟨_, _, h, _⟩
        simp at h
      apply wlp_swap_none
      · exact fun _ => trivial
      · exact fun _ _ _ => trivial
      · intro m hm hlock
        refine .whole ⟨rfl, rfl⟩ rfl ?_ hread
        intro ⟨m', hm', hfree, _⟩
        obtain rfl : m = m' := by simpa [hm] using hm'
        exact hfree hlock
      · intro hns
        exact .whole ⟨rfl, rfl⟩ rfl (fun ⟨_, _, _, hw⟩ => hns hw.1) hread
      · intro m hm hfree hs he
        exact .coded ⟨rfl, rfl⟩ rfl ⟨m, hm, hfree, hs, he⟩
  | some c =>
      apply wlp_swap_some
      · exact fun _ => trivial
      · exact fun _ _ _ => trivial
      · intro m hm hlock
        refine .whole ⟨rfl, rfl⟩ rfl ?_ ?_
        · intro ⟨m', hm', hfree, _⟩
          obtain rfl : m = m' := by simpa [hm] using hm'
          exact hfree hlock
        · intro j ⟨hidle, _⟩
          simp [hm] at hidle
      · intro v hv hfree hns
        refine .whole ⟨rfl, rfl⟩ rfl (fun ⟨_, _, _, _, hs, _⟩ => hns hs) ?_
        intro j ⟨_, pf, hpf, hj, hs, _⟩
        obtain rfl : c = pf := by simpa using hpf
        rw [hj] at hs
        exact hns hs
      · intro v hv hfree hs he b hb
        have hwrite : ¬ SwapBreaksWrite s e i (some c) := fun ⟨_, _, _, h, _⟩ => he h
        cases v with
        | none =>
            rw [if_neg (by simp)] at hb
            rw [hb]
            exact .partly ⟨rfl, rfl⟩ rfl ⟨hv, c, rfl, rfl, hs, he⟩
        | some m =>
            rw [if_pos (by simp)] at hb
            rw [hb]
            refine .whole ⟨rfl, rfl⟩ rfl hwrite ?_
            intro j ⟨hidle, _⟩
            simp [hv] at hidle
      · intro m hm hns
        refine .whole ⟨rfl, rfl⟩ rfl (fun ⟨_, _, _, _, _, hw⟩ => hns hw.1) ?_
        intro j ⟨hidle, _⟩
        simp [hm] at hidle
      · intro m hm hfree hload hs hs' he
        exact .coded ⟨rfl, rfl⟩ rfl ⟨m, hm, hfree, hload, hs, hs', he⟩

/-- What a call that fails leaves. -/
inductive CallFails (s : RamManager) (e : Env) (c : Call) (t : RamManager) : Prop
  | early (hb : SameBlocks s t) (hram : t.mRamData = s.mRamData)
      (hx : ∀ i inPF, ¬ c.Exchanges s e i inPF) (hw : ∀ a, ¬ c.BreaksWrite s e a)
  | swap {i : Nat} {inPF : Option Nat} (hx : c.Exchanges s e i inPF) (h : SwapFails s e i inPF t)
  | swapOut {pb : Nat} {bForce : Bool} (hc : c = .swapOut pb bForce) (hb : SameBlocks s t)
      (hram : t.mRamData = blit s.mRamData (s.blocks pb).addr
        (codeBlockPage (window s.mRamData 4096 (s.blocks pb).addr)))
      (hw : c.BreaksWrite s e (s.blocks pb).addr)

theorem no_exchange_no_write (hx : ∀ i inPF, ¬ c.Exchanges s e i inPF)
    (hout : ∀ pb bForce, c ≠ .swapOut pb bForce) (a : Nat) : ¬ c.BreaksWrite s e a := by
  intro hw
  cases hw with
  | swap h _ => exact hx _ _ h
  | swapOut _ _ _ => exact hout _ _ rfl

theorem wlp_exchange_fails {i : Nat} {inPF : Option Nat} (hx : c.Exchanges s e i inPF) :
    wlp (swapRamAndPageFile e i inPF) (fun _ _ => True) (fun _ u => CallFails s e c u) s :=
  wlp_mono wlp_swap_fails (fun _ _ h => h) fun _ _ h => .swap hx h

theorem wlp_alloc_fails (t : Target) {pb : Nat} {flags : BitVec 32} :
    wlp (exec t e (.alloc pb flags)) (fun _ _ => True)
      (fun _ u => CallFails s e (.alloc pb flags) u) s := by
  simp only [exec, ramAllocAddress, wlp_bind, wlp_find]
  constructor
  · intro i hi
    apply wlp_mono (wlp_exchange_fails (.alloc hi))
    · simp
    · exact fun _ _ h => h
  · intro hnone
    have hx : ∀ i inPF, ¬ (Call.alloc pb flags).Exchanges s e i inPF := by
      intro i inPF h
      cases h with
      | alloc h => simp [hnone] at h
    exact .early ⟨rfl, rfl⟩ rfl hx (no_exchange_no_write hx (by simp))

theorem wlp_swapOut_fails (t : Target) {pb : Nat} {bForce : Bool} :
    wlp (exec t e (.swapOut pb bForce)) (fun _ _ => True)
      (fun _ u => CallFails s e (.swapOut pb bForce) u) s := by
  have hx : ∀ i inPF, ¬ (Call.swapOut pb bForce).Exchanges s e i inPF := by
    intro i inPF h
    cases h
  simp only [exec, ramSwapOut, wlp_bind, wlp_blockAt, wlp_ite, wlp_pure, implies_true, true_and]
  intro hres
  constructor
  · intro hrefused
    refine .early ⟨rfl, rfl⟩ rfl hx ?_
    intro a hw
    cases hw with
    | swap h _ => exact hx _ _ h
    | swapOut _ hok _ => exact hrefused.2 (hok hrefused.1)
  · intro hfree
    simp only [wlp_pageFilePreAlloc]
    apply wlp_storeToStorage
    · simp only [wlp_mark, wlp_onBlockInvalid, wlp_modifyBlock, wlp_setSlot, implies_true]
    · intro hns
      refine .early ⟨rfl, rfl⟩ rfl hx ?_
      intro a hw
      cases hw with
      | swap h _ => exact hx _ _ h
      | swapOut _ _ hw => exact hns hw.1
    · intro hs he
      exact .swapOut rfl ⟨rfl, rfl⟩ rfl
        (.swapOut hres (fun hlock => by simpa [hlock] using hfree) ⟨hs, he⟩)

theorem wlp_swapIn_fails (t : Target) {pb : Nat} :
    wlp (exec t e (.swapIn pb)) (fun _ _ => True) (fun _ u => CallFails s e (.swapIn pb) u) s := by
  have hearly : (∀ i, s.IsSwapped pb → s.swapInSlot e pb ≠ some i) →
      CallFails s e (.swapIn pb) s := by
    intro hno
    have hnox : ∀ i inPF, ¬ (Call.swapIn pb).Exchanges s e i inPF := by
      intro i inPF h
      cases h with
      | swapIn hswap h => exact hno i hswap h
    exact .early ⟨rfl, rfl⟩ rfl hnox (no_exchange_no_write hnox (by simp))
  simp only [exec, ramSwapIn, wlp_bind, wlp_blockAt, wlp_ite, wlp_fail, wlp_pure, wlp_find]
  constructor
  · exact fun hres => hearly fun i hswap => absurd hres hswap
  · intro hswap
    constructor
    · intro hlock
      apply wlp_exchange_fails
      apply Call.Exchanges.swapIn hswap
      rw [Nat.shiftRight_eq_div_pow]
      simp [swapInSlot, hlock, VM_PAGE_SHIFT]
    · intro hlock
      have hslot : s.swapInSlot e pb = s.findFreeOrSwappable e.rand := by
        simp [swapInSlot, not_not.1 hlock]
      constructor
      · exact fun i hi => wlp_exchange_fails (.swapIn hswap (hslot.trans hi))
      · exact fun hnone => hearly fun i _ => by simp [hslot, hnone]

theorem wlp_ensure_fails (t : Target) {pb : Nat} :
    wlp (exec t e (.ensure pb)) (fun _ _ => True) (fun _ u => CallFails s e (.ensure pb) u) s := by
  have hearly : (∀ i, s.IsSwapped pb → s.findFreeOrSwappable e.rand ≠ some i) →
      CallFails s e (.ensure pb) s := by
    intro hno
    have hnox : ∀ i inPF, ¬ (Call.ensure pb).Exchanges s e i inPF := by
      intro i inPF h
      cases h with
      | ensure hswap h => exact hno i hswap h
    exact .early ⟨rfl, rfl⟩ rfl hnox (no_exchange_no_write hnox (by simp))
  simp only [exec, ensureRamBlock, wlp_bind, wlp_blockAt, wlp_ite, wlp_fail, wlp_pure, wlp_find,
    implies_true, true_and]
  constructor
  · intro hzero
    apply hearly
    intro i hswap
    unfold IsSwapped at hswap
    rw [hzero] at hswap
    exact absurd BitVec.zero_and hswap
  · intro _ hswap
    constructor
    · exact fun i hi => wlp_exchange_fails (.ensure hswap hi)
    · exact fun hnone => hearly fun i _ => by simp [hnone]

theorem wlp_exec_fails (t : Target) (hc : c.Moves) :
    wlp (exec t e c) (fun _ _ => True) (fun _ u => CallFails s e c u) s := by
  cases c with
  | alloc pb flags => exact wlp_alloc_fails t
  | swapOut pb bForce => exact wlp_swapOut_fails t
  | swapIn pb => exact wlp_swapIn_fails t
  | ensure pb => exact wlp_ensure_fails t
  | _ => exact hc.elim

/-! ## When a failed call shows -/

theorem unchanged_of_whole (hb : SameBlocks s t) (hram : t.mRamData = s.mRamData) :
    Unchanged s t :=
  ⟨hb.blocks, hb.slots, fun _ _ => by rw [hram]⟩

/-- A page that was written at `a` is seen by no resident block, or it was there. -/
theorem unchanged_blit_iff {a : Nat} {p : Page} (hb : SameBlocks s t)
    (hram : t.mRamData = blit s.mRamData a p) : Unchanged s t ↔ ∀ q, s.Resident q →
      ∀ k l : Fin 4096, (s.blocks q).addr + k = a + l → p l = s.mRamData (a + l) := by
  constructor
  · intro h q hq
    have hpage := h.pages q hq
    rw [hram, window_blit_eq_iff] at hpage
    exact hpage
  · intro h
    refine ⟨hb.blocks, hb.slots, ?_⟩
    intro q hq
    rw [hram, window_blit_eq_iff]
    exact h q hq

theorem unchanged_coded_iff {a : Nat} (hb : SameBlocks s t)
    (hram : t.mRamData = blit s.mRamData a (codeBlockPage (window s.mRamData 4096 a))) :
    Unchanged s t ↔ ¬ ShowsPage s a := by
  rw [unchanged_blit_iff hb hram]
  constructor
  · intro h ⟨q, hq, k, l, hkl⟩
    exact codeBlockPage_ne _ l (h q hq k l hkl)
  · exact fun h q hq k l hkl => absurd ⟨q, hq, k, l, hkl⟩ h

theorem unchanged_partly_iff {i j : Nat} (hb : SameBlocks s t)
    (hram : t.mRamData = blit s.mRamData (i * 4096) (s.fetched e.load j (.ram (i * 4096)))) :
    Unchanged s t ↔ HidesRead s e i j :=
  unchanged_blit_iff hb hram

theorem Call.Exchanges.unique {i j : Nat} {x y : Option Nat} (h : c.Exchanges s e i x)
    (h' : c.Exchanges s e j y) : i = j ∧ x = y := by
  cases h with
  | alloc h =>
      cases h' with
      | alloc h' => simpa [h] using h'
  | swapIn _ h =>
      cases h' with
      | swapIn _ h' => simpa [h] using h'
  | ensure _ h =>
      cases h' with
      | ensure _ h' => simpa [h] using h'

theorem SwapFails.unchanged_iff {i : Nat} {inPF : Option Nat} (h : SwapFails s e i inPF t) :
    Unchanged s t ↔ (SwapBreaksWrite s e i inPF → ¬ ShowsPage s (i * 4096)) ∧
      ∀ j, SwapBreaksRead s e i inPF j → HidesRead s e i j := by
  cases h with
  | whole hb hram hw hr =>
      have hwhole := unchanged_of_whole hb hram
      exact iff_of_true hwhole ⟨fun h => absurd h hw, fun j h => absurd h (hr j)⟩
  | coded hb hram hw =>
      have hr : ∀ j, ¬ SwapBreaksRead s e i inPF j := by
        intro j ⟨hidle, _⟩
        obtain ⟨m, hm, _⟩ := hw
        simp [hm] at hidle
      rw [unchanged_coded_iff hb hram]
      exact ⟨fun h => ⟨fun _ => h, fun j hj => absurd hj (hr j)⟩, fun h => h.1 hw⟩
  | @partly j hb hram hr =>
      have hw : ¬ SwapBreaksWrite s e i inPF := by
        intro ⟨m, hm, _⟩
        have hidle := hr.1
        simp [hm] at hidle
      have hsame : ∀ j', SwapBreaksRead s e i inPF j' → j' = j := by
        intro j' hr'
        obtain ⟨-, pf, hpf, hj, -⟩ := hr
        obtain ⟨-, pf', hpf', hj', -⟩ := hr'
        obtain rfl : pf = pf' := by simpa [hpf] using hpf'
        rw [hj, hj']
      rw [unchanged_partly_iff hb hram]
      refine ⟨fun h => ⟨fun h' => absurd h' hw, ?_⟩, fun h => h.2 j hr⟩
      intro j' hr'
      rwa [hsame j' hr']

/-- A call that fails leaves what the blocks see exactly when no write of a page that a
resident block has breaks off, and no read that breaks off brings a resident block other
bytes. -/
theorem failed_unchanged_iff (t : Target) {r : HRESULT} {u : RamManager} (hc : c.Moves)
    (h : exec t e c s = some (.error r, u)) :
    Unchanged s u ↔ (∀ a, c.BreaksWrite s e a → ¬ ShowsPage s a) ∧
      ∀ i j, c.BreaksRead s e i j → HidesRead s e i j := by
  have hwlp := wlp_exec_fails (s := s) (e := e) t hc
  have hfails := wlp_error hwlp h
  cases hfails with
  | early hb hram hx hw =>
      have hwhole := unchanged_of_whole hb hram
      exact iff_of_true hwhole
        ⟨fun a ha => absurd ha (hw a), fun i j ⟨inPF, hin, _⟩ => absurd hin (hx i inPF)⟩
  | @swap i inPF hx hswap =>
      rw [hswap.unchanged_iff]
      constructor
      · intro ⟨hwrite, hread⟩
        constructor
        · intro a ha
          cases ha with
          | swap hx' hw =>
              obtain ⟨hi, hin⟩ := hx.unique hx'
              rw [← hi]
              rw [← hi, ← hin] at hw
              exact hwrite hw
          | swapOut _ _ _ => cases hx
        · intro i' j ⟨inPF', hx', hr⟩
          obtain ⟨hi, hin⟩ := hx.unique hx'
          rw [← hi]
          rw [← hi, ← hin] at hr
          exact hread j hr
      · intro ⟨hwrite, hread⟩
        exact ⟨fun hw => hwrite _ (.swap hx hw), fun j hr => hread i j ⟨inPF, hx, hr⟩⟩
  | @swapOut pb bForce hout hb hram hw =>
      have hx : ∀ i inPF, ¬ c.Exchanges s e i inPF := by
        intro i inPF hx
        rw [hout] at hx
        cases hx
      rw [unchanged_coded_iff hb hram]
      constructor
      · intro h
        constructor
        · intro a ha
          cases ha with
          | swap hx' _ => exact absurd hx' (hx _ _)
          | swapOut _ _ _ =>
              obtain ⟨rfl, -⟩ : _ = pb ∧ _ := by simpa using hout
              exact h
        · exact fun i j ⟨inPF, hx', _⟩ => absurd hx' (hx i inPF)
      · exact fun h => h.1 _ hw

/-- In a well-formed state a slot in use holds the page of a resident block, and a free one
does not. -/
theorem failed_unchanged_iff_of_invariant (t : Target) {r : HRESULT} {u : RamManager}
    (hs : s.Invariant) (hc : c.Moves) (hsafe : c.Safe s e)
    (h : exec t e c s = some (.error r, u)) :
    Unchanged s u ↔ ∀ a, ¬ c.BreaksWrite s e a := by
  have hshows : ∀ {i q : Nat}, s.mBlocks[i]? = some (some q) → ShowsPage s (i * 4096) := by
    intro i q hq
    have hslot := (hs.slot_iff i q).1 hq
    exact ⟨q, resident_of_slot hslot, 0, 0, by rw [(hs.addr_lt hslot).2]⟩
  have hhides : ∀ i j, c.BreaksRead s e i j → HidesRead s e i j := by
    intro i j ⟨inPF, hx, hidle, _⟩ q hq k l hkl
    obtain ⟨i', hi'⟩ := resident_iff.1 hq
    have hsame : i' = i := by
      have haddr := (hs.addr_lt hi').2
      omega
    rw [← hsame, (hs.slot_iff i' q).2 hi'] at hidle
    simp at hidle
  rw [failed_unchanged_iff t hc h]
  constructor
  · intro ⟨hwrite, _⟩ a ha
    apply hwrite a ha
    cases ha with
    | swap _ hw =>
        obtain ⟨m, hm, _⟩ := hw
        exact hshows hm
    | @swapOut pb bForce hres _ _ =>
        exact ⟨pb, ⟨hsafe, hres⟩, 0, 0, rfl⟩
  · exact fun h => ⟨fun a ha => absurd ha (h a), hhides⟩

/-- The page file takes no byte of a page. -/
def fullDisk : Env := ⟨fun _ => 0, .ok, .short 0⟩

/-- The page file is not found. -/
def lostDisk : Env := ⟨fun _ => 0, .noSeek, .noSeek⟩

/-- A swap-in that does not find the page leaves what the blocks see. -/
theorem failed_unchanged_oneSlot : ∃ s u,
    Run (When (fun s v => v.call.Proper s) (step .x64)) oneSlot
      [⟨.swapOut 0 false, quiet, .ok []⟩, ⟨.alloc 0 0#32, quiet, .ok []⟩] s ∧
    exec .x64 lostDisk (.swapIn 0) s = some (.error .E_FAIL, u) ∧ Unchanged s u := by
  have hrun : ∃ s u, Run (When (fun s v => v.call.Proper s) (step .x64)) oneSlot
      [⟨.swapOut 0 false, quiet, .ok []⟩, ⟨.alloc 0 0#32, quiet, .ok []⟩] s ∧
      exec .x64 lostDisk (.swapIn 0) s = some (.error .E_FAIL, u) :=
    ⟨_, _, .snoc (.snoc .nil ⟨by decide, rfl⟩) ⟨by decide, rfl⟩, rfl⟩
  have hseeks : ∀ j, seeks .noSeek j = false := fun _ => by simp [seeks]
  obtain ⟨s, u, hrun, hfail⟩ := hrun
  have hmoves : (Call.swapIn 0).Moves := trivial
  refine ⟨s, u, hrun, hfail, (failed_unchanged_iff .x64 hmoves hfail).2 ⟨?_, ?_⟩⟩
  · intro a ha
    cases ha with
    | swap hx hw =>
        obtain ⟨m, -, -, hw⟩ := hw
        cases hx with
        | swapIn _ _ => simp [lostDisk] at hw
  · intro i j ⟨_, _, _, _, _, _, hr, _⟩
    rw [show lostDisk.load = .noSeek from rfl, hseeks] at hr
    simp at hr

/-- A swap-out whose write fails leaves the page of the block coded. -/
theorem failed_swapOut_changes_page : ∃ s u,
    Run (When (fun s v => v.call.Proper s) (step .x64)) oneSlot
      [⟨.alloc 0 0#32, quiet, .ok []⟩] s ∧
    exec .x64 fullDisk (.swapOut 0 false) s = some (.error .E_FAIL, u) ∧ ¬ Unchanged s u ∧
    (exec .x64 quiet (.directRead 0 0 1) s).map Prod.fst = some (.ok [0x00]) ∧
    (exec .x64 quiet (.directRead 0 0 1) u).map Prod.fst = some (.ok [0x01]) := by
  refine ⟨_, _, .snoc .nil ⟨by decide, rfl⟩, rfl, ?_, rfl, rfl⟩
  intro h
  have hpage := congrFun (h.pages 0 (by decide)) 0
  exact absurd hpage (by decide)

end Vin64.Vram
