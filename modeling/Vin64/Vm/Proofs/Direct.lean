import Vin64.Vm.Proofs.Clients
import Vin64.Vram.Proofs.Direct

/-!
# Direct accesses in both managers

`RamDirectAccess` of the test program takes the buffer at the index of the slot; everything
else takes it at the address.
-/

namespace Vin64.Vm

open Vin64.Lib Vin64.Lib.Op Vin64.Utils Vin64.Vram Vin64.Vram.RamManager

variable {s : RamManager} {P : RamManager → Prop}

/-! ## What every step keeps -/

theorem ramAddress_le (i : Nat) : ramAddress i ≤ i * 4096 := Nat.mod_le _ _

theorem frames_find (change : Nat → Bool) : Frames (findFreeOrSwappableAddress change) := by
  intro v
  apply Preserves.get.bind
  intro s
  cases findFreeOrSwappable s change with
  | none => exact .fail _
  | some i => exact .pure i

theorem swap_eq_exchange (e : Env) (i : Nat) (inPF : Option Nat) :
    swapRamAndPageFile e i inPF = exchange e.transfers i (ramAddress i) inPF := rfl

section Steps

variable (hP : Stable P)

include hP

theorem preserves_swap (e : Env) (i : Nat) (inPF : Option Nat) :
    Preserves P (swapRamAndPageFile e i inPF) := by
  rw [swap_eq_exchange]
  exact hP.exchange e.transfers inPF (ramAddress_le i)

theorem preserves_alloc (e : Env) (pref : Nat) (flags : BitVec 32) :
    Preserves P (ramAllocAddress e pref flags) := by
  apply (hP.of_frames (frames_find _)).bind
  intro i
  apply (preserves_swap hP e i none).bind
  exact fun _ => hP.places pref fun _ => ramAddress_le i

theorem preserves_freeBody (pref : Nat) : Preserves P (ramFreeBody pref) := by
  apply (hP.of_frames (frames_blockAt pref)).bind
  intro b
  have hfreed := hP.drops pref (f := fun b => { b with flags := 0#32, addr := 0, swapid := 0 })
    fun _ => .inl rfl
  apply Preserves.ite
  · exact (hP.of_frames (frames_mark _ _)).bind fun _ => hfreed
  · apply (hP.of_frames (frames_onBlockInvalid pref)).bind
    exact fun _ => (hP.of_frames (frames_setSlot _ _)).bind fun _ => hfreed

theorem preserves_swapOutBody (e : Env) (pref : Nat) : Preserves P (ramSwapOutBody e pref) :=
  (hP.of_frames (frames_blockAt pref)).bind fun _ => hP.stores _ _ _ _

theorem preserves_swapInBody (e : Env) (pref : Nat) : Preserves P (ramSwapInBody e pref) := by
  apply (hP.of_frames (frames_blockAt pref)).bind
  intro b
  have hswap := fun i => preserves_swap hP e i (some pref)
  exact .ite ((Preserves.pure _).bind hswap) ((hP.of_frames (frames_find _)).bind hswap)

theorem preserves_access (e : Env) (pref : Nat) (o : Option Buffer) :
    Preserves P (ramDirectAccess e pref o) := by
  apply (hP.of_frames (frames_blockAt pref)).bind
  intro b
  apply Preserves.ite (.fail _)
  apply Preserves.ite _ (.pure _)
  cases o with
  | some o => exact (hP.of_frames (frames_load _ _ _)).bind fun _ => .pure o
  | none =>
      have hin : Preserves P (ramSwapIn e pref) :=
        (hP.of_frames (frames_blockAt pref)).bind fun _ =>
          .ite (.pure _) (preserves_swapInBody hP e pref)
      exact hin.bind fun _ => (hP.of_frames (frames_blockAt pref)).bind fun _ => .pure _

theorem preserves_resume (e : Env) (pending : Pending) : Preserves P (resume e pending) := by
  have hidle : ∀ {x : Ram Unit}, Preserves P x →
      Preserves P (x >>= fun _ => (pure .idle : Ram Pending)) :=
    fun h => h.bind fun _ => .pure _
  cases pending with
  | idle => exact .pure _
  | swapOut pref => exact hidle (preserves_swapOutBody hP e pref)
  | swapIn pref => exact hidle (preserves_swapInBody hP e pref)
  | free pref => exact hidle (preserves_freeBody hP pref)
  | ensureFind pref => exact (hP.of_frames (frames_find _)).bind fun _ => .pure _
  | ensureSwap pref i => exact hidle (preserves_swap hP e i _)

theorem preserves_perform (t : Target) (e : Env) (pending : Pending) (a : Act) :
    Preserves P (perform t e pending a) := by
  have htest : ∀ a, Preserves P (do let s ← get; return test s a : Ram Pending) :=
    fun a => Preserves.get.bind fun _ => .pure _
  cases a with
  | testSwapOut pref bForce => exact htest _
  | testSwapIn pref => exact htest _
  | testFree pref => exact htest _
  | testEnsure pref => exact htest _
  | alloc pref flags => exact (preserves_alloc hP e pref flags).bind fun _ => .pure _
  | directAccess pref => exact (preserves_access hP e pref none).bind fun _ => .pure _
  | directWrite pref off p cb =>
      exact (hP.writes (preserves_access hP e pref _) t _ _ _ _ _).bind fun _ => .pure _
  | directRead pref off cb =>
      exact (hP.reads (preserves_access hP e pref _) t off cb).bind fun _ => .pure _
  | resume => exact preserves_resume hP e pending

end Steps

/-- In every state that the clients reach, the blocks that are not swapped out lie in the RAM. -/
theorem run_housed {t : Target} {x y : System} {vs : List ClientStep} (hx : Ready x)
    (hrun : Run (clientStep t) x vs y) : y.mgr.Housed := by
  apply hrun.invariant (P := fun y => y.mgr.Housed)
  · exact fun p hflags _ => absurd (hx.unused p) hflags
  · intro y v z hy hstep
    obtain ⟨-, -, r, hr, -⟩ := hstep
    exact (preserves_perform stable_housed t v.env _ v.act).result hy hr

/-! ## The bytes of a direct write or read -/

theorem access_eq_tempAccess (e : Env) (pref : Nat) :
    ramDirectAccess e pref (some .temp) = tempAccess e.load (· / VM_PAGE_SIZE) pref := rfl

/-- A direct call, of either manager. -/
theorem copies_exec {t : Target} {load store : Access} {base : Nat → Nat} {c : Call}
    {off cb : Nat} (hc : c.range = some (off, cb)) {run : Call → Ram (List UInt8)}
    (hwrite : ∀ pb off p cb, run (.directWrite pb off p cb) =
      writeThrough t (tempAccess load base pb) store pb off p cb >>= fun _ => pure [])
    (hread : ∀ pb off cb, run (.directRead pb off cb) =
      readThrough t (tempAccess load base pb) off cb) :
    Copies t (tempAccess load base (blockOf c)) (run c) off cb s := by
  cases c with
  | directWrite pb o p n =>
      obtain ⟨rfl, rfl⟩ := Prod.mk.inj (Option.some.inj hc)
      rw [hwrite]
      exact copies_write t _ store pb o p n s fun b v h hswap => tempAccess_temp h hswap
  | directRead pb o n =>
      obtain ⟨rfl, rfl⟩ := Prod.mk.inj (Option.some.inj hc)
      rw [hread]
      exact copies_read t _ o n s
  | alloc pb flags => cases hc
  | free pb => cases hc
  | swapOut pb bForce => cases hc
  | swapIn pb => cases hc
  | ensure pb => cases hc
  | directAccess pb => cases hc

/-- `RamDirectAccess` gives the buffer at the address; what is written through the block
shows there, and neither there nor in a read of another block. -/
structure PathsAgree (t : Target) (s : RamManager) : Prop where
  pointer : ∀ e p o, s.Resident p →
    ramDirectAccess e p o s = some (.ok (getRamBuffer (s.blocks p).addr), s)
  visible : ∀ e p off data cb, s.Resident p → off + cb ≤ VM_PAGE_SIZE →
    ∃ u, ramDirectWrite t e p off data cb s = some (.ok (), u) ∧
      ∀ k < cb, u.mRamData ((s.blocks p).addr + off + k) = data k
  apart : ∀ e p off data cb q u, s.Resident p → s.Resident q → p ≠ q → off + cb ≤ VM_PAGE_SIZE →
    ramDirectWrite t e p off data cb s = some (.ok (), u) →
    u.page (getRamBuffer (s.blocks q).addr) = s.page (getRamBuffer (s.blocks q).addr) ∧
      ∀ e' off' cb', (ramDirectRead t e' q off' cb' u).map Prod.fst =
        (ramDirectRead t e' q off' cb' s).map Prod.fst

theorem access_resident {e : Env} {p : Nat} (o : Option Buffer) (h : s.Resident p) :
    ramDirectAccess e p o s =
      some (.ok (getRamBuffer ((s.blocks p).addr / VM_PAGE_SIZE)), s) := by
  have hblock : (blockAt p : Ram RamBlock) s = some (.ok (s.blocks p), s) := rfl
  have hres : ¬ (s.blocks p).flags &&& BF_SWAPPED ≠ 0#32 := h.2
  unfold ramDirectAccess
  rw [bind_ok hblock, if_neg (flags_ne_of_valid h.1), if_neg hres]
  rfl

/-- A write to a resident block goes to the buffer at the index of its slot. -/
theorem write_resident (t : Target) (e : Env) {p off cb : Nat} (data : Nat → UInt8)
    (hs : s.Housed) (h : s.Resident p) (hle : off + cb ≤ VM_PAGE_SIZE) :
    ramDirectWrite t e p off data cb s =
      some (.ok (), s.setPage (.ram ((s.blocks p).addr / VM_PAGE_SIZE))
        (overwrite (s.page (.ram ((s.blocks p).addr / VM_PAGE_SIZE))) off data cb)) := by
  have hsmall : ¬ (off + cb) % 2 ^ t.sizeBits > VM_PAGE_SIZE :=
    Nat.not_lt.2 (Nat.le_trans (Nat.mod_le _ _) hle)
  have hholds : s.Holds (.ram ((s.blocks p).addr / VM_PAGE_SIZE)) := by
    have hslot : (s.blocks p).addr + VM_PAGE_SIZE ≤ s.ramSize := hs p (flags_ne_of_valid h.1) h.2
    have hdiv := Nat.div_le_self (s.blocks p).addr VM_PAGE_SIZE
    show (s.blocks p).addr / VM_PAGE_SIZE + VM_PAGE_SIZE ≤ s.ramSize
    omega
  have hres : (s.blocks p).flags &&& BF_SWAPPED = 0#32 := Classical.not_not.1 h.2
  have hwp : wp (ramDirectWrite t e p off data cb) (fun _ u =>
      u = s.setPage (.ram ((s.blocks p).addr / VM_PAGE_SIZE))
        (overwrite (s.page (.ram ((s.blocks p).addr / VM_PAGE_SIZE))) off data cb))
      (fun _ _ => False) s := by
    unfold ramDirectWrite
    rw [if_neg hsmall, wp_bind, wp_of_ok (access_resident _ h)]
    simp only [copyInto, getRamBuffer, wp_bind, wp_readPage, hle, if_true, wp_writePage, wp_blockAt]
    refine ⟨hholds, hholds, ?_⟩
    show wp (if (s.blocks p).flags &&& BF_SWAPPED = 0#32 then (pure () : Ram Unit) else _) _ _ _
    rw [if_pos hres]
    rfl
  obtain ⟨_, u, hr, hu⟩ := ok_of_wp hwp
  rw [hr, hu]

/-- A write to the block at address 0 shows there. -/
theorem write_at_zero (t : Target) (e : Env) {p off cb : Nat} (data : Nat → UInt8)
    (hs : s.Housed) (h : s.Resident p) (hzero : (s.blocks p).addr = 0)
    (hle : off + cb ≤ VM_PAGE_SIZE) : ∃ u, ramDirectWrite t e p off data cb s = some (.ok (), u) ∧
      ∀ k < cb, u.mRamData (off + k) = data k := by
  refine ⟨_, write_resident t e data hs h hle, fun k hk => ?_⟩
  have hdiv : (s.blocks p).addr / VM_PAGE_SIZE = 0 := by rw [hzero, Nat.zero_div]
  rw [hdiv]
  have hin : 0 ≤ off + k ∧ off + k - 0 < 4096 := by
    unfold VM_PAGE_SIZE at hle
    omega
  have hrange : off ≤ off + k ∧ off + k < off + cb := by omega
  show blit s.mRamData 0 _ (off + k) = data k
  unfold blit
  rw [dif_pos hin]
  unfold overwrite
  simp [hrange]

/-- The two ways to a page agree exactly when at most one block is resident, and that at
address 0. -/
theorem pathsAgree_iff {t : Target} {x y : System} {vs : List ClientStep} (hx : Ready x)
    (hrun : Run (clientStep t) x vs y) : PathsAgree t y.mgr ↔
      ∀ p, y.mgr.Resident p → (y.mgr.blocks p).addr = 0 ∧ ∀ q, y.mgr.Resident q → q = p := by
  have hs := run_housed hx hrun
  constructor
  · intro h
    have hzero : ∀ p, y.mgr.Resident p → (y.mgr.blocks p).addr = 0 := by
      intro p hp
      have hsame := h.pointer ⟨fun _ => false, .ok, .ok⟩ p none hp
      rw [access_resident none hp] at hsame
      have haddr : (y.mgr.blocks p).addr / VM_PAGE_SIZE = (y.mgr.blocks p).addr := by
        simpa [getRamBuffer] using hsame
      unfold VM_PAGE_SIZE at haddr
      omega
    intro p hp
    refine ⟨hzero p hp, fun q hq => ?_⟩
    by_contra hne
    have hbound : 0 + 1 ≤ VM_PAGE_SIZE := by decide
    -- a byte that is not there is written through the one block and shows at the other
    obtain ⟨u, hu, hshows⟩ := write_at_zero t ⟨fun _ => false, .ok, .ok⟩
      (fun _ => y.mgr.mRamData 0 + 1) hs hp (hzero p hp) hbound
    have hapart := (h.apart _ p 0 _ 1 q u hp hq (Ne.symm hne) (by decide) hu).1
    rw [hzero q hq] at hapart
    have hbyte : u.mRamData 0 = y.mgr.mRamData 0 := congrFun hapart 0
    rw [hshows 0 Nat.one_pos] at hbyte
    simp at hbyte
  · intro h
    constructor
    · intro e p o hp
      rw [access_resident o hp, (h p hp).1]
      rfl
    · intro e p off data cb hp hle
      rw [(h p hp).1, Nat.zero_add]
      exact write_at_zero t e data hs hp (h p hp).1 hle
    · intro e p off data cb q u hp hq hne
      exact absurd ((h p hp).2 q hq).symm hne

/-- One block in the one slot. -/
theorem pathsAgree_oneSlot : ∃ y, Run (clientStep .x64) oneSlotSystem [⟨0, .alloc 7 0#32, calm⟩] y ∧
    y.mgr.Resident 7 ∧ PathsAgree .x64 y.mgr := by
  have hrun : ∃ y, Run (clientStep .x64) oneSlotSystem [⟨0, .alloc 7 0#32, calm⟩] y ∧
      y.mgr.Resident 7 ∧ (y.mgr.blocks 7).addr = 0 ∧
      ∀ p, p ≠ 7 → (y.mgr.blocks p).flags = 0#32 := by
    have hstep := (oneSlotSystem_run fun _ _ => True).snoc (v := ⟨0, .alloc 7 0#32, calm⟩) trivial
      (.inl rfl) rfl (by simp)
    refine ⟨_, hstep.1.mono fun _ _ _ h => h.2, by decide, rfl, fun p hp => ?_⟩
    show (Function.update oneSlot.blocks 7 _ p).flags = 0#32
    rw [Function.update_of_ne hp]
    rfl
  obtain ⟨y, hy, hres, haddr, hrest⟩ := hrun
  have hall : ∀ p, y.mgr.Resident p → p = 7 := by
    intro p hp
    by_contra hne
    exact flags_ne_of_valid hp.1 (hrest p hne)
  refine ⟨y, hy, hres, (pathsAgree_iff oneSlotSystem_ready hy).2 fun p hp => ?_⟩
  obtain rfl := hall p hp
  exact ⟨haddr, hall⟩

/-- Two slots and clients that have made no call. -/
def twoSlotSystem : System := ⟨{ Vram.oneSlot with mBlocks := [none, none] }, fun _ => .idle⟩

/-- A write to the second block shows in the page of the first. -/
theorem second_slot_shows_in_first : ∃ y u,
    Run (clientStep .x64) twoSlotSystem [⟨0, .alloc 1 0#32, calm⟩, ⟨0, .alloc 0 0#32, calm⟩] y ∧
    y.mgr.Resident 0 ∧ y.mgr.Resident 1 ∧
    ramDirectWrite .x64 calm 1 0 (fun _ => 7) 1 y.mgr = some (.ok (), u) ∧
    y.mgr.page (getRamBuffer (y.mgr.blocks 0).addr) 1 = 0 ∧
    u.page (getRamBuffer (y.mgr.blocks 0).addr) 1 = 7 ∧ ¬ PathsAgree .x64 y.mgr := by
  have hrun : ∃ y, RunNoFree (fun _ _ => True) .x64 twoSlotSystem
      [⟨0, .alloc 1 0#32, calm⟩, ⟨0, .alloc 0 0#32, calm⟩] y ∧
      y.mgr.Resident 0 ∧ y.mgr.Resident 1 ∧ (y.mgr.blocks 0).addr = 0 ∧
      (y.mgr.blocks 1).addr = 4096 ∧ y.mgr.mRamData 1 = 0 := by
    have hnil : RunNoFree (fun _ _ => True) .x64 twoSlotSystem [] twoSlotSystem :=
      ⟨.nil, fun _ _ h => by simp [twoSlotSystem] at h⟩
    exact ⟨_, (hnil.snoc trivial (.inl rfl) rfl (by simp)).snoc trivial (.inl rfl) rfl (by simp),
      by decide, by decide, rfl, rfl, rfl⟩
  obtain ⟨y, hrun, h₀, h₁, haddr₀, haddr₁, hbyte⟩ := hrun
  have hy := hrun.1.mono fun _ _ _ h => h.2
  have hs := run_housed ⟨fun _ => rfl, fun _ => rfl⟩ hy
  have hbound : 0 + 1 ≤ VM_PAGE_SIZE := by decide
  have hwrite := write_resident .x64 calm (fun _ => 7) hs h₁ hbound
  rw [haddr₁] at hwrite
  have hbefore : y.mgr.page (getRamBuffer 0) 1 = 0 := hbyte
  refine ⟨y, _, hy, h₀, h₁, hwrite, ?_, ?_, ?_⟩
  · rwa [haddr₀]
  · rw [haddr₀]
    rfl
  intro h
  have hapart := (h.apart _ 1 0 _ 1 0 _ h₁ h₀ (by decide) (by decide) hwrite).1
  rw [haddr₀] at hapart
  have hsame : 7 = y.mgr.page (getRamBuffer 0) 1 := congrFun hapart 1
  rw [hbefore] at hsame
  exact absurd hsame (by decide)

end Vin64.Vm
