import Vin64.Vram.Proofs.Calls
import Vin64.Vm.Proofs.Walk

/-!
# New tables

What `alloc_pgt_block` gets from the manager, and when that is a table of its own without
entries.
-/

namespace Vin64.Vm

open Vin64.Lib Vin64.Lib.Op Vin64.Utils Vin64.Vram Vin64.Vram.RamManager

variable {x : X64} {s u : RamManager} {e : Env} {p i : Nat} {flags : BitVec 32}

/-! ## What the manager gives -/

/-- Block `p` takes slot `i`. -/
structure Takes (s u : RamManager) (p i : Nat) (flags : BitVec 32) : Prop where
  bound : i < s.mBlocks.length
  slots : u.mBlocks = s.mBlocks.set i (some p)
  addr : (u.blocks p).addr = ramAddress i
  flags : (u.blocks p).flags = flags &&& BF_LOCKED ||| BF_VALID
  kept : ∀ q, q ≠ p → s.mBlocks[i]? ≠ some (some q) → u.blocks q = s.blocks q
  bytes : ∀ k, k ≠ i → u.slotPage k = s.slotPage k
  page : u.slotPage i = if s.mBlocks[i]? = some none then s.slotPage i else fun _ => 0

/-- An allocation failed: only the page in the slot it chose may have changed. -/
structure Misses (s u : RamManager) (change : Nat → Bool) : Prop where
  slots : u.mBlocks = s.mBlocks
  blocks : u.blocks = s.blocks
  bytes : ∀ k, findFreeOrSwappable s change ≠ some k → u.slotPage k = s.slotPage k

theorem Misses.refl (s : RamManager) (change : Nat → Bool) : Misses s s change :=
  ⟨rfl, rfl, fun _ _ => rfl⟩

/-- Slot `i` is free, or it becomes so. -/
structure Frees (s u : RamManager) (i : Nat) : Prop where
  slots : u.mBlocks = s.mBlocks.set i none
  kept : ∀ q, s.mBlocks[i]? ≠ some (some q) → u.blocks q = s.blocks q
  bytes : ∀ k, k ≠ i → u.slotPage k = s.slotPage k
  page : u.slotPage i = if s.mBlocks[i]? = some none then s.slotPage i else fun _ => 0

theorem frees_idle (h : s.mBlocks[i]? = some none) : Frees s s i where
  slots := by
    obtain ⟨hlt, hget⟩ := List.getElem?_eq_some_iff.1 h
    have hset := List.set_getElem_self hlt
    rw [hget] at hset
    exact hset.symm
  kept := fun _ _ => rfl
  bytes := fun _ _ => rfl
  page := by rw [if_pos h]

theorem frees_vacated {m : Nat} (h : s.mBlocks[i]? = some (some m)) : Frees s (s.vacated i m) i where
  slots := rfl
  kept := by
    intro q hq
    have hne : q ≠ m := by
      rintro rfl
      exact hq h
    exact Function.update_of_ne hne _ _
  bytes := fun k hk => slotPage_stowed_ne (s := s.prealloc) (j := s.nextPF) m (fun _ => 0) hk
  page := by
    rw [h, if_neg (by simp)]
    exact slotPage_stowed_self (s := s.prealloc) (j := s.nextPF) m fun _ => 0

theorem wlp_swap_frees (hi : findFreeOrSwappable s e.change = some i) :
    wlp (swapRamAndPageFile e i none) (fun _ u => Frees s u i)
      (fun _ u => Misses s u e.change) s := by
  have hchosen : ∀ k, findFreeOrSwappable s e.change ≠ some k → k ≠ i := by
    rintro k hk rfl
    exact hk hi
  rw [swap_none_eq]
  apply wlp_swap_none
  · exact fun hidle => frees_idle hidle
  · exact fun m hm _ => frees_vacated hm
  · exact fun _ _ _ => Misses.refl s e.change
  · exact fun _ => ⟨rfl, rfl, fun _ _ => rfl⟩
  · intro m _ _ _ _
    refine ⟨rfl, rfl, fun k hk => ?_⟩
    exact slotPage_stored_ne (s := s.prealloc) _ s.nextPF (hchosen k hk)

theorem wlp_alloc_takes : wlp (ramAllocAddress e p flags)
    (fun _ u => ∃ i, findFreeOrSwappable s e.change = some i ∧ Takes s u p i flags)
    (fun _ u => Misses s u e.change) s := by
  simp only [ramAllocAddress, wlp_bind, wlp_find]
  refine ⟨fun i hi => ?_, fun _ => Misses.refl s e.change⟩
  apply wlp_mono (wlp_swap_frees hi)
  · intro _ u hu
    simp only [wlp_modifyBlock, wlp_setSlot]
    intro _
    exact ⟨i, hi,
      { bound := (find_chosen hi).1
        slots := by rw [hu.slots, List.set_set]
        addr := by simp
        flags := by simp
        kept := fun q hqp hq => (Function.update_of_ne hqp _ _).trans (hu.kept q hq)
        bytes := hu.bytes
        page := hu.page }⟩
  · exact fun _ _ hu => hu

/-! ## The block of a table -/

theorem findLoop_congr {blocks blocks' : Nat → RamBlock}
    (h : ∀ q, (blocks q).flags = (blocks' q).flags) (change : Nat → Bool) (n : Nat)
    (xs : List (Option Nat)) (k swapid : Nat) :
    findLoop blocks change n xs k swapid = findLoop blocks' change n xs k swapid := by
  induction xs generalizing k swapid with
  | nil => rfl
  | cons v xs ih =>
      cases v with
      | none => rfl
      | some q =>
          rw [findLoop, findLoop, h q]
          split_ifs <;> exact ih _ _

/-- An object that is not in use plays no part in the search. -/
theorem find_new (h : (s.blocks p).flags = 0#32) (change : Nat → Bool) :
    findFreeOrSwappable { s with blocks := Function.update s.blocks p ⟨0#32, 0, 0, none⟩ } change =
      findFreeOrSwappable s change := by
  unfold findFreeOrSwappable
  simp only
  have hflags : ∀ q, (Function.update s.blocks p ⟨0#32, 0, 0, none⟩ q).flags = (s.blocks q).flags := by
    intro q
    by_cases hq : q = p
    · rw [hq, Function.update_self, h]
    · rw [Function.update_of_ne hq]
  rw [findLoop_congr hflags]

/-- The slot of a new table of level `l`: no table is in it, and if it is free its page has no
present entry. -/
def Spares (x : X64) (e : PgtEnv) (l : Fin 4) (t : PageTable) : Prop :=
  ∀ i ∈ findFreeOrSwappable t.mgr (e.mgr l).change,
    (∀ q ∈ t.pages, t.mgr.mBlocks[i]? ≠ some (some q)) ∧
    (t.mgr.mBlocks[i]? = some none → ∀ k, (x.level l).P (entryOf (t.mgr.slotPage i) k) = false)

/-- A free slot that is chosen holds a page of zeros. -/
def ZeroFilled (e : PgtEnv) (l : Fin 4) (t : PageTable) : Prop :=
  ∀ i ∈ findFreeOrSwappable t.mgr (e.mgr l).change,
    t.mgr.mBlocks[i]? = some none →
      ∀ (k : Fin 512) (b : Fin 8), entryOf (t.mgr.slotPage i) k b = 0

instance (x : X64) (e : PgtEnv) (l : Fin 4) : DecidablePred (Spares x e l) :=
  fun t => inferInstanceAs (Decidable (∀ i ∈ findFreeOrSwappable t.mgr (e.mgr l).change, _ ∧ _))

instance (e : PgtEnv) (l : Fin 4) : DecidablePred (ZeroFilled e l) :=
  fun t => inferInstanceAs (Decidable (∀ i ∈ findFreeOrSwappable t.mgr (e.mgr l).change, _ → _))

/-- No slot of a locked block is chosen. -/
theorem PageTable.Held.spares {t : PageTable} {pe : PgtEnv} {l : Fin 4} (h : t.Held)
    (hzero : ZeroFilled pe l t) : Spares x pe l t := by
  intro i hi
  constructor
  · intro q hq hslot
    exact h.locked q hq ((find_chosen hi).2 q hslot)
  · intro hidle k
    rw [funext (hzero i hi hidle k)]
    exact (x.level l).P_zero

theorem wlp_allocPgtBlock {t : PageTable} {pe : PgtEnv} {l : Fin 4} (h : Spares x pe l t) :
    wlp (allocPgtBlock pe l)
      (fun p u => ∃ i, findFreeOrSwappable t.mgr (pe.mgr l).change = some i ∧ Gains t u p i ∧
        ∀ k, (x.level l).P (entryOf (u.mgr.slotPage i) k) = false)
      (fun _ u => Stays t u) t := by
  unfold allocPgtBlock
  cases hnew : pe.new l with
  | none => exact Stays.refl t
  | some p =>
      simp only [wlp_bind, wlp_get, wlp_ite, wlp_fault, implies_true, true_and, wlp_attempt, onRam,
        wlp_zoom, wlp_modifyBlock]
      intro huse
      obtain ⟨hout, hzero⟩ := not_or.1 huse
      rw [not_not] at hzero
      have hne : ∀ q ∈ t.pages, q ≠ p := by
        rintro q hq rfl
        exact hout hq
      have hfind := find_new hzero (pe.mgr l).change
      apply wlp_mono (wlp_alloc_takes (e := pe.mgr l))
      · intro _ u hu
        obtain ⟨i, hi, htakes⟩ := hu
        rw [hfind] at hi
        obtain ⟨hfree, hidle⟩ := h i hi
        simp only [wlp_modify, wlp_pure]
        refine ⟨i, hi, ⟨rfl, rfl, hout, htakes.bound, hfree, htakes.slots, htakes.addr, ?_, ?_,
          htakes.bytes⟩, ?_⟩
        · refine htakes.flags.trans ?_
          congr 1
          split_ifs <;> decide
        · intro q hq
          exact (htakes.kept q (hne q hq) (hfree q hq)).trans (Function.update_of_ne (hne q hq) _ _)
        · intro k
          show (x.level l).P (entryOf (u.slotPage i) k) = false
          rw [htakes.page]
          split
          · exact hidle ‹_› k
          · rw [entryOf_zero]
            exact (x.level l).P_zero
      · intro _ u hu
        refine ⟨rfl, rfl, hu.slots, ?_, ?_⟩
        · intro q hq
          show u.blocks q = t.mgr.blocks q
          rw [hu.blocks]
          exact Function.update_of_ne (hne q hq) _ _
        · intro q hq k hk
          apply hu.bytes k
          intro hchosen
          rw [hfind] at hchosen
          exact (h k hchosen).1 q hq hk

section AllocWhen

variable (P : PgtEnv → Fin 4 → PageTable → Prop) [∀ pe l, DecidablePred (P pe l)]

/-- The allocator as long as the slots it chooses meet a condition. -/
def allocWhen (pe : PgtEnv) (l : Fin 4) : Walk Nat := assuming (P pe l) (allocPgtBlock pe l)

theorem allocWhen_eq {pe : PgtEnv} {l : Fin 4} {t : PageTable} (h : P pe l t) :
    allocWhen P pe l t = allocPgtBlock pe l t := if_pos h

theorem refines_allocWhen (pe : PgtEnv) (l : Fin 4) :
    Refines (allocWhen P pe l) (allocPgtBlock pe l) := refines_assuming _ _

end AllocWhen

/-- A condition under which no slot of another table is chosen and the free ones are empty. -/
theorem serves_of {need : Prop} {P : PgtEnv → Fin 4 → PageTable → Prop}
    [∀ pe l, DecidablePred (P pe l)] (pe : PgtEnv)
    (h : ∀ l t, (need → t.Held) → P pe l t → Spares x pe l t) : Serves x need (allocWhen P pe) := by
  intro l t hneed
  unfold allocWhen
  rw [wlp_assuming]
  intro hP
  apply wlp_mono (wlp_allocPgtBlock (h l t hneed hP))
  · intro p u hu
    obtain ⟨i, _, hgain⟩ := hu
    exact ⟨i, hgain⟩
  · exact fun _ _ hu => hu

theorem serves_spares (pe : PgtEnv) : Serves x False (allocWhen (Spares x) pe) :=
  serves_of pe fun _ _ _ h => h

theorem serves_zeroFilled (pe : PgtEnv) : Serves x True (allocWhen ZeroFilled pe) :=
  serves_of pe fun _ _ hheld hzero => (hheld trivial).spares hzero

end Vin64.Vm
