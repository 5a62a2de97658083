import Vin64.Vm.Private
import Vin64.Vm.Proofs.Rules
import Vin64.Vram.Proofs.Calls

/-!
# Private memory and the pages that were moved

A block of `_blocks` is a copy that the manager does not know.  It is right as long as its
page stays where it was when the copy was made.
-/

namespace Vin64.Vm

open Vin64.Lib Vin64.Lib.Op Vin64.Utils Vin64.Vram Vin64.Vram.RamManager

variable {s : RamManager} {e : Env}

/-! ## A call -/

/-- The exchange that makes a slot free saves the page that was there. -/
theorem wlp_swap_saves (i : Nat) :
    wlp (swapRamAndPageFile e i none)
      (fun _ t => ∀ m, s.mBlocks[i]? = some (some m) → ∃ j, t.filePage j = s.slotPage i)
      (fun _ _ => True) s := by
  rw [swap_none_eq]
  apply wlp_swap_none
  · intro hidle m hm
    rw [hidle] at hm
    simp at hm
  · intro m _ _ _ _
    exact ⟨s.nextPF, filePage_stowed_self m fun _ => 0⟩
  all_goals intros; trivial

/-- What an allocation makes of its block. -/
theorem wlp_alloc_block (key : Nat) :
    wlp (ramAllocAddress e key 0)
      (fun _ t => ∃ i, findFreeOrSwappable s e.change = some i ∧
        (t.blocks key).addr = ramAddress i ∧ (t.blocks key).flags = BF_VALID ∧
        ∀ m, s.mBlocks[i]? = some (some m) → ∃ j, t.filePage j = s.slotPage i)
      (fun _ _ => True) s := by
  simp only [ramAllocAddress, wlp_bind, wlp_find]
  refine ⟨fun i hi => ?_, fun _ => trivial⟩
  apply wlp_mono (wlp_swap_saves i)
  · intro _ u hsaved
    simp only [wlp_modifyBlock, wlp_setSlot]
    intro _
    refine ⟨i, hi, ?_, ?_, hsaved⟩
    · simp
    · rw [Function.update_self]
      show 0#32 &&& BF_LOCKED ||| BF_VALID = BF_VALID
      decide
  · exact fun _ _ _ => trivial

/-- The manager when `key` was made. -/
def UoPrivate.keyed (x : UoPrivate) (key : Nat) : RamManager :=
  { x.mgr with blocks := Function.update x.mgr.blocks key ⟨0#32, 0, 0, some x.this⟩ }

/-- A call leaves `_blocks`, or it adds a copy of a block in the slot it chose, whose page it
saved. -/
theorem wlp_getPrivBlock (x : UoPrivate) (key vma : Nat) :
    wlp (getPrivBlock e key vma true)
      (fun _ y => y.blocks = x.blocks ∨ (x.blocks vma = none ∧
        ∃ i b, findFreeOrSwappable (x.keyed key) e.change = some i ∧
          y.blocks = Function.update x.blocks vma (some b) ∧ b.addr = ramAddress i ∧
          b.flags = BF_VALID ∧
          ∀ m, x.mgr.mBlocks[i]? = some (some m) → ∃ j, y.mgr.filePage j = x.mgr.slotPage i))
      (fun _ _ => False) x := by
  unfold getPrivBlock
  simp only [onMgr, privBlock, wlp_bind, wlp_zoom, wlp_modifyBlock, wlp_get]
  cases hv : x.blocks vma with
  | some b => exact .inl rfl
  | none =>
      simp only [not_true_eq_false, if_false, wlp_bind, wlp_zoom, wlp_modifyBlock, wlp_attempt,
        Function.update_self, Function.update_idem]
      apply wlp_mono (wlp_alloc_block key)
      · intro _ t ht
        obtain ⟨i, hi, haddr, hflags, hsaved⟩ := ht
        simp only [wlp_bind, wlp_get, hv, wlp_modify, wlp_pure]
        exact .inr ⟨trivial, i, t.blocks key, hi, rfl, haddr, hflags, hsaved⟩
      · exact fun _ _ _ => .inl rfl

/-! ## Runs -/

/-- Every copy is of a block in the slot that holds its page, and no two have one address. -/
structure PrivRun.Sound (x : PrivRun) : Prop where
  framed : ∀ v b, x.area.blocks v = some b →
    ∃ i, x.frames i = some v ∧ b.addr = ramAddress i ∧ b.flags = BF_VALID
  distinct : ∀ v w b c, x.area.blocks v = some b → x.area.blocks w = some c →
    b.addr = c.addr → v = w

theorem PrivRun.Sound.faithful {x : PrivRun} (h : x.Sound) : x.Faithful where
  unshared := fun v w b c hb hc _ _ => h.distinct v w b c hb hc
  marked := by
    intro v b hb
    obtain ⟨i, hi, _, hflags⟩ := h.framed v b hb
    have hplain : ¬ b.IsSwapped := by
      unfold RamBlock.IsSwapped
      rw [hflags]
      decide
    have hstays : ¬ x.Moved v := fun hmoved => hmoved i hi
    exact iff_of_false hplain hstays

/-- A call leaves the area, or adds a page in a slot whose page it saved. -/
theorem PrivRun.step_cases {x y : PrivRun} {c : PrivCall} (hstep : x.Step c y) :
    (y.area.blocks = x.area.blocks ∧ y.frames = x.frames) ∨
    (x.area.blocks c.vma = none ∧ ∃ i b, x.chosen c = some i ∧
      y.area.blocks = Function.update x.area.blocks c.vma (some b) ∧
      y.frames = Function.update x.frames i (some c.vma) ∧ b.addr = ramAddress i ∧
      b.flags = BF_VALID ∧
      ∀ m, x.area.mgr.mBlocks[i]? = some (some m) →
        ∃ j, y.area.mgr.filePage j = x.area.mgr.slotPage i) := by
  obtain ⟨⟨r, area⟩, hcall, hy⟩ := Option.bind_eq_some_iff.1 hstep
  obtain rfl : ⟨area, c.key :: x.dead, x.framesAfter c area⟩ = y := Option.some.inj hy
  have hwlp := wlp_getPrivBlock (e := c.env) { x.area with mgr := x.seen c } c.key c.vma
  cases r with
  | error _ => exact (wlp_error hwlp hcall).elim
  | ok r =>
      have hpost := wlp_ok hwlp hcall
      rcases hpost with hsame | ⟨hnew, i, b, hi, hblocks, haddr, hflags, hsaved⟩
      · left
        refine ⟨hsame, ?_⟩
        show x.framesAfter c area = x.frames
        rw [PrivRun.framesAfter, hsame]
        cases x.area.blocks c.vma <;> rfl
      · right
        have hchosen : x.chosen c = some i := hi
        refine ⟨hnew, i, b, hchosen, hblocks, ?_, haddr, hflags, hsaved⟩
        have hnew' : x.area.blocks c.vma = none := hnew
        show x.framesAfter c area = _
        rw [PrivRun.framesAfter, hnew', hblocks, Function.update_self, hchosen]

theorem PrivRun.step_sound {x y : PrivRun} {c : PrivCall} (h : x.Sound) (hfresh : x.FreshSlot c)
    (hstep : x.Step c y) : y.Sound := by
  rcases step_cases hstep with ⟨hblocks, hframes⟩ |
    ⟨hnew, i, b, hchosen, hblocks, hframes, haddr, hflags, _⟩
  · constructor
    · rw [hblocks, hframes]
      exact h.framed
    · rw [hblocks]
      exact h.distinct
  · have hother : ∀ v d, x.area.blocks v = some d → d.addr ≠ ramAddress i :=
      hfresh hnew i hchosen
    -- a block of the new set is the new one or one of the old set
    have hmem : ∀ v d, y.area.blocks v = some d →
        (v = c.vma ∧ d = b) ∨ (v ≠ c.vma ∧ x.area.blocks v = some d) := by
      intro v d hd
      rw [hblocks] at hd
      by_cases hv : v = c.vma
      · rw [hv, Function.update_self] at hd
        exact .inl ⟨hv, (Option.some.inj hd).symm⟩
      · rw [Function.update_of_ne hv] at hd
        exact .inr ⟨hv, hd⟩
    constructor
    · intro v d hd
      rcases hmem v d hd with ⟨rfl, rfl⟩ | ⟨_, hold⟩
      · exact ⟨i, by rw [hframes, Function.update_self], haddr, hflags⟩
      · obtain ⟨k, hk, hkaddr, hkflags⟩ := h.framed v d hold
        have hki : k ≠ i := by
          intro hki
          apply hother v d hold
          rw [hkaddr, hki]
        exact ⟨k, by rw [hframes, Function.update_of_ne hki, hk], hkaddr, hkflags⟩
    · intro v w d f hd hf heq
      rcases hmem v d hd with ⟨rfl, rfl⟩ | ⟨_, hold⟩ <;>
        rcases hmem w f hf with ⟨rfl, rfl⟩ | ⟨_, hold'⟩
      · rfl
      · exact absurd (heq.symm.trans haddr) (hother w f hold')
      · exact absurd (heq.trans haddr) (hother v d hold)
      · exact h.distinct v w d f hold hold' heq

/-- An area without blocks, on any manager. -/
structure PrivRun.Empty (x : PrivRun) : Prop where
  blocks : ∀ v, x.area.blocks v = none
  frames : ∀ i, x.frames i = none

/-- If no call for a new page chooses a slot with the address of a block that is kept, the
copies stay what the manager made of their pages. -/
theorem run_private_faithful {x y : PrivRun} {cs : List PrivCall} (hempty : x.Empty)
    (hrun : Run (When PrivRun.FreshSlot PrivRun.Step) x cs y) : y.Faithful := by
  have hsound : y.Sound := by
    apply hrun.invariant
    · constructor
      · intro v b hb
        rw [hempty.blocks] at hb
        simp at hb
      · intro v w b c hb
        rw [hempty.blocks] at hb
        simp at hb
    · exact fun x c y hx hstep => PrivRun.step_sound hx hstep.1 hstep.2
  exact hsound.faithful

/-! ## Two small runs -/

/-- An area on a manager of some slots. -/
def privArea (slots : Nat) : PrivRun :=
  ⟨⟨{ Vram.oneSlot with mBlocks := List.replicate slots none }, 7, fun _ => none⟩, [], fun _ => none⟩

theorem privArea_empty (slots : Nat) : (privArea slots).Empty := ⟨fun _ => rfl, fun _ => rfl⟩

/-- A call whose `key` lies at address 3. -/
def callPriv (vma : Nat) : PrivCall :=
  ⟨3, vma, ⟨fun _ => false, .ok, .ok⟩, fun _ => Vram.unusedBlock⟩

/-- With two slots the second page goes to the other slot. -/
theorem run_private_faithful_twoSlots : ∃ y,
    Run (When PrivRun.FreshSlot PrivRun.Step) (privArea 2) [callPriv 0x1000, callPriv 0] y ∧
      y.Faithful ∧ (y.area.blocks 0).map RamBlock.addr = some 0 ∧
      (y.area.blocks 0x1000).map RamBlock.addr = some 0x1000 := by
  have hrun : ∃ y, Run (When PrivRun.FreshSlot PrivRun.Step) (privArea 2)
      [callPriv 0x1000, callPriv 0] y ∧ (y.area.blocks 0).map RamBlock.addr = some 0 ∧
      (y.area.blocks 0x1000).map RamBlock.addr = some 0x1000 := by
    refine ⟨_, (Run.nil.snoc ⟨?_, rfl⟩).snoc ⟨?_, rfl⟩, rfl, rfl⟩
    · intro _ i hi v b hb
      obtain rfl : 1 = i := Option.some.inj hi
      -- the copy of block 0 is the only one
      change Function.update (fun _ => none) 0 (some (⟨BF_VALID, 0, 0, some 7⟩ : RamBlock)) v =
        some b at hb
      by_cases hv : v = 0
      · rw [hv, Function.update_self] at hb
        obtain rfl := Option.some.inj hb
        decide
      · rw [Function.update_of_ne hv] at hb
        simp at hb
    · intro _ _ _ v b hb
      rw [(privArea_empty 2).blocks v] at hb
      simp at hb
  obtain ⟨y, hrun, haddr⟩ := hrun
  exact ⟨y, hrun, run_private_faithful (privArea_empty 2) hrun, haddr⟩

/-- With one slot the second page takes the slot of the first one.  Both copies are resident at
address 0, and the first one is not marked although its page was moved. -/
theorem private_copies_stale : ∃ y, Run PrivRun.Step (privArea 1) [callPriv 0x1000, callPriv 0] y ∧
    ∃ b c, y.area.blocks 0 = some b ∧ y.area.blocks 0x1000 = some c ∧
      b.Resident ∧ c.Resident ∧ b.addr = c.addr ∧ y.Moved 0 ∧ ¬ b.IsSwapped := by
  refine ⟨_, (Run.nil.snoc rfl).snoc rfl, _, _, rfl, rfl, ?_, ?_, rfl, ?_, ?_⟩
  · exact ⟨by decide, by unfold RamBlock.IsSwapped; decide⟩
  · exact ⟨by decide, by unfold RamBlock.IsSwapped; decide⟩
  · intro i hi
    change Function.update (Function.update (fun _ => none) 0 (some 0)) 0 (some 0x1000) i =
      some 0 at hi
    by_cases h0 : i = 0
    · rw [h0, Function.update_self] at hi
      simp at hi
    · rw [Function.update_of_ne h0, Function.update_of_ne h0] at hi
      simp at hi
  · unfold RamBlock.IsSwapped
    decide

end Vin64.Vm
