import Vin64.Vm.Lifetime
import Vin64.Vm.Proofs.Load

/-!
# What a table keeps over its life

As long as no block of the table leaves its slot, loading and unloading it changes flags only.
-/

namespace Vin64.Vm

open Vin64.Lib Vin64.Lib.Op Vin64.Utils Vin64.Vram Vin64.Vram.RamManager PageTable

variable {ε : Type} {x : X64} {tgt : Target} {t u : PageTable} {vs : List TableEvent}

/-- No block of the table is in the page file. -/
def PageTable.InRam (t : PageTable) : Prop :=
  ∀ p ∈ t.pages, (t.mgr.blocks p).flags &&& BF_SWAPPED = 0#32

/-- The table is a tree in the slots of its blocks. -/
structure InPlace (x : X64) (t : PageTable) : Prop where
  shaped : Shaped x t
  inRam : InRam t

/-- The calls keep the table apart as `KeepsApart` says. -/
def Apart (x : X64) (tgt : Target) (t : PageTable) : TableEvent → Prop
  | .call v => KeepsApart x tgt t v
  | _ => True

/-! ## Calls -/

section Calls

variable {alloc : Fin 4 → Walk Nat}

theorem preserves_readEntry {P : PageTable → Prop} (a : Nat) :
    Preserves P (readEntry a : Op PageTable ε Entry) := by
  intro t h
  rw [wlp_readEntry]
  exact fun _ => h

theorem inRam_modifyEntry (a : Nat) (f : Entry → Entry) :
    Preserves InRam (modifyEntry a f : Op PageTable ε Unit) := by
  intro t h
  rw [wlp_modifyEntry]
  exact fun _ => h

/-- What the allocator keeps and no write of an entry changes is kept by the walk. -/
theorem preserves_getPteWith {P : PageTable → Prop} (halloc : ∀ l, Preserves P (alloc l))
    (hentry : ∀ a f, Preserves P (modifyEntry a f : Walk Unit)) (v : Nat) (alloc_new : Bool) :
    Preserves P (getPteWith alloc x v alloc_new) := by
  have hroot : Preserves P (rootTable alloc alloc_new) := by
    apply Preserves.get.bind
    intro t
    cases t.pages with
    | cons r rest => exact .pure _
    | nil =>
        apply Preserves.ite (.fail _)
        apply (halloc 0).attempt.bind
        intro r
        cases r with
        | error _ => exact .fault
        | ok root => exact Preserves.get.bind fun _ => .pure _
  have hnext : ∀ f l a, Preserves P (nextTable alloc f l alloc_new a) := by
    intro f l a
    apply (preserves_readEntry a).bind
    intro ent
    apply Preserves.ite _ (.pure _)
    apply Preserves.ite (.fail _)
    apply (halloc l).bind
    intro page
    apply Preserves.get.bind
    intro t
    exact (hentry a _).bind fun _ => (hentry a _).bind fun _ => (hentry a _).bind fun _ => .pure _
  exact hroot.bind fun _ => (hnext _ _ _).bind fun _ => (hnext _ _ _).bind fun _ =>
    (hnext _ _ _).bind fun _ => .pure _

theorem inRam_setAttr (pte : Nat) (f : BitVec 64) :
    Preserves InRam (setAttr x pte f : Op PageTable ε Unit) :=
  (inRam_modifyEntry pte _).bind fun _ => (inRam_modifyEntry pte _).bind fun _ =>
    inRam_modifyEntry pte _

/-- A block that the manager has just given is in the RAM. -/
theorem inRam_alloc {need : Prop} (hserves : Serves x need alloc) (hneed : ¬ need) (l : Fin 4) :
    Preserves InRam (alloc l) := by
  intro t h
  apply wlp_mono (hserves l t fun hn => absurd hn hneed)
  · intro p u hu
    obtain ⟨i, hgain, -⟩ := hu
    intro q hq
    rw [hgain.pages] at hq
    rcases List.mem_append.1 hq with hold | hnew
    · rw [hgain.kept q hold]
      exact h q hold
    · obtain rfl := List.mem_singleton.1 hnew
      rw [hgain.flags]
      split_ifs <;> decide
  · intro _ u hu q hq
    rw [hu.pages] at hq
    rw [hu.kept q hq]
    exact h q hq

theorem inRam_vmmapWith (halloc : ∀ l, Preserves InRam (alloc l)) (v p : Nat) (attr : BitVec 64) :
    Preserves InRam (vmmapWith x alloc v p attr) := by
  apply Preserves.ite (.pure _)
  apply (preserves_getPteWith halloc (fun a f => inRam_modifyEntry a f) v true).attempt.bind
  intro r
  cases r with
  | error _ => exact .fail _
  | ok pte =>
      apply (preserves_readEntry pte).bind
      intro ent
      apply Preserves.ite (.fail _)
      exact (inRam_modifyEntry pte _).bind fun _ => inRam_setAttr pte attr

theorem inRam_getPte (v : Nat) :
    Preserves InRam (getPteWith (fun _ => fail ()) x v false) :=
  preserves_getPteWith (fun _ => .fail _) (fun a f => inRam_modifyEntry a f) v false

theorem inRam_vmattr (v : Nat) (f : BitVec 64) : Preserves InRam (vmattr x v f) := by
  apply (inRam_getPte v).attempt.bind
  intro r
  cases r with
  | error _ => exact .pure _
  | ok pte => exact (inRam_setAttr pte f).bind fun _ => .pure _

theorem inRam_vmunmap (v : Nat) : Preserves InRam (vmunmap x v) := by
  apply (inRam_getPte v).attempt.bind
  intro r
  cases r with
  | error _ => exact .fail _
  | ok pte =>
      apply (preserves_readEntry pte).bind
      intro ent
      exact .ite (.fail _) (inRam_modifyEntry pte _)

end Calls

theorem pgtStep_inPlace {v : PgtEvent} (h : InPlace x t) (hapart : KeepsApart x tgt t v)
    (hstep : pgtStep x tgt t v u) : InPlace x u := by
  have hshape : InShape x False t := ⟨h.shaped, False.elim⟩
  refine ⟨(pgtStep_inShape serves_spares hshape hapart.1 hapart.2 hstep).shaped, ?_⟩
  obtain ⟨call, pe, reply⟩ := v
  cases call with
  | vmmap vma pma attr =>
      obtain ⟨r, hcall, -⟩ := bind_pure_eq hstep
      have hsame := hapart.1.vmmap_eq.trans hcall
      exact (inRam_vmmapWith (inRam_alloc (serves_spares pe) id) vma pma attr).result h.inRam hsame
  | vmunmap vma =>
      obtain ⟨r, hcall, -⟩ := bind_pure_eq hstep
      exact (inRam_vmunmap vma).result h.inRam hcall
  | vmattr vma f => exact ((inRam_vmattr vma f).bind fun _ => .pure _).result h.inRam hstep
  | getPma vma =>
      obtain ⟨-, rfl⟩ := getPma_cases h.shaped hstep
      exact h.inRam
  | manager c e =>
      have hpages := (manager_step hshape rfl hapart.2 hstep).2.2.2
      have hund := hapart.2 c e u rfl hstep
      intro p hp
      rw [hpages] at hp
      rw [hund.kept p hp]
      exact h.inRam p hp

/-! ## Loading and unloading -/

/-- A change of the flags of the blocks that leaves the mark of the page file. -/
theorem InPlace.modifyFlags (h : InPlace x t) {f : BitVec 32 → BitVec 32}
    (hf : ∀ b, f (f b) = f b) (hswap : ∀ b, b &&& BF_SWAPPED = 0#32 → f b &&& BF_SWAPPED = 0#32)
    (attr : BitVec 64) : InPlace x (PageTable.modifyFlags { t with attr := attr } f) ∧
      ∀ q, q.length ≤ 4 →
        (PageTable.modifyFlags { t with attr := attr } f).reach x q = t.reach x q := by
  have hblock := blocks_modifyFlags hf { t with attr := attr }
  obtain ⟨hshaped, hreach⟩ := h.shaped.congr_reach
    (u := PageTable.modifyFlags { t with attr := attr } f) rfl rfl
    (fun q hq => by rw [hblock, if_pos hq]) fun q hq k hk => ⟨hk, rfl⟩
  refine ⟨⟨hshaped, fun p hp => ?_⟩, hreach⟩
  have hmem : p ∈ t.pages := hp
  rw [hblock, if_pos hmem]
  exact hswap _ (h.inRam p hmem)

/-- `load` finds every block in the RAM. -/
theorem swapInAll_inRam {es : Nat → Env} {ps : List Nat} (n : Nat) (h : InRam t)
    (hps : ∀ p ∈ ps, p ∈ t.pages) :
    (swapInAll es ps n : Op PageTable PgtError Bool) t = some (.ok true, t) := by
  induction ps generalizing n with
  | nil => rfl
  | cons p ps ih =>
      have hswap : ramSwapIn (es n) p t.mgr = some (.ok (), t.mgr) := by
        unfold ramSwapIn
        rw [bind_ok (blockAt_eq p), if_pos (h p (hps p List.mem_cons_self))]
        rfl
      have hone : onRam (ramSwapIn (es n) p) t = some (.ok (), t) := by
        unfold onRam zoom
        rw [hswap]
      unfold swapInAll
      rw [bind_ok (attempt_eq hone)]
      exact ih (n + 1) fun q hq => hps q (.tail _ hq)

/-- Loading a table whose blocks are in the RAM always works, and moves nothing. -/
theorem InPlace.load {es : Nat → Env} {loaded : Bool} (h : InPlace x t)
    (hload : (load es : Op PageTable PgtError Bool) t = some (.ok loaded, u)) :
    loaded = true ∧ InPlace x u ∧ ∀ q, q.length ≤ 4 → u.reach x q = t.reach x q := by
  have hmarked : InPlace x t.marked ∧
      ∀ q, q.length ≤ 4 → t.marked.reach x q = t.reach x q := by
    apply h.modifyFlags
    · intro b
      rw [BitVec.or_assoc, BitVec.or_self]
    · intro b hb
      have hmask : BF_LOCKED &&& BF_SWAPPED = 0#32 := by decide
      rw [BitVec.and_or_distrib_right, hb, hmask, BitVec.or_self]
  have hall : (swapInAll es t.pages 0 : Op PageTable PgtError Bool) t.marked =
      some (.ok true, t.marked) := swapInAll_inRam 0 hmarked.1.inRam fun p hp => hp
  obtain ⟨hloaded, rfl⟩ := outcome_unique hload hall
  exact ⟨Except.ok.inj hloaded, hmarked⟩

theorem InPlace.unload (h : InPlace x t)
    (hunload : (unload : Op PageTable PgtError Bool) t = some (.ok true, u)) :
    InPlace x u ∧ ∀ q, q.length ≤ 4 → u.reach x q = t.reach x q := by
  obtain ⟨-, rfl⟩ := Prod.mk.inj (Option.some.inj hunload)
  apply h.modifyFlags
  · intro b
    rw [BitVec.and_assoc, BitVec.and_self]
  · intro b hb
    rw [BitVec.and_assoc, BitVec.and_comm _ BF_SWAPPED, ← BitVec.and_assoc, hb, BitVec.zero_and]

/-! ## Destroying -/

/-- A destroyed table has no blocks; the RAM has its slots. -/
theorem destroy_empty (hslots : t.mgr.mBlocks.length ≤ maxSlots)
    (hdestroy : (destroy : Op PageTable PgtError Unit) t = some (.ok (), u)) :
    u.pages = [] ∧ u.mgr.mBlocks.length = t.mgr.mBlocks.length := by
  have hfree : ∀ ps, Preserves (fun u : PageTable => u.mgr.mBlocks.length = t.mgr.mBlocks.length)
      (freeAll ps : Op PageTable PgtError Unit) := by
    intro ps
    induction ps with
    | nil => exact .pure _
    | cons p ps ih =>
        refine Preserves.bind (Preserves.attempt fun u hu => ?_) fun _ => ih
        have hexec : wlp (exec .x64 calm (.free p)) _ _ u.mgr :=
          wlp_exec_length (hu ▸ hslots) (.free p)
        rw [exec, wlp_bind] at hexec
        unfold onRam
        rw [wlp_zoom]
        exact wlp_mono hexec (fun _ m hm => hm.trans hu) fun _ m hm => hm.trans hu
  have hwlp : wlp (destroy : Op PageTable PgtError Unit)
      (fun _ u => u.pages = [] ∧ u.mgr.mBlocks.length = t.mgr.mBlocks.length)
      (fun _ _ => True) t := by
    unfold destroy
    rw [wlp_bind, wlp_get, wlp_bind]
    exact wlp_mono (hfree t.pages t rfl) (fun _ v hv => ⟨rfl, hv⟩) fun _ _ _ => trivial
  have hempty := wlp_ok hwlp hdestroy
  exact hempty

/-! ## Runs -/

theorem inPlace_of_empty (hpages : t.pages = []) (hslots : t.mgr.mBlocks.length ≤ maxSlots) :
    InPlace x t := by
  refine ⟨(shaped_of_empty hpages hslots).1, ?_⟩
  unfold InRam
  rw [hpages]
  exact nofun

theorem tableStep_inPlace {v : TableEvent} (h : InPlace x t) (hapart : Apart x tgt t v)
    (hstep : tableStep x tgt t v u) : InPlace x u := by
  cases v with
  | call v => exact pgtStep_inPlace h hapart hstep
  | load es loaded => exact (h.load hstep).2.1
  | unload => exact (h.unload hstep).1
  | destroy =>
      obtain ⟨hpages, hlength⟩ := destroy_empty h.shaped.slots hstep
      exact inPlace_of_empty hpages (hlength ▸ h.shaped.slots)

theorem run_inPlace (h : InPlace x t) (hrun : Run (When (Apart x tgt) (tableStep x tgt)) t vs u) :
    InPlace x u :=
  hrun.invariant h fun _ _ _ hs hstep => tableStep_inPlace hs hstep.1 hstep.2

end Vin64.Vm
