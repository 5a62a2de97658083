import Vin64.Vm.Proofs.Ends
import Vin64.Vm.Proofs.Lifetime

/-!
# When there is no memory for a table

`get_pte` looks at what `alloc_pgt_block` returns for each table but the root.
-/

namespace Vin64.Vm

open Vin64.Lib Vin64.Lib.Op Vin64.Utils Vin64.Vram PageTable

variable {x : X64} {tgt : Target} {t u : PageTable} {alloc alloc' : Fin 4 → Walk Nat}
  {pe : PgtEnv} {vma pma : Nat} {attr : BitVec 64}

/-- No allocation of the call fails. -/
def AllSucceed (x : X64) (t : PageTable) (pe : PgtEnv) (vma pma : Nat) (attr : BitVec 64) : Prop :=
  (vmmapWith x (fun l => strict (allocPgtBlock pe l)) vma pma attr t).isSome

/-- No allocation of the call fails, and the slots it chooses are as `Spares` says. -/
def HasMemory (x : X64) (t : PageTable) (pe : PgtEnv) (vma pma : Nat) (attr : BitVec 64) : Prop :=
  (vmmapWith x (fun l => strict (allocWhen (Spares x) pe l)) vma pma attr t).isSome

/-- The call ends, with `E_OUTOFMEMORY` if one of its allocations fails; then the pages that were
mapped still are, its own page is not, and in a later state where it is not mapped a call for it
that has memory succeeds. -/
structure FailsSafely (x : X64) (tgt : Target) (t : PageTable) (pe : PgtEnv) (vma pma : Nat)
    (attr : BitVec 64) : Prop where
  ends : ∃ r u, vmmap x pe vma pma attr t = some (r, u) ∧
    (¬ AllSucceed x t pe vma pma attr → r = .error .E_OUTOFMEMORY)
  keeps : ∀ u, vmmap x pe vma pma attr t = some (.error .E_OUTOFMEMORY, u) →
    (∀ v b, getPma x v t = some (.ok (some b), t) → getPma x v u = some (.ok (some b), u)) ∧
      getPma x vma u = some (.ok none, u)
  again : ∀ u vs w pe' pma' attr', vmmap x pe vma pma attr t = some (.error .E_OUTOFMEMORY, u) →
    Run (When (Apart x tgt) (tableStep x tgt)) u vs w → getPma x vma w = some (.ok none, w) →
      attr' &&& R ≠ 0#64 → HasMemory x w pe' vma pma' attr' →
        ∃ w', vmmap x pe' vma pma' attr' w = some (.ok (), w')

/-! ## Walks and their allocations -/

/-- A walk that succeeds met no allocation that failed. -/
theorem covers_getPteWith (h : ∀ l, Covers (alloc l) (alloc' l)) (v : Nat) (alloc_new : Bool) :
    Covers (getPteWith alloc x v alloc_new) (getPteWith alloc' x v alloc_new) := by
  have hroot : Covers (rootTable alloc alloc_new) (rootTable alloc' alloc_new) := by
    apply (Covers.refl _).bind
    intro t
    cases t.pages with
    | cons r rest => exact Covers.refl _
    | nil =>
        cases alloc_new with
        | false => exact Covers.refl _
        | true =>
            intro s
            simp only [not_true_eq_false, if_false]
            rw [wlp_bind, wlp_attempt]
            apply wlp_mono (h 0 s)
            · intro p u hp
              rw [bind_ok (attempt_eq hp)]
              exact Covers.refl _ u
            · exact fun _ _ _ => wlp_fault
  have hnext : ∀ (f : Format) (l : Fin 4) (a : Nat),
      Covers (nextTable alloc f l alloc_new a) (nextTable alloc' f l alloc_new a) := by
    intro f l a
    apply (Covers.refl _).bind
    intro ent
    by_cases hP : f.P ent = false
    · rw [if_pos hP, if_pos hP]
      cases alloc_new with
      | false => exact Covers.refl _
      | true => exact (h l).bind fun _ => Covers.refl _
    · rw [if_neg hP, if_neg hP]
      exact Covers.refl _
  exact hroot.bind fun _ => (hnext _ _ _).bind fun _ => (hnext _ _ _).bind fun _ =>
    (hnext _ _ _).bind fun _ => Covers.refl _

/-- Where no allocation fails, `get_pte` returns no null pointer. -/
theorem wlp_getPteWith_strict (v : Nat) :
    wlp (getPteWith (fun l => strict (alloc l)) x v true) (fun _ _ => True) (fun _ _ => False)
      t := by
  have hstrict : ∀ l u, wlp (strict (alloc l)) (fun _ _ => True) (fun _ _ => False) u :=
    fun l u => wlp_strict (wlp_true _)
  refine wlp_mono (wlp_walk (x := x) (v := v) (fun _ _ _ => True) ?_ ?_) (fun _ _ _ => trivial)
    fun _ _ h => h
  · unfold rootTable
    rw [wlp_bind, wlp_get]
    cases t.pages with
    | cons r rest => exact trivial
    | nil =>
        simp only [not_true_eq_false, if_false, wlp_bind, wlp_attempt]
        exact wlp_mono (hstrict 0 t) (fun _ _ _ => trivial) fun _ _ h => h.elim
  · intro q j l a u _ _ _ _
    apply wlp_nextTable_of
    · exact fun _ => trivial
    · exact fun _ => hstrict l u

/-! ## The call -/

/-- A call that returns something else than `E_OUTOFMEMORY` met no allocation that failed. -/
theorem allSucceed_of {r : Except PgtError Unit} (hcall : vmmap x pe vma pma attr t = some (r, u))
    (hr : r ≠ .error .E_OUTOFMEMORY) : AllSucceed x t pe vma pma attr := by
  unfold AllSucceed
  by_cases hattr : attr &&& R = 0#64
  · rw [vmmapWith_unreadable hattr]
    rfl
  · unfold vmmap vmmapWith at hcall
    unfold vmmapWith
    rw [if_neg hattr] at hcall ⊢
    cases hwalk : getPteWith (allocPgtBlock pe) x vma true t with
    | none =>
        rw [bind_none (attempt_none hwalk)] at hcall
        cases hcall
    | some v =>
        rcases v with ⟨e | pte, w⟩
        · rw [bind_ok (attempt_eq hwalk)] at hcall
          obtain ⟨rfl, -⟩ := Prod.mk.inj (Option.some.inj hcall)
          exact absurd rfl hr
        · have hsame := wlp_ok (covers_getPteWith (fun l => covers_strict (allocPgtBlock pe l)) vma
            true t) hwalk
          rw [bind_ok (attempt_eq hwalk)] at hcall
          rw [bind_ok (attempt_eq hsame)]
          exact Option.isSome_iff_exists.2 ⟨_, hcall⟩

/-- A call for a page that is not mapped succeeds when it has memory. -/
theorem vmmap_of_hasMemory (hs : Shaped x t) (hnone : lookup x t vma = none)
    (hattr : attr &&& R ≠ 0#64) (hmemory : HasMemory x t pe vma pma attr) :
    ∃ u, vmmap x pe vma pma attr t = some (.ok (), u) := by
  obtain ⟨⟨r, u⟩, hstrict⟩ := Option.isSome_iff_exists.1 hmemory
  have hspares := refines_vmmapWith (x := x)
    (fun l => refines_strict (allocWhen (Spares x) pe l)) vma pma attr t _ hstrict
  have hcall := refines_vmmapWith (x := x) (refines_allocWhen (Spares x) pe) vma pma attr t _ hspares
  have hmeets : (vmmapWith x (allocWhen (Spares x) pe) vma pma attr t).isSome :=
    Option.isSome_iff_exists.2 ⟨_, hspares⟩
  rcases vmmap_cases (serves_spares pe) hs False.elim hmeets hcall with
    ⟨hzero, -, -⟩ | ⟨-, ⟨b, hb⟩, -, -⟩ | ⟨-, -, rfl, -⟩ | ⟨-, -, rfl, -⟩
  · exact absurd hzero hattr
  · rw [hnone] at hb
    cases hb
  · -- the walk of a call with memory returns no null pointer
    have hwlp : wlp (vmmapWith x (fun l => strict (allocWhen (Spares x) pe l)) vma pma attr)
        (fun _ _ => True) (fun er _ => er = .E_UNEXPECTED) t := by
      unfold vmmapWith
      rw [if_neg hattr, wlp_bind, wlp_attempt]
      apply wlp_mono (wlp_getPteWith_strict vma)
      · intro pte w _
        simp only [wlp_bind, wlp_readEntry, wlp_ite, wlp_fail, wlp_modifyEntry]
        refine fun _ => ⟨fun _ => trivial, fun _ _ => ?_⟩
        exact wlp_setAttr trivial
      · exact fun _ _ h => h.elim
    cases wlp_error hwlp hstrict
  · exact ⟨u, hcall⟩

/-- In every state reached without disturbance, a call fails safely exactly when it has a root or
can allocate one, or does nothing. -/
theorem run_failsSafely_iff (x : X64) (tgt : Target) {t u : PageTable} {vs : List TableEvent}
    {pe : PgtEnv} {vma pma : Nat} {attr : BitVec 64} (hnew : t.pages = [])
    (hslots : t.mgr.mBlocks.length ≤ maxSlots)
    (hrun : Run (When (Apart x tgt) (tableStep x tgt)) t vs u)
    (hmeets : RootFails pe u ∨ AllocsMeet (Spares x) x u ⟨.vmmap vma pma attr, pe, .ok none⟩ ∧
      AllocsMeet Unused x u ⟨.vmmap vma pma attr, pe, .ok none⟩) :
    FailsSafely x tgt u pe vma pma attr ↔ attr &&& R = 0#64 ∨ ¬ RootFails pe u := by
  have hplace : InPlace x u := run_inPlace (inPlace_of_empty hnew hslots) hrun
  constructor
  · intro h
    by_contra hnot
    simp only [not_or, Classical.not_not] at hnot
    obtain ⟨r, w, hcall, -⟩ := h.ends
    rw [vmmap_of_rootFails hnot.1 hnot.2] at hcall
    cases hcall
  · intro hcond
    have hsome : (vmmapWith x (allocWhen (Spares x) pe) vma pma attr u).isSome := by
      by_cases hattr : attr &&& R = 0#64
      · rw [vmmapWith_unreadable hattr]
        rfl
      · obtain ⟨hspares, hunused⟩ := hmeets.resolve_left (hcond.resolve_left hattr)
        rw [hspares.vmmap_eq]
        exact vmmap_ends (serves_spares pe) hplace.shaped False.elim hspares hunused hcond
    obtain ⟨⟨r, w⟩, hspares⟩ := Option.isSome_iff_exists.1 hsome
    have hcall : vmmap x pe vma pma attr u = some (r, w) :=
      refines_vmmapWith (refines_allocWhen (Spares x) pe) vma pma attr u _ hspares
    have hfailed : ∀ w', vmmap x pe vma pma attr u = some (.error .E_OUTOFMEMORY, w') →
        lookup x u vma = none ∧ Grown x u w' ∧ InPlace x w' := by
      intro w' hcall'
      have hsame := (refines_vmmapWith (refines_allocWhen (Spares x) pe) vma pma attr).eq hsome hcall'
      rcases vmmap_cases (serves_spares pe) hplace.shaped False.elim hsome hcall' with
        ⟨-, herr, -⟩ | ⟨-, -, herr, -⟩ | ⟨-, hnone, -, hgrown, -⟩ | ⟨-, -, herr, -⟩
      · cases herr
      · cases herr
      · have hram := (inRam_vmmapWith (inRam_alloc (serves_spares pe) id) vma pma attr).result
          hplace.inRam hsame
        exact ⟨hnone, hgrown, hgrown.shaped, hram⟩
      · cases herr
    constructor
    · refine ⟨r, w, hcall, fun hfails => ?_⟩
      by_contra hr
      exact hfails (allSucceed_of hcall hr)
    · intro w' hcall'
      obtain ⟨hnone, hgrown, -⟩ := hfailed w' hcall'
      constructor
      · intro v b hv
        rw [getPma_eq hgrown.shaped, hgrown.lookup v, lookup_of_getPma hplace.shaped hv]
      · rw [getPma_eq hgrown.shaped, hgrown.lookup vma, hnone]
    · intro w' vs' v pe' pma' attr' hcall' hlater hnone hattr' hmemory
      obtain ⟨-, -, hplace'⟩ := hfailed w' hcall'
      have hshaped := (run_inPlace hplace' hlater).shaped
      exact vmmap_of_hasMemory hshaped (lookup_of_getPma hshaped hnone) hattr' hmemory

/-- The third table of a walk cannot be allocated. -/
def lastMissing : PgtEnv :=
  ⟨fun l => if (l : Nat) = 2 then none else some (10 + (l : Nat)), fun _ => calm⟩

theorem failsSafely_fourSlots :
    FailsSafely amd64Tables .x64 (newTable 4) lastMissing 0x1000 0x9000 R ∧
    ∃ u, vmmap amd64Tables lastMissing 0x1000 0x9000 R (newTable 4) =
      some (.error .E_OUTOFMEMORY, u) ∧ u.pages = [10, 11] := by
  have hmeets : AllocsMeet (Spares amd64Tables) amd64Tables (newTable 4)
      ⟨.vmmap 0x1000 0x9000 R, lastMissing, .ok none⟩ := by
    decide +kernel
  have hunused : AllocsMeet Unused amd64Tables (newTable 4)
      ⟨.vmmap 0x1000 0x9000 R, lastMissing, .ok none⟩ := by
    decide +kernel
  have hslots : (newTable 4).mgr.mBlocks.length ≤ maxSlots := by decide
  have hroot : ¬ RootFails lastMissing (newTable 4) := by
    intro h
    obtain ⟨-, l, hl, u, hu⟩ := h
    obtain rfl : l = 0 := Fin.ext hl
    have hok : (allocPgtBlock lastMissing 0 (newTable 4)).map (fun r => r.1.toOption) =
        some (some 10) := by
      decide +kernel
    rw [hu] at hok
    cases hok
  refine ⟨(run_failsSafely_iff amd64Tables .x64 rfl hslots .nil (.inr ⟨hmeets, hunused⟩)).2
    (.inr hroot), ?_⟩
  have hcall : (vmmap amd64Tables lastMissing 0x1000 0x9000 R (newTable 4)).map
      (fun r => (r.1, r.2.pages)) = some (.error .E_OUTOFMEMORY, [10, 11]) := by
    decide +kernel
  obtain ⟨⟨r, u⟩, hr, hpair⟩ := Option.map_eq_some_iff.1 hcall
  obtain ⟨rfl, hpages⟩ := Prod.mk.inj hpair
  exact ⟨u, hr, hpages⟩

/-- The RAM has one slot, with a locked block of another client: the null root is followed. -/
theorem vmmap_follows_null : ∃ u, Run (tableStep amd64Tables .x64) (newTable 1)
    [.call (done 0 (.manager (.alloc 1 BF_LOCKED) calm))] u ∧
    vmmap amd64Tables (calmPgt 10) 0x1000 0x9000 R u = none ∧
    ¬ FailsSafely amd64Tables .x64 u (calmPgt 10) 0x1000 0x9000 R := by
  have hall : (pgtExec amd64Tables .x64 (calmPgt 0) (.manager (.alloc 1 BF_LOCKED) calm)
      (newTable 1)).map (fun r =>
        (r.1, (vmmap amd64Tables (calmPgt 10) 0x1000 0x9000 R r.2).isNone)) =
      some (.ok none, true) := by
    decide +kernel
  obtain ⟨⟨r, u⟩, hr, hpair⟩ := Option.map_eq_some_iff.1 hall
  obtain ⟨rfl, hnone⟩ := Prod.mk.inj hpair
  have hcall : vmmap amd64Tables (calmPgt 10) 0x1000 0x9000 R u = none :=
    Option.isNone_iff_eq_none.1 hnone
  refine ⟨u, .snoc .nil hr, hcall, fun h => ?_⟩
  obtain ⟨r, w, hends, -⟩ := h.ends
  rw [hcall] at hends
  cases hends

end Vin64.Vm
