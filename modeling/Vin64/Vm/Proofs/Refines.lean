import Vin64.Vm.PageMap
import Vin64.Vm.Proofs.Ends

/-!
# A loaded page table is a map

The blocks of a loaded table are locked, so that no slot of theirs is chosen for another
block.  With pages that are zero-filled the calls that return are those of a map from page
numbers, and a call returns unless it goes on from a null root.
-/

namespace Vin64.Vm

open Vin64.Lib Vin64.Lib.Op Vin64.Utils Vin64.Vram PageTable

variable {x : X64} {tgt : Target} {t u : PageTable} {v : PgtEvent} {σ : PageMap}

/-- What is assumed of a call: the pages the table gets are zero-filled, their blocks are new
objects, the base of an entry has room for the address, and the blocks of the table are nobody
else's. -/
structure Assumed (x : X64) (tgt : Target) (t : PageTable) (v : PgtEvent) : Prop where
  zeroFilled : AllocsMeet ZeroFilled x t v
  unused : AllocsMeet Unused x t v
  others : Respects x tgt t v
  fits : ∀ vma pma attr, v.call = .vmmap vma pma attr → x.pte.keeps pma
  known : ∀ vma f, v.call ≠ .vmattr vma f

/-- The table shows the map. -/
structure Shows (x : X64) (t : PageTable) (σ : PageMap) : Prop where
  shape : InShape x True t
  lookup : ∀ vma, PageTable.lookup x t vma = σ (pageNumber vma)

theorem Shows.of_assigns {vma : Nat} {r : Option Nat} (h : Shows x t σ) (h' : Assigns x t u vma r) :
    Shows x u (Function.update σ (pageNumber vma) r) where
  shape := h.shape.assigns h'
  lookup := by
    intro y
    by_cases hy : pageNumber y = pageNumber vma
    · rw [h'.here y hy, hy, Function.update_self]
    · rw [h'.rest y hy, Function.update_of_ne hy, h.lookup y]

/-- A call of a table that shows a map is a call of the map. -/
theorem step_refines (h : Shows x t σ) (hassumed : Assumed x tgt t v) (hstep : pgtStep x tgt t v u) :
    σ.Step v.call v.reply (σ.after v) ∧ Shows x u (σ.after v) := by
  obtain ⟨call, pe, reply⟩ := v
  cases call with
  | vmmap vma pma attr =>
      obtain ⟨r, hcall, rfl⟩ := bind_pure_eq hstep
      have hkeeps := hassumed.fits vma pma attr rfl
      have hmeets := hassumed.zeroFilled.isSome hcall
      rcases vmmap_cases (serves_zeroFilled pe) h.shape.shaped h.shape.held hmeets hcall with
        ⟨hattr, rfl, rfl⟩ | ⟨hattr, hsome, rfl, rfl⟩ | ⟨hattr, hnone, rfl, hgrown, _⟩ |
          ⟨hattr, hnone, rfl, b, hassigns, hb⟩
      · have hafter : σ.after ⟨.vmmap vma pma attr, pe, .ok none⟩ = σ := if_pos hattr
        rw [Except.map, hafter]
        exact ⟨.unreadable vma pma attr hattr, h⟩
      · refine ⟨.mapped vma pma attr hattr ?_, h⟩
        rw [← h.lookup vma]
        obtain ⟨b, hb⟩ := hsome
        rw [hb]
        simp
      · refine ⟨.noMemory vma pma attr hattr ?_, ?_⟩
        · rw [← h.lookup vma, hnone]
        · refine ⟨⟨hgrown.shaped, fun hn => hgrown.held (h.shape.held hn)⟩, ?_⟩
          intro y
          rw [hgrown.lookup y]
          exact h.lookup y
      · have hafter : σ.after ⟨.vmmap vma pma attr, pe, .ok none⟩ =
            Function.update σ (pageNumber vma) (some pma) := if_neg hattr
        rw [Except.map, hafter]
        rw [hb hkeeps] at hassigns
        refine ⟨.map vma pma attr hattr ?_, h.of_assigns hassigns⟩
        rw [← h.lookup vma, hnone]
  | vmunmap vma =>
      obtain ⟨r, hcall, rfl⟩ := bind_pure_eq hstep
      rcases vmunmap_cases h.shape.shaped hcall with ⟨hnone, ⟨er, rfl⟩, rfl⟩ | ⟨hsome, rfl, hassigns⟩
      · refine ⟨.unmapped vma er ?_, h⟩
        rw [← h.lookup vma, hnone]
      · refine ⟨.unmap vma ?_, h.of_assigns hassigns⟩
        rw [← h.lookup vma]
        obtain ⟨b, hb⟩ := hsome
        rw [hb]
        simp
  | vmattr vma f => exact absurd rfl (hassumed.known vma f)
  | getPma vma =>
      obtain ⟨hreply, rfl⟩ := getPma_cases h.shape.shaped hstep
      have hr : reply = .ok (σ (pageNumber vma)) := by rw [hreply, h.lookup vma]
      rw [hr]
      exact ⟨.getPma vma, h⟩
  | manager c e =>
      obtain ⟨hshape, hlookup, _⟩ := manager_step h.shape rfl hassumed.others hstep
      obtain ⟨r, hcall, rfl⟩ := bind_pure_eq hstep
      have hr : r.map (fun _ => (none : Option Nat)) = .ok none := by
        cases r with
        | ok _ => rfl
        | error er =>
            exfalso
            have hwlp : wlp (attempt (onRam (exec tgt e c)) : Op PageTable PgtError _)
                (fun _ _ => True) (fun _ _ => False) t := by
              rw [wlp_attempt]
              exact wlp_true _
            exact wlp_error hwlp hcall
      rw [hr]
      refine ⟨.manager c e, hshape, ?_⟩
      intro y
      rw [hlookup y]
      exact h.lookup y

/-- A table that is loaded and has no blocks yet. -/
structure PageTable.LoadedNew (t : PageTable) : Prop where
  attr : t.attr &&& PGT_LOADED ≠ 0#64
  pages : t.pages = []

theorem run_shows (hnew : t.LoadedNew) (hslots : t.mgr.mBlocks.length ≤ maxSlots)
    {vs : List PgtEvent} (hrun : Run (When (Assumed x tgt) (pgtStep x tgt)) t vs u) :
    Run (fun σ v σ' => PageMap.Step σ v.call v.reply σ') (fun _ => none) vs (lastMapped vs) ∧
      Shows x u (lastMapped vs) := by
  induction hrun with
  | nil =>
      obtain ⟨hshaped, hnone⟩ := shaped_of_empty (x := x) hnew.pages hslots
      refine ⟨.nil, ⟨⟨hshaped, fun _ => ⟨hnew.attr, ?_⟩⟩, hnone⟩⟩
      rw [hnew.pages]
      simp
  | snoc _ hlast ih =>
      obtain ⟨hmap, hshows⟩ := step_refines ih.2 hlast.1 hlast.2
      exact ⟨ih.1.snoc hmap, hshows⟩

/-! ## Calls that return -/

/-- A call of the table returns, and it is a call of the map. -/
def Answers (x : X64) (tgt : Target) (t : PageTable) (σ : PageMap) (call : PgtCall) (pe : PgtEnv) :
    Prop :=
  ∃ r u, pgtStep x tgt t ⟨call, pe, r⟩ u ∧ σ.Step call r (σ.after ⟨call, pe, r⟩)

/-- The call needs a root that it cannot allocate. -/
def FollowsNull (t : PageTable) (pe : PgtEnv) : PgtCall → Prop
  | .vmmap _ _ attr => attr &&& R ≠ 0#64 ∧ RootFails pe t
  | _ => False

/-- What is assumed of a call of the table does not depend on what it returns. -/
theorem Assumed.reply {call : PgtCall} {pe : PgtEnv} {r r' : Except PgtError (Option Nat)}
    (h : Assumed x tgt t ⟨call, pe, r⟩) (hown : ∀ c e, call ≠ .manager c e) :
    Assumed x tgt t ⟨call, pe, r'⟩ where
  zeroFilled := h.zeroFilled
  unused := h.unused
  others := fun c e _ hcall => absurd hcall (hown c e)
  fits := h.fits
  known := h.known

/-- A call of a table that shows a map returns unless it goes on from a null root. -/
theorem pgtExec_ends_iff {call : PgtCall} {pe : PgtEnv} {reply : Except PgtError (Option Nat)}
    (h : Shows x t σ) (hassumed : Assumed x tgt t ⟨call, pe, reply⟩)
    (hown : ∀ c e, call ≠ .manager c e) :
    (pgtExec x tgt pe call t).isSome ↔ ¬ FollowsNull t pe call := by
  have hs := h.shape.shaped
  cases call with
  | vmmap vma pma attr =>
      rw [pgtExec, isSome_bind_pure, vmmap_ends_iff (serves_zeroFilled pe) hs h.shape.held
        hassumed.zeroFilled hassumed.unused]
      constructor
      · rintro hroot ⟨hattr, hfails⟩
        exact hroot.resolve_left hattr hfails
      · intro hnot
        by_cases hattr : attr &&& R = 0#64
        · exact .inl hattr
        · exact .inr fun hfails => hnot ⟨hattr, hfails⟩
  | vmunmap vma =>
      rw [pgtExec, isSome_bind_pure]
      refine iff_of_true ?_ id
      cases hv : lookup x t vma with
      | none =>
          obtain ⟨er, heq⟩ := vmunmap_unmapped hs hv
          rw [heq]
          rfl
      | some b =>
          obtain ⟨w, heq, -⟩ := vmunmap_mapped hs hv
          rw [heq]
          rfl
  | vmattr vma f => exact absurd rfl (hassumed.known vma f)
  | getPma vma =>
      refine iff_of_true ?_ id
      rw [show pgtExec x tgt pe (.getPma vma) t = _ from getPma_eq hs vma]
      rfl
  | manager c e => exact absurd rfl (hown c e)

/-- In a RAM below 4 GiB the calls of a loaded page table that return are calls of a map from
page numbers: `get_pma` returns what was last mapped and not unmapped, and a `vmmap` of a mapped
page and a `vmunmap` of an unmapped one fail and change nothing.  A further call returns, and as
the map does, unless the table has no root and its allocation fails. -/
theorem run_refines_iff (x : X64) (tgt : Target) {t u : PageTable} {vs : List PgtEvent}
    (hnew : t.LoadedNew) (hslots : t.mgr.mBlocks.length ≤ maxSlots)
    (hrun : Run (When (Assumed x tgt) (pgtStep x tgt)) t vs u) :
    Run (fun σ v σ' => PageMap.Step σ v.call v.reply σ') (fun _ => none) vs (lastMapped vs) ∧
    (∀ vma, getPma x vma u = some (.ok (lastMapped vs (pageNumber vma)), u)) ∧
    (∀ pe vma pma attr, attr &&& R ≠ 0#64 → lastMapped vs (pageNumber vma) ≠ none →
      vmmap x pe vma pma attr u = some (.error .E_UNEXPECTED, u)) ∧
    (∀ vma, lastMapped vs (pageNumber vma) = none → ∃ er, vmunmap x vma u = some (.error er, u)) ∧
    ∀ call pe, (∀ c e, call ≠ .manager c e) → Assumed x tgt u ⟨call, pe, .ok none⟩ →
      (Answers x tgt u (lastMapped vs) call pe ↔ ¬ FollowsNull u pe call) := by
  obtain ⟨hmap, hshows⟩ := run_shows hnew hslots hrun
  have hs := hshows.shape.shaped
  refine ⟨hmap, ?_, ?_, ?_, ?_⟩
  · intro vma
    rw [getPma_eq hs, hshows.lookup]
  · intro pe vma pma attr hattr hne
    obtain ⟨b, hb⟩ := Option.ne_none_iff_exists'.1 hne
    rw [← hshows.lookup] at hb
    exact vmmapWith_mapped hs hattr hb
  · intro vma hnone
    rw [← hshows.lookup] at hnone
    exact vmunmap_unmapped hs hnone
  · intro call pe hown hassumed
    rw [← pgtExec_ends_iff hshows hassumed hown]
    constructor
    · rintro ⟨r, w, hstep, -⟩
      exact Option.isSome_iff_exists.2 ⟨_, hstep⟩
    · intro hsome
      obtain ⟨⟨r, w⟩, hexec⟩ := Option.isSome_iff_exists.1 hsome
      exact ⟨r, w, hexec, (step_refines hshows (hassumed.reply hown) hexec).1⟩

/-- A test of what is assumed of a call of the table itself. -/
def smallAssumed (t : PageTable) (v : PgtEvent) : Bool :=
  decide (AllocsMeet ZeroFilled amd64Tables t v ∧ AllocsMeet Unused amd64Tables t v) &&
    match v.call with
  | .vmmap _ pma _ => pma < 2 ^ 40
  | .vmunmap _ => true
  | .getPma _ => true
  | _ => false

theorem assumed_of_small {t : PageTable} {v : PgtEvent} (h : smallAssumed t v = true) :
    Assumed amd64Tables .x64 t v := by
  obtain ⟨hallocs, hcall⟩ := Bool.and_eq_true_iff.1 h
  obtain ⟨hzero, hunused⟩ := of_decide_eq_true hallocs
  refine ⟨hzero, hunused, ?_, ?_, ?_⟩
  · intro c e u hc
    rw [hc] at hcall
    simp at hcall
  · intro vma pma attr hc
    rw [hc] at hcall
    show pma < 2 ^ 40
    exact of_decide_eq_true hcall
  · intro vma f hc
    rw [hc] at hcall
    simp at hcall

/-- Page 1 is mapped, and page 2 is mapped and unmapped, in a table of four blocks. -/
theorem run_refines_fourSlots : ∃ u, Run (When (Assumed amd64Tables .x64) (pgtStep amd64Tables .x64))
    { newTable 4 with attr := PGT_LOADED }
      [done 30 (.vmunmap 0x2000), done 20 (.vmmap 0x2000 0x8000 R),
        done 10 (.vmmap 0x1000 0x9000 R)] u ∧
    getPma amd64Tables 0x1000 u = some (.ok (some 0x9000), u) ∧
    getPma amd64Tables 0x2000 u = some (.ok none, u) := by
  have hall : (runAll (replay smallAssumed amd64Tables .x64) { newTable 4 with attr := PGT_LOADED }
      [done 10 (.vmmap 0x1000 0x9000 R), done 20 (.vmmap 0x2000 0x8000 R),
        done 30 (.vmunmap 0x2000)]).isSome := by
    decide +kernel
  have hslots : (newTable 4).mgr.mBlocks.length ≤ maxSlots := by decide
  obtain ⟨u, hrun⟩ := run_of_replay (Assumed amd64Tables .x64)
    (fun t v h => assumed_of_small h) hall
  have hmaps := (run_refines_iff amd64Tables .x64 (t := { newTable 4 with attr := PGT_LOADED })
    ⟨by decide, rfl⟩ hslots hrun).2.1
  exact ⟨u, hrun, hmaps 0x1000, hmaps 0x2000⟩

/-- The RAM of one slot is taken by a locked block of another client: all that is assumed holds,
and the first `vmmap` goes on from a null root. -/
theorem vmmap_unanswered : ∃ u,
    Run (When (Assumed amd64Tables .x64) (pgtStep amd64Tables .x64))
      { newTable 1 with attr := PGT_LOADED } [done 0 (.manager (.alloc 1 BF_LOCKED) calm)] u ∧
    Assumed amd64Tables .x64 u (done 10 (.vmmap 0x1000 0x9000 R)) ∧
    ¬ Answers amd64Tables .x64 u
      (lastMapped [done 0 (.manager (.alloc 1 BF_LOCKED) calm)]) (.vmmap 0x1000 0x9000 R)
      (calmPgt 10) := by
  have hall : (pgtExec amd64Tables .x64 (calmPgt 0) (.manager (.alloc 1 BF_LOCKED) calm)
      { newTable 1 with attr := PGT_LOADED }).map (fun r =>
        (r.1, smallAssumed r.2 (done 10 (.vmmap 0x1000 0x9000 R)),
          (pgtExec amd64Tables .x64 (calmPgt 10) (.vmmap 0x1000 0x9000 R) r.2).isNone)) =
      some (.ok none, true, true) := by
    decide +kernel
  obtain ⟨⟨r, u⟩, hr, hpair⟩ := Option.map_eq_some_iff.1 hall
  obtain ⟨rfl, hpair⟩ := Prod.mk.inj hpair
  obtain ⟨hsmall, hnone⟩ := Prod.mk.inj hpair
  have halloc : Assumed amd64Tables .x64 { newTable 1 with attr := PGT_LOADED }
      (done 0 (.manager (.alloc 1 BF_LOCKED) calm)) := by
    refine ⟨trivial, trivial, ?_, ?_, ?_⟩
    · -- the table has no blocks yet
      intro c e w _ _
      exact ⟨fun q hq => absurd hq List.not_mem_nil, fun q hq => absurd hq List.not_mem_nil⟩
    · intro vma pma attr hcall
      cases hcall
    · intro vma f hcall
      cases hcall
  refine ⟨u, .snoc .nil ⟨halloc, hr⟩, assumed_of_small hsmall, ?_⟩
  rintro ⟨r, w, hstep, -⟩
  rw [pgtStep, Option.isNone_iff_eq_none.1 hnone] at hstep
  cases hstep

end Vin64.Vm
