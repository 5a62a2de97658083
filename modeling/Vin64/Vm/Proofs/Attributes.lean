import Vin64.Vm.Proofs.Lifetime

/-!
# Attributes of pages that are not mapped

`vmattr` does not look at the present bit: it finds an entry for every page that shares its last
table with one that was mapped.
-/

namespace Vin64.Vm

open Vin64.Lib Vin64.Lib.Op Vin64.Utils Vin64.Vram PageTable

variable {x : X64} {tgt : Target} {t u : PageTable} {v : TableEvent} {vs : List TableEvent}
  {vma : Nat} {f : BitVec 64} {r : Option Nat}

/-- The event is a call for the page of `y`, or leaves no page. -/
def Touches (y : Nat) : TableEvent → Prop
  | .call ⟨.vmmap vma _ _, _, _⟩ => pageNumber y = pageNumber vma
  | .call ⟨.vmunmap vma, _, _⟩ => pageNumber y = pageNumber vma
  | .call ⟨.vmattr vma _, _, _⟩ => pageNumber y = pageNumber vma
  | .destroy => True
  | _ => False

/-- After the events `vs`: `vmattr` of a page that is not mapped returns false and changes neither
its entry nor `get_pma`, and no event changes `get_pma` of a page it does not touch. -/
structure MarksMapped (x : X64) (tgt : Target) (t : PageTable) (vs : List TableEvent) (vma : Nat)
    (f : BitVec 64) : Prop where
  own : mappedBy vs (pageNumber vma) = none → getPma x vma t = some (.ok none, t) ∧
    ∃ u, vmattr x vma f t = some (.ok false, u) ∧
      (∀ pte, getPteWith (fun _ => fail ()) x vma false t = some (.ok pte, t) →
        u.entry pte = t.entry pte) ∧
      getPma x vma u = some (.ok none, u)
  others : ∀ v u y, Apart x tgt t v → tableStep x tgt t v u → ¬ Touches y v →
    ∃ r, getPma x y t = some (.ok r, t) ∧ getPma x y u = some (.ok r, u)

/-! ## Which tables there are -/

/-- What an event that keeps the table does to the last tables and to the other pages. -/
structure Changes (x : X64) (t : PageTable) (v : TableEvent) (u : PageTable) : Prop where
  tables : ∀ y, HasTable x u y ↔ MapsBeside y v ∨ HasTable x t y
  rest : ∀ y, ¬ Touches y v → lookup x u y = lookup x t y

theorem Changes.of_same (htables : ∀ y, u.reach x (tablePath y) = t.reach x (tablePath y))
    (hlookup : ∀ y, lookup x u y = lookup x t y) (hbeside : ∀ y, ¬ MapsBeside y v) :
    Changes x t v u where
  tables := by
    intro y
    unfold HasTable
    rw [htables y]
    exact (or_iff_right (hbeside y)).symm
  rest := fun y _ => hlookup y

theorem Changes.of_reach (hreach : ∀ q, q.length ≤ 4 → u.reach x q = t.reach x q)
    (hbeside : ∀ y, ¬ MapsBeside y v) : Changes x t v u :=
  .of_same (fun y => hreach (tablePath y) (by simp [tablePath]))
    (fun y => hreach (path y) (Nat.le_refl 4)) hbeside

theorem Assigns.hasTable (h : Assigns x t u vma r) (y : Nat) :
    HasTable x u y ↔ tablePath vma = tablePath y ∨ HasTable x t y := by
  by_cases hy : tablePath y = tablePath vma
  · have hu : HasTable x u y := by
      unfold HasTable
      rw [hy]
      exact h.table
    exact ⟨fun _ => .inl hy.symm, fun _ => hu⟩
  · unfold HasTable
    rw [h.tables y hy]
    exact (or_iff_right fun heq => hy heq.symm).symm

/-- The entry of a page whose table was there is written. -/
theorem Changes.of_assigns (h : Assigns x t u vma r) (hfound : HasTable x t vma)
    (htouches : ∀ y, pageNumber y = pageNumber vma → Touches y v)
    (hbeside : ∀ y, ¬ MapsBeside y v) : Changes x t v u where
  tables := by
    intro y
    rw [h.hasTable y, or_iff_right (hbeside y)]
    refine or_iff_right_of_imp fun heq => ?_
    unfold HasTable
    rw [← heq]
    exact hfound
  rest := fun y hy => h.rest y fun heq => hy (htouches y heq)

theorem pgtStep_changes {v : PgtEvent} (h : InPlace x t) (hapart : KeepsApart x tgt t v)
    (hstep : pgtStep x tgt t v u) : Changes x t (.call v) u := by
  have hs := h.shaped
  obtain ⟨call, pe, reply⟩ := v
  cases call with
  | vmmap vma pma attr =>
      obtain ⟨r, hcall, rfl⟩ := bind_pure_eq hstep
      rcases vmmap_cases (serves_spares pe) hs False.elim (hapart.1.isSome hcall) hcall with
        ⟨hattr, rfl, rfl⟩ | ⟨-, -, rfl, rfl⟩ | ⟨-, -, rfl, hgrown, hsame⟩ |
          ⟨hattr, -, rfl, b, hassigns, -⟩
      · exact .of_reach (fun _ _ => rfl) fun y hy => hy.1 hattr
      · exact .of_reach (fun _ _ => rfl) fun y hy => hy
      · exact .of_same (fun y => hsame y (by simp [tablePath])) hgrown.lookup fun y hy => hy
      · refine ⟨fun y => (hassigns.hasTable y).trans ?_, fun y hy => hassigns.rest y hy⟩
        exact or_congr_left (and_iff_right hattr).symm
  | vmunmap vma =>
      obtain ⟨r, hcall, rfl⟩ := bind_pure_eq hstep
      rcases vmunmap_cases hs hcall with ⟨-, -, rfl⟩ | ⟨hsome, -, hassigns⟩
      · exact .of_reach (fun _ _ => rfl) fun y hy => hy
      · obtain ⟨b, hb⟩ := hsome
        exact .of_assigns hassigns (reach_of_cons hb) (fun y hy => hy) fun y hy => hy
  | vmattr vma f =>
      obtain ⟨r, hcall, rfl⟩ := bind_pure_eq hstep
      rcases vmattr_cases hs hcall with ⟨-, -, rfl⟩ | ⟨hfound, -, b, hassigns⟩
      · exact .of_reach (fun _ _ => rfl) fun y hy => hy
      · exact .of_assigns hassigns hfound (fun y hy => hy) fun y hy => hy
  | getPma vma =>
      obtain ⟨-, rfl⟩ := getPma_cases hs hstep
      exact .of_reach (fun _ _ => rfl) fun y hy => hy
  | manager c e =>
      have hreach := (manager_reach hs rfl hapart.2 hstep).2.1
      exact .of_reach hreach fun y hy => hy

theorem tableStep_changes (h : InPlace x t) (hapart : Apart x tgt t v)
    (hstep : tableStep x tgt t v u) (hv : v ≠ .destroy) : Changes x t v u := by
  cases v with
  | call v => exact pgtStep_changes h hapart hstep
  | load es loaded => exact .of_reach (h.load hstep).2.2 fun y hy => hy
  | unload => exact .of_reach (h.unload hstep).2 fun y hy => hy
  | destroy => exact absurd rfl hv

theorem mappedBeside_cons (hv : v ≠ .destroy) :
    MappedBeside vma (v :: vs) ↔ MapsBeside vma v ∨ MappedBeside vma vs := by
  cases v with
  | call v => exact Iff.rfl
  | load es loaded => exact Iff.rfl
  | unload => exact Iff.rfl
  | destroy => exact absurd rfl hv

theorem not_hasTable_of_empty (hpages : t.pages = []) (y : Nat) : ¬ HasTable x t y := by
  unfold HasTable PageTable.reach
  rw [root_of_empty hpages]
  simp

/-- A page has a last table exactly when one beside it was mapped since the table was new. -/
theorem run_hasTable (hnew : t.pages = []) (hslots : t.mgr.mBlocks.length ≤ maxSlots)
    (hrun : Run (When (Apart x tgt) (tableStep x tgt)) t vs u) (y : Nat) :
    HasTable x u y ↔ MappedBeside y vs := by
  induction hrun with
  | nil => exact iff_of_false (not_hasTable_of_empty hnew y) id
  | @snoc vs v u w hfirst hlast ih =>
      have hplace : InPlace x u := run_inPlace (inPlace_of_empty hnew hslots) hfirst
      by_cases hv : v = .destroy
      · subst hv
        have hpages := (destroy_empty hplace.shaped.slots hlast.2).1
        exact iff_of_false (not_hasTable_of_empty hpages y) id
      · have hchanges := tableStep_changes hplace hlast.1 hlast.2 hv
        calc HasTable x w y ↔ MapsBeside y v ∨ HasTable x u y := hchanges.tables y
          _ ↔ MapsBeside y v ∨ MappedBeside y vs := or_congr_right ih
          _ ↔ MappedBeside y (v :: vs) := (mappedBeside_cons hv).symm

/-! ## Setting attributes -/

/-- A page without a table: `vmattr` does nothing. -/
theorem vmattr_missing (hs : Shaped x t) (hmissing : ¬ HasTable x t vma) :
    vmattr x vma f t = some (.ok false, t) := by
  have hnone : t.reach x (tablePath vma) = none :=
    Option.eq_none_iff_forall_ne_some.2 fun a ha => hmissing ⟨a, ha⟩
  unfold vmattr
  rw [bind_ok (attempt_eq (getPteWith_none hs hnone))]
  rfl

/-- In every state reached without disturbance, `vmattr` keeps to mapped pages exactly at a page
that is mapped or that shares its last table with no page that was ever mapped. -/
theorem run_marksMapped_iff (x : X64) (tgt : Target) {t u : PageTable} {vs : List TableEvent}
    {vma : Nat} {f : BitVec 64} (hnew : t.pages = []) (hslots : t.mgr.mBlocks.length ≤ maxSlots)
    (hrun : Run (When (Apart x tgt) (tableStep x tgt)) t vs u) :
    MarksMapped x tgt u vs vma f ↔
      mappedBy vs (pageNumber vma) ≠ none ∨ ¬ MappedBeside vma vs := by
  have hplace : InPlace x u := run_inPlace (inPlace_of_empty hnew hslots) hrun
  have htable := run_hasTable hnew hslots hrun vma
  constructor
  · intro h
    by_contra hnot
    simp only [not_or, Classical.not_not] at hnot
    obtain ⟨-, w, hcall, -⟩ := h.own hnot.1
    rcases vmattr_cases hplace.shaped hcall with ⟨hmissing, -⟩ | ⟨-, htrue, -⟩
    · exact hmissing (htable.2 hnot.2)
    · cases htrue
  · intro hcond
    constructor
    · intro hnone
      have hmissing : ¬ HasTable x u vma := fun h => hcond.resolve_left (· hnone) (htable.1 h)
      have hlookup : getPma x vma u = some (.ok none, u) := by
        rw [getPma_eq hplace.shaped, lookup_none]
        exact Option.eq_none_iff_forall_ne_some.2 fun a ha => hmissing ⟨a, ha⟩
      exact ⟨hlookup, u, vmattr_missing hplace.shaped hmissing, fun _ _ => rfl, hlookup⟩
    · intro v w y hapart hstep htouches
      have hv : v ≠ .destroy := by
        rintro rfl
        exact htouches trivial
      have hrest := (tableStep_changes hplace hapart hstep hv).rest y htouches
      refine ⟨lookup x u y, getPma_eq hplace.shaped y, ?_⟩
      rw [getPma_eq (tableStep_inPlace hplace hapart hstep).shaped, hrest]

/-- `get_pma` leaves the table. -/
theorem getPma_of_result {q : Except PgtError (Option Nat)} (hs : Shaped x t)
    (h : (getPma x vma t).map (fun p => p.1) = some q) : getPma x vma t = some (q, t) := by
  rw [getPma_eq hs] at h ⊢
  rw [← Option.some.inj h]

/-- Page 1 is mapped in a table of four blocks. -/
theorem run_pageOne : ∃ u, Run (When (Apart amd64Tables .x64) (tableStep amd64Tables .x64))
    (newTable 4) [.call (done 10 (.vmmap 0x1000 0x9000 R))] u ∧
    pgtExec amd64Tables .x64 (calmPgt 10) (.vmmap 0x1000 0x9000 R) (newTable 4) =
      some (.ok none, u) := by
  have hmeets : AllocsMeet (Spares amd64Tables) amd64Tables (newTable 4)
      (done 10 (.vmmap 0x1000 0x9000 R)) := by
    decide +kernel
  have hok : (pgtExec amd64Tables .x64 (calmPgt 10) (.vmmap 0x1000 0x9000 R) (newTable 4)).map
      (fun r => r.1) = some (.ok none) := by
    decide +kernel
  obtain ⟨⟨r, u⟩, hcall, rfl⟩ := Option.map_eq_some_iff.1 hok
  have hrespects : Respects amd64Tables .x64 (newTable 4) (done 10 (.vmmap 0x1000 0x9000 R)) :=
    fun c e _ hmanager => by simp [done] at hmanager
  exact ⟨u, .snoc .nil ⟨⟨hmeets, hrespects⟩, hcall⟩, hcall⟩

theorem marksMapped_elsewhere : ∃ u,
    Run (When (Apart amd64Tables .x64) (tableStep amd64Tables .x64)) (newTable 4)
      [.call (done 10 (.vmmap 0x1000 0x9000 R))] u ∧
    MarksMapped amd64Tables .x64 u [.call (done 10 (.vmmap 0x1000 0x9000 R))] 0x200000 R := by
  have hslots : (newTable 4).mgr.mBlocks.length ≤ maxSlots := by decide
  obtain ⟨u, hrun, -⟩ := run_pageOne
  refine ⟨u, hrun, (run_marksMapped_iff amd64Tables .x64 rfl hslots hrun).2 (.inr ?_)⟩
  have hpaths : tablePath 0x1000 ≠ tablePath 0x200000 := by decide
  rintro (⟨-, hpath⟩ | hnever)
  · exact hpaths hpath
  · exact hnever

/-- Page 2 was never mapped: `vmattr` makes it present, and `get_pma` finds it. -/
theorem vmattr_maps_page : ∃ u w,
    Run (When (Apart amd64Tables .x64) (tableStep amd64Tables .x64)) (newTable 4)
      [.call (done 10 (.vmmap 0x1000 0x9000 R))] u ∧
    vmattr amd64Tables 0x2000 R u = some (.ok true, w) ∧
    getPma amd64Tables 0x2000 u = some (.ok none, u) ∧
    getPma amd64Tables 0x2000 w = some (.ok (some 0), w) ∧
    ¬ MarksMapped amd64Tables .x64 u [.call (done 10 (.vmmap 0x1000 0x9000 R))] 0x2000 R := by
  have hslots : (newTable 4).mgr.mBlocks.length ≤ maxSlots := by decide
  obtain ⟨u, hrun, hcall⟩ := run_pageOne
  have hall : ((pgtExec amd64Tables .x64 (calmPgt 10) (.vmmap 0x1000 0x9000 R) (newTable 4)).bind
      fun r => (vmattr amd64Tables 0x2000 R r.2).map fun s =>
        (s.1, (getPma amd64Tables 0x2000 r.2).map fun q => q.1,
          (getPma amd64Tables 0x2000 s.2).map fun q => q.1)) =
      some (.ok true, some (.ok none), some (.ok (some 0))) := by
    decide +kernel
  rw [hcall] at hall
  obtain ⟨⟨found, w⟩, hattr, hpair⟩ := Option.map_eq_some_iff.1 hall
  have hshaped : Shaped amd64Tables u := (run_inPlace (inPlace_of_empty rfl hslots) hrun).shaped
  obtain ⟨rfl, hgets⟩ := Prod.mk.inj hpair
  obtain ⟨hbefore, hafter⟩ := Prod.mk.inj hgets
  have hmapped : Shaped amd64Tables w := by
    rcases vmattr_cases hshaped hattr with ⟨-, -, rfl⟩ | ⟨-, -, b, hassigns⟩
    · exact hshaped
    · exact hassigns.shaped
  refine ⟨u, w, hrun, hattr, getPma_of_result hshaped hbefore, getPma_of_result hmapped hafter, ?_⟩
  intro h
  obtain ⟨-, w', hfalse, -⟩ := h.own (by decide)
  rw [hattr] at hfalse
  cases hfalse

end Vin64.Vm
