import Vin64.Vm.Proofs.Mapping

/-!
# Page tables over runs

A run mixes the calls of a page table with those of other clients of the manager.  The table
stays a tree as long as no other client disturbs its blocks and the tables it allocates are
its own and empty.
-/

namespace Vin64.Vm

open Vin64.Lib Vin64.Lib.Op Vin64.Utils Vin64.Vram Vin64.Vram.RamManager PageTable

variable {x : X64} {tgt : Target} {t u w : PageTable} {v : PgtEvent}

/-! ## The number of slots -/

section Length

variable {s : RamManager} {e : Env} {n : Nat}

/-- A call of the manager leaves the number of slots. -/
theorem wlp_exec_length (h : s.mBlocks.length ≤ maxSlots) (c : Call) :
    wlp (exec tgt e c) (fun _ u => u.mBlocks.length = s.mBlocks.length)
      (fun _ u => u.mBlocks.length = s.mBlocks.length) s := by
  have hret : ∀ {x : Ram Unit},
      wlp x (fun _ u => u.mBlocks.length = s.mBlocks.length)
        (fun _ u => u.mBlocks.length = s.mBlocks.length) s →
      wlp (x >>= fun _ => pure ([] : List UInt8)) (fun _ u => u.mBlocks.length = s.mBlocks.length)
        (fun _ u => u.mBlocks.length = s.mBlocks.length) s := by
    intro x hx
    rw [wlp_bind]
    exact hx
  have hkept : ∀ {α : Type} {x : Ram α},
      wlp x (fun _ u => KeepsAt 0 s u) (fun _ u => KeepsAt 0 s u) s →
      wlp x (fun _ u => u.mBlocks.length = s.mBlocks.length)
        (fun _ u => u.mBlocks.length = s.mBlocks.length) s :=
    fun hx => wlp_mono hx (fun _ _ hu => hu.2) fun _ _ hu => hu.2
  cases c with
  | alloc q flags =>
      apply hret
      apply wlp_mono wlp_alloc_takes
      · intro _ u hu
        obtain ⟨i, _, htakes⟩ := hu
        rw [htakes.slots, List.length_set]
      · intro _ u hu
        rw [hu.slots]
  | free q =>
      apply hret
      simp only [ramFreeAddress, ramFreeBody, pageFileMarkUsed, markSwapBlockUsed, wlp_bind,
        wlp_blockAt, wlp_ite, wlp_pure, wlp_get, wlp_fail, wlp_modify, wlp_modifyBlock,
        wlp_onBlockInvalid, wlp_setSlot, List.length_set, implies_true, and_self]
  | swapOut q bForce =>
      apply hret
      simp only [ramSwapOut, ramSwapOutBody, wlp_bind, wlp_blockAt, wlp_ite, wlp_pure, wlp_fail,
        wlp_pageFilePreAlloc]
      refine ⟨fun _ => trivial, fun _ => ⟨fun _ => trivial, fun _ => ?_⟩⟩
      apply wlp_storeToStorage
      · intro _ _
        simp only [wlp_mark, wlp_onBlockInvalid, wlp_modifyBlock, wlp_setSlot]
        exact fun _ => List.length_set
      · exact fun _ => rfl
      · exact fun _ _ => rfl
  | swapIn q =>
      apply hret
      simp only [ramSwapIn, wlp_bind, wlp_blockAt, wlp_ite, wlp_pure]
      exact ⟨fun _ => trivial, fun _ => hkept (wlp_swapInBody_keeps h q 0)⟩
  | ensure q =>
      apply hret
      simp only [ensureRamBlock, wlp_bind, wlp_blockAt, wlp_ite, wlp_fail, wlp_pure, wlp_find]
      refine ⟨fun _ => trivial, fun _ => ⟨fun _ => trivial, fun _ => ⟨fun i _ => ?_, fun _ => trivial⟩⟩⟩
      exact hkept (wlp_exchange_keeps h _ 0)
  | directAccess q =>
      rw [exec, wlp_bind]
      exact hkept (wlp_access_keeps h q 0 none)
  | directWrite q off bytes cb => exact hret (hkept (wlp_write_keeps tgt h q 0))
  | directRead q off cb => exact hkept (wlp_read_keeps tgt h q 0)

end Length

/-! ## Conditions on a step -/

theorem refines_getPteWith {alloc alloc' : Fin 4 → Walk Nat} (h : ∀ l, Refines (alloc l) (alloc' l))
    (vma : Nat) (alloc_new : Bool) :
    Refines (getPteWith alloc x vma alloc_new) (getPteWith alloc' x vma alloc_new) := by
  have hroot : Refines (rootTable alloc alloc_new) (rootTable alloc' alloc_new) := by
    unfold rootTable
    apply (Refines.refl _).bind
    intro t
    cases t.pages with
    | cons r rest => exact Refines.refl _
    | nil =>
        cases alloc_new with
        | false => exact Refines.refl _
        | true => exact (h 0).attempt.bind fun r => Refines.refl _
  have hnext : ∀ (f : Format) (l : Fin 4) (a : Nat),
      Refines (nextTable alloc f l alloc_new a) (nextTable alloc' f l alloc_new a) := by
    intro f l a
    unfold nextTable
    apply (Refines.refl _).bind
    intro ent
    by_cases hP : f.P ent = false
    · rw [if_pos hP, if_pos hP]
      cases alloc_new with
      | false => exact Refines.refl _
      | true => exact (h l).bind fun p => Refines.refl _
    · rw [if_neg hP, if_neg hP]
      exact Refines.refl _
  unfold getPteWith
  exact hroot.bind fun _ => (hnext _ _ _).bind fun _ => (hnext _ _ _).bind fun _ =>
    (hnext _ _ _).bind fun _ => Refines.refl _

theorem refines_vmmapWith {alloc alloc' : Fin 4 → Walk Nat} (h : ∀ l, Refines (alloc l) (alloc' l))
    (vma pma : Nat) (attr : BitVec 64) :
    Refines (vmmapWith x alloc vma pma attr) (vmmapWith x alloc' vma pma attr) := by
  unfold vmmapWith
  by_cases hattr : attr &&& R = 0#64
  · rw [if_pos hattr, if_pos hattr]
    exact Refines.refl _
  · rw [if_neg hattr, if_neg hattr]
    exact (refines_getPteWith h vma true).attempt.bind fun r => Refines.refl _

/-! ### The allocations of a walk -/

/-- The indices of an address, that of the root first. -/
def levelIndex (vma : Nat) : Nat → Fin 512
  | 0 => ipml4 vma
  | 1 => ipdpe vma
  | 2 => ipde vma
  | _ => ipte vma

def levelAt (l : Nat) : Fin 4 :=
  ⟨min l 3, Nat.lt_of_le_of_lt (Nat.min_le_right l 3) (Nat.lt_succ_self 3)⟩

theorem levelAt_val {l : Nat} (h : l < 4) : (levelAt l : Nat) = l :=
  Nat.min_eq_left (Nat.le_of_lt_succ h)

/-- `get_pte` up to the entry of level `l`. -/
def walkTo (alloc : Fin 4 → Walk Nat) (x : X64) (vma : Nat) : Nat → Walk Nat
  | 0 => do
    let a ← rootTable alloc true
    return a + 8 * levelIndex vma 0
  | l + 1 => do
    let a ← walkTo alloc x vma l
    let a ← nextTable alloc (x.level l) (levelAt (l + 1)) true a
    return a + 8 * levelIndex vma (l + 1)

theorem getPteWith_eq (alloc : Fin 4 → Walk Nat) (x : X64) (vma : Nat) :
    getPteWith alloc x vma true = walkTo alloc x vma 3 := by
  simp only [walkTo, bind_assoc]
  rfl

/-- The state in which the walk of a call allocates its table of level `l`, if it does. -/
def allocatesIn (x : X64) (pe : PgtEnv) (vma : Nat) (t : PageTable) : Nat → Option PageTable
  | 0 => if t.pages = [] then some t else none
  | l + 1 =>
    match walkTo (allocPgtBlock pe) x vma l t with
    | some (.ok a, s) =>
      if a + 8 ≤ s.mgr.ramSize ∧ (x.level l).P (s.entry a) = false then some s else none
    | _ => none

/-- Each table that a call allocates is allocated in a state that meets a condition. -/
def AllocsMeet (P : PgtEnv → Fin 4 → PageTable → Prop) (x : X64) (t : PageTable) (v : PgtEvent) :
    Prop :=
  match v.call with
  | .vmmap vma _ attr => attr &&& R ≠ 0#64 →
    ∀ l : Fin 4, ∀ s ∈ allocatesIn x v.env vma t l, P v.env l s
  | _ => True

section AllocsMeet

variable {P : PgtEnv → Fin 4 → PageTable → Prop} [∀ pe l, DecidablePred (P pe l)] {pe : PgtEnv}
  {vma pma : Nat} {attr : BitVec 64} {reply : Except PgtError (Option Nat)}

/-- A walk all of whose allocations meet the condition is the walk. -/
theorem walkTo_allocWhen (h : ∀ l : Fin 4, ∀ s ∈ allocatesIn x pe vma t l, P pe l s) {l : Nat}
    (hl : l < 4) : walkTo (allocWhen P pe) x vma l t = walkTo (allocPgtBlock pe) x vma l t := by
  induction l with
  | zero =>
      refine bind_congr ?_ fun _ _ _ => rfl
      refine bind_congr rfl fun s u hget => ?_
      have hstate : (get : Walk PageTable) t = some (.ok t, t) := rfl
      obtain ⟨hs, rfl⟩ := outcome_unique hstate hget
      obtain rfl := Except.ok.inj hs
      cases hpages : t.pages with
      | cons r rest => rfl
      | nil =>
          have hP := h 0 t (by simp [allocatesIn, hpages])
          exact bind_congr (by rw [attempt_congr (allocWhen_eq P hP)]) fun _ _ _ => rfl
  | succ l ih =>
      refine bind_congr (ih (by omega)) fun a s hwalk => ?_
      rw [ih (by omega)] at hwalk
      refine bind_congr ?_ fun _ _ _ => rfl
      refine bind_congr rfl fun ent u hread => ?_
      obtain ⟨hin, rfl, rfl⟩ := readEntry_ok hread
      by_cases hwas : (x.level l).P (s.entry a) = false
      · rw [if_pos hwas, if_pos hwas]
        have hP := h (levelAt (l + 1)) s (by
          rw [levelAt_val hl]
          simp [allocatesIn, hwalk, hin, hwas])
        exact bind_congr (allocWhen_eq P hP) fun _ _ _ => rfl
      · rw [if_neg hwas, if_neg hwas]

/-- A call all of whose allocations meet the condition is the call. -/
theorem AllocsMeet.vmmap_eq (h : AllocsMeet P x t ⟨.vmmap vma pma attr, pe, reply⟩) :
    vmmapWith x (allocWhen P pe) vma pma attr t = vmmap x pe vma pma attr t := by
  unfold vmmap vmmapWith
  by_cases hattr : attr &&& R = 0#64
  · rw [if_pos hattr, if_pos hattr]
  · rw [if_neg hattr, if_neg hattr]
    refine bind_congr (attempt_congr ?_) fun _ _ _ => rfl
    rw [getPteWith_eq, getPteWith_eq]
    exact walkTo_allocWhen (h hattr) (by decide)

theorem AllocsMeet.isSome {r : Except PgtError Unit × PageTable}
    (h : AllocsMeet P x t ⟨.vmmap vma pma attr, pe, reply⟩)
    (hcall : vmmap x pe vma pma attr t = some r) :
    (vmmapWith x (allocWhen P pe) vma pma attr t).isSome := by
  rw [h.vmmap_eq, hcall]
  rfl

end AllocsMeet

/-- The blocks of the table are in their slots as they were, with the same bytes. -/
structure Undisturbed (t u : PageTable) : Prop where
  kept : ∀ q ∈ t.pages, u.mgr.blocks q = t.mgr.blocks q
  slots : ∀ q ∈ t.pages, ∀ k : Nat, t.mgr.mBlocks[k]? = some (some q) →
    u.mgr.mBlocks[k]? = some (some q) ∧ u.mgr.slotPage k = t.mgr.slotPage k

/-- A call of another client does not disturb the table. -/
def Respects (x : X64) (tgt : Target) (t : PageTable) (v : PgtEvent) : Prop :=
  ∀ c e u, v.call = .manager c e → pgtStep x tgt t v u → Undisturbed t u

/-! ## Steps -/

section Step

variable {need : Prop} {P : PgtEnv → Fin 4 → PageTable → Prop} [∀ pe l, DecidablePred (P pe l)]

/-- What a `vmmap` does, in every case. -/
theorem vmmap_cases {pe : PgtEnv} {vma pma : Nat} {attr : BitVec 64} {r : Except PgtError Unit}
    (halloc : Serves x need (allocWhen P pe)) (hs : Shaped x t) (hneed : need → Held t)
    (hmeets : (vmmapWith x (allocWhen P pe) vma pma attr t).isSome)
    (hcall : vmmap x pe vma pma attr t = some (r, u)) :
    (attr &&& R = 0#64 ∧ r = .ok () ∧ u = t) ∨
    (attr &&& R ≠ 0#64 ∧ (∃ b, lookup x t vma = some b) ∧ r = .error .E_UNEXPECTED ∧ u = t) ∨
    (attr &&& R ≠ 0#64 ∧ lookup x t vma = none ∧ r = .error .E_OUTOFMEMORY ∧ Grown x t u ∧
      SameBut x t u []) ∨
    (attr &&& R ≠ 0#64 ∧ lookup x t vma = none ∧ r = .ok () ∧
      ∃ b, Assigns x t u vma (some b) ∧ (x.pte.keeps pma → b = pma)) := by
  have hsame := (refines_vmmapWith (refines_allocWhen P pe) vma pma attr).eq hmeets hcall
  by_cases hattr : attr &&& R = 0#64
  · left
    have hret : vmmap x pe vma pma attr t = some (.ok (), t) := by
      unfold vmmap vmmapWith
      rw [if_pos hattr]
      rfl
    obtain ⟨hr, hu⟩ := outcome_unique hcall hret
    exact ⟨hattr, hr, hu⟩
  · right
    cases hv : lookup x t vma with
    | some b =>
        left
        obtain ⟨hr, hu⟩ := outcome_unique hsame (vmmapWith_mapped hs hattr hv)
        exact ⟨hattr, ⟨b, rfl⟩, hr, hu⟩
    | none =>
        right
        have hwlp := wlp_vmmapWith (p := pma) halloc hs hneed hattr hv
        cases r with
        | error er =>
            obtain ⟨rfl, hgrown⟩ := wlp_error hwlp hsame
            exact .inl ⟨hattr, rfl, rfl, hgrown⟩
        | ok value =>
            have hassigns := wlp_ok hwlp hsame
            exact .inr ⟨hattr, rfl, rfl, hassigns⟩

theorem vmunmap_cases {vma : Nat} {r : Except PgtError Unit} (hs : Shaped x t)
    (hcall : vmunmap x vma t = some (r, u)) :
    (lookup x t vma = none ∧ (∃ er, r = .error er) ∧ u = t) ∨
    ((∃ b, lookup x t vma = some b) ∧ r = .ok () ∧ Assigns x t u vma none) := by
  cases hv : lookup x t vma with
  | none =>
      left
      obtain ⟨er, heq⟩ := vmunmap_unmapped hs hv
      obtain ⟨hr, hu⟩ := outcome_unique hcall heq
      exact ⟨rfl, ⟨er, hr⟩, hu⟩
  | some b =>
      right
      obtain ⟨w, heq, hassigns⟩ := vmunmap_mapped hs hv
      obtain ⟨hr, rfl⟩ := outcome_unique hcall heq
      exact ⟨⟨b, rfl⟩, hr, hassigns⟩

theorem vmattr_cases {vma : Nat} {f : BitVec 64} {r : Except PgtError Bool} (hs : Shaped x t)
    (hcall : vmattr x vma f t = some (r, u)) :
    (¬ HasTable x t vma ∧ r = .ok false ∧ u = t) ∨
    (HasTable x t vma ∧ r = .ok true ∧ ∃ b, Assigns x t u vma b) := by
  have hwlp := wlp_vmattr hs vma f
  cases r with
  | error er => exact (wlp_error hwlp hcall).elim
  | ok found =>
      have hok := wlp_ok hwlp hcall
      simpa only [Except.ok.injEq] using hok

theorem getPma_cases {pe : PgtEnv} {vma : Nat} {reply : Except PgtError (Option Nat)}
    (hs : Shaped x t) (hstep : pgtStep x tgt t ⟨.getPma vma, pe, reply⟩ u) :
    reply = .ok (lookup x t vma) ∧ u = t := outcome_unique hstep (getPma_eq hs vma)

/-- What a run keeps: the table is in shape, and it is locked if that is needed. -/
structure InShape (x : X64) (need : Prop) (t : PageTable) : Prop where
  shaped : Shaped x t
  held : need → Held t

theorem InShape.assigns {vma : Nat} {r : Option Nat} (h : InShape x need t)
    (h' : Assigns x t u vma r) : InShape x need u := ⟨h'.shaped, fun hn => h'.held (h.held hn)⟩

/-- The call of another client keeps the tables. -/
theorem manager_reach {c : Call} {e : Env} (hs : Shaped x t) (hcall : v.call = .manager c e)
    (hrespects : Respects x tgt t v) (hstep : pgtStep x tgt t v u) :
    Shaped x u ∧ (∀ q, q.length ≤ 4 → u.reach x q = t.reach x q) ∧ u.attr = t.attr ∧
      u.pages = t.pages := by
  have hund := hrespects c e u hcall hstep
  unfold pgtStep at hstep
  rw [hcall] at hstep
  have hwlp : wlp (pgtExec x tgt v.env (.manager c e))
      (fun _ u => u.attr = t.attr ∧ u.pages = t.pages ∧
        u.mgr.mBlocks.length = t.mgr.mBlocks.length)
      (fun _ u => u.attr = t.attr ∧ u.pages = t.pages ∧
        u.mgr.mBlocks.length = t.mgr.mBlocks.length) t := by
    simp only [pgtExec, wlp_bind, wlp_attempt, onRam, wlp_zoom, wlp_pure]
    exact wlp_mono (wlp_exec_length hs.slots c) (fun _ _ hu => ⟨trivial, trivial, hu⟩)
      fun _ _ hu => ⟨trivial, trivial, hu⟩
  obtain ⟨hattr, hpages, hlen⟩ := wlp_any hwlp hstep
  obtain ⟨hshaped, hreach⟩ := hs.congr_reach hpages hlen
    (fun q hq => by rw [hund.kept q hq]) hund.slots
  exact ⟨hshaped, hreach, hattr, hpages⟩

/-- The call of another client keeps the table and its mappings. -/
theorem manager_step {c : Call} {e : Env} (h : InShape x need t) (hcall : v.call = .manager c e)
    (hrespects : Respects x tgt t v) (hstep : pgtStep x tgt t v u) :
    InShape x need u ∧ (∀ y, lookup x u y = lookup x t y) ∧ u.attr = t.attr ∧
      u.pages = t.pages := by
  have hund := hrespects c e u hcall hstep
  obtain ⟨hshaped, hreach, hattr, hpages⟩ := manager_reach h.shaped hcall hrespects hstep
  refine ⟨⟨hshaped, fun hn => ⟨?_, ?_⟩⟩, fun y => hreach (path y) (Nat.le_refl 4), hattr, hpages⟩
  · rw [hattr]
    exact (h.held hn).loaded
  · intro q hq
    rw [hpages] at hq
    rw [hund.kept q hq]
    exact (h.held hn).locked q hq

theorem pgtStep_inShape (halloc : ∀ pe, Serves x need (allocWhen P pe)) (h : InShape x need t)
    (hmeets : AllocsMeet P x t v) (hrespects : Respects x tgt t v) (hstep : pgtStep x tgt t v u) :
    InShape x need u := by
  obtain ⟨call, pe, reply⟩ := v
  cases call with
  | vmmap vma pma attr =>
      obtain ⟨r, hcall, _⟩ := bind_pure_eq hstep
      rcases vmmap_cases (halloc pe) h.shaped h.held (hmeets.isSome hcall) hcall with
        ⟨_, _, rfl⟩ | ⟨_, _, _, rfl⟩ | ⟨_, _, _, hgrown, _⟩ | ⟨_, _, _, b, hassigns, _⟩
      · exact h
      · exact h
      · exact ⟨hgrown.shaped, fun hn => hgrown.held (h.held hn)⟩
      · exact h.assigns hassigns
  | vmunmap vma =>
      obtain ⟨r, hcall, _⟩ := bind_pure_eq hstep
      rcases vmunmap_cases h.shaped hcall with ⟨_, _, rfl⟩ | ⟨_, _, hassigns⟩
      · exact h
      · exact h.assigns hassigns
  | vmattr vma f =>
      obtain ⟨r, hcall, _⟩ := bind_pure_eq hstep
      rcases vmattr_cases h.shaped hcall with ⟨_, _, rfl⟩ | ⟨_, _, b, hassigns⟩
      · exact h
      · exact h.assigns hassigns
  | getPma vma =>
      obtain ⟨_, rfl⟩ := getPma_cases h.shaped hstep
      exact h
  | manager c e => exact (manager_step h rfl hrespects hstep).1

/-- A new table is in shape. -/
theorem PageTable.shaped_of_empty (hpages : t.pages = []) (hslots : t.mgr.mBlocks.length ≤ maxSlots) :
    Shaped x t ∧ ∀ y, lookup x t y = none := by
  have hroot := root_of_empty hpages
  refine ⟨⟨hslots, ?_, ?_⟩, ?_⟩
  · rw [hpages]
    simp
  · rw [hroot]
    simp
  · intro y
    unfold PageTable.lookup PageTable.reach
    rw [hroot]
    rfl

end Step

/-! ## Runs by evaluation -/

instance (P : PgtEnv → Fin 4 → PageTable → Prop) [∀ pe l, DecidablePred (P pe l)] (x : X64)
    (t : PageTable) (v : PgtEvent) : Decidable (AllocsMeet P x t v) :=
  match v with
  | ⟨.vmmap vma _ attr, pe, _⟩ => inferInstanceAs (Decidable (attr &&& R ≠ 0#64 →
      ∀ l : Fin 4, ∀ s ∈ allocatesIn x pe vma t l, P pe l s))
  | ⟨.vmunmap _, _, _⟩ => isTrue trivial
  | ⟨.vmattr _ _, _, _⟩ => isTrue trivial
  | ⟨.getPma _, _, _⟩ => isTrue trivial
  | ⟨.manager _ _, _, _⟩ => isTrue trivial

/-- The state after an event that meets a test and returns what it records. -/
def replay (ok : PageTable → PgtEvent → Bool) (x : X64) (tgt : Target) (t : PageTable)
    (v : PgtEvent) : Option PageTable := do
  let r ← pgtExec x tgt v.env v.call t
  if ok t v ∧ r.1 = v.reply then some r.2 else none

theorem run_of_replay_eq {ok : PageTable → PgtEvent → Bool} (ok' : PageTable → PgtEvent → Prop)
    (hok : ∀ t v, ok t v = true → ok' t v) {t u : PageTable} {vs : List PgtEvent}
    (h : runAll (replay ok x tgt) t vs = some u) :
    Run (When ok' (pgtStep x tgt)) t vs.reverse u := by
  have hstart : Run (fun t v u => replay ok x tgt t v = some u) t [] t := .nil
  have hrun := run_of_runAll hstart h
  rw [List.append_nil] at hrun
  refine hrun.mono ?_
  intro t v w hw
  obtain ⟨r, hexec, hrest⟩ := Option.bind_eq_some_iff.1 hw
  have htest : (ok t v = true ∧ r.1 = v.reply) ∧ r.2 = w := by simpa using hrest
  refine ⟨hok t v htest.1.1, ?_⟩
  unfold pgtStep
  rw [hexec, ← htest.1.2, ← htest.2]

theorem run_of_replay {ok : PageTable → PgtEvent → Bool} (ok' : PageTable → PgtEvent → Prop)
    (hok : ∀ t v, ok t v = true → ok' t v) {t : PageTable} {vs : List PgtEvent}
    (h : (runAll (replay ok x tgt) t vs).isSome) :
    ∃ u, Run (When ok' (pgtStep x tgt)) t vs.reverse u := by
  obtain ⟨u, hu⟩ := Option.isSome_iff_exists.1 h
  exact ⟨u, run_of_replay_eq ok' hok hu⟩

/-- A new table on a manager of some slots. -/
def newTable (slots : Nat) : PageTable :=
  ⟨{ Vram.oneSlot with mBlocks := List.replicate slots none }, 0#64, []⟩

theorem newTable_new (slots : Nat) : (newTable slots).New := ⟨rfl, rfl⟩

theorem newTable_started (slots : Nat) : (newTable slots).mgr.Started where
  unused := fun _ => rfl
  slots := by
    intro i pb
    show (List.replicate slots (none : Option Nat))[i]? ≠ some (some pb)
    simp [List.getElem?_replicate]
  bits := rfl
  grows := Nat.succ_pos 3

/-- `new` gives the addresses from `p` on. -/
def calmPgt (p : Nat) : PgtEnv := ⟨fun l => some (p + (l : Nat)), fun _ => calm⟩

/-- A call that succeeds and returns nothing. -/
def done (p : Nat) (c : PgtCall) : PgtEvent := ⟨c, calmPgt p, .ok none⟩

/-! ## Tables that are not loaded -/

/-- The slots of the tables that a `vmmap` allocates hold no other table, and the pages of the
free ones have no present entry; another client does not disturb the table. -/
def KeepsApart (x : X64) (tgt : Target) (t : PageTable) (v : PgtEvent) : Prop :=
  AllocsMeet (Spares x) x t v ∧ Respects x tgt t v

theorem run_shaped {t u : PageTable} {vs : List PgtEvent} (hnew : t.New)
    (hslots : t.mgr.mBlocks.length ≤ maxSlots)
    (hrun : Run (When (KeepsApart x tgt) (pgtStep x tgt)) t vs u) : Shaped x u := by
  have hinv : InShape x False u := by
    apply hrun.invariant
    · exact ⟨(shaped_of_empty hnew.pages hslots).1, False.elim⟩
    · exact fun t v u h hstep => pgtStep_inShape serves_spares h hstep.1.1 hstep.1.2 hstep.2
  exact hinv.shaped

/-- In a RAM below 4 GiB, if no other client disturbed the table and the tables it allocated
were its own and empty, then a `vmmap` that succeeds maps its page, leaves every other page
mapped as it was, and writes no page of a block that is not the table's. -/
theorem run_vmmap_maps (x : X64) (tgt : Target) {t u w : PageTable} {vs : List PgtEvent}
    {pe : PgtEnv} {vma pma : Nat} {attr : BitVec 64} (hnew : t.New)
    (hslots : t.mgr.mBlocks.length ≤ maxSlots)
    (hrun : Run (When (KeepsApart x tgt) (pgtStep x tgt)) t vs u)
    (hmeets : AllocsMeet (Spares x) x u ⟨.vmmap vma pma attr, pe, .ok none⟩)
    (hattr : attr &&& R ≠ 0#64) (hkeeps : x.pte.keeps pma)
    (hcall : vmmap x pe vma pma attr u = some (.ok (), w)) :
    getPma x vma w = some (.ok (some pma), w) ∧
    (∀ vma', pageNumber vma' ≠ pageNumber vma → ∃ r, getPma x vma' u = some (.ok r, u) ∧
      getPma x vma' w = some (.ok r, w)) ∧
    ∀ k m : Nat, w.mgr.mBlocks[k]? = some (some m) → m ∉ w.pages →
      u.mgr.mBlocks[k]? = some (some m) ∧ w.mgr.slotPage k = u.mgr.slotPage k := by
  have hs := run_shaped hnew hslots hrun
  rcases vmmap_cases (serves_spares pe) hs False.elim (hmeets.isSome hcall) hcall with
    ⟨hzero, _, _⟩ | ⟨_, _, herr, _⟩ | ⟨_, _, herr, _⟩ | ⟨_, _, _, b, hassigns, hb⟩
  · exact absurd hzero hattr
  · simp at herr
  · simp at herr
  · rw [hb hkeeps] at hassigns
    refine ⟨?_, ?_, hassigns.spared⟩
    · rw [getPma_eq hassigns.shaped, hassigns.here vma rfl]
    · intro vma' hne
      refine ⟨lookup x u vma', getPma_eq hs vma', ?_⟩
      rw [getPma_eq hassigns.shaped, hassigns.rest vma' hne]

/-- The table for page 1 is there when page 2 is mapped. -/
theorem run_vmmap_maps_fourSlots : ∃ u w, Run (When (KeepsApart amd64Tables .x64)
    (pgtStep amd64Tables .x64)) (newTable 4) [done 10 (.vmmap 0x1000 0x9000 R)] u ∧
    vmmap amd64Tables (calmPgt 20) 0x2000 0x8000 R u = some (.ok (), w) ∧
    getPma amd64Tables 0x2000 w = some (.ok (some 0x8000), w) := by
  have hall : (runAll (replay (fun t v => decide (AllocsMeet (Spares amd64Tables) amd64Tables t v))
      amd64Tables .x64) (newTable 4)
      [done 10 (.vmmap 0x1000 0x9000 R), done 20 (.vmmap 0x2000 0x8000 R)]).isSome := by
    decide +kernel
  obtain ⟨w, hrun⟩ := run_of_replay (AllocsMeet (Spares amd64Tables) amd64Tables)
    (fun t v h => of_decide_eq_true h) hall
  have hreverse : [done 10 (.vmmap 0x1000 0x9000 R), done 20 (.vmmap 0x2000 0x8000 R)].reverse =
    [done 20 (.vmmap 0x2000 0x8000 R), done 10 (.vmmap 0x1000 0x9000 R)] := rfl
  rw [hreverse] at hrun
  cases hrun with
  | @snoc _ _ u _ hfirst hlast =>
      have hstart : Run (When (KeepsApart amd64Tables .x64) (pgtStep amd64Tables .x64)) (newTable 4)
          [done 10 (.vmmap 0x1000 0x9000 R)] u := by
        cases hfirst with
        | snoc hnil hstep =>
            cases hnil
            exact .snoc .nil ⟨⟨hstep.1, fun c e _ hcall => by simp [done] at hcall⟩, hstep.2⟩
      obtain ⟨r, hcall, hr⟩ := bind_pure_eq hlast.2
      cases r with
      | error er => simp [done, Except.map] at hr
      | ok value =>
          have hslots : (newTable 4).mgr.mBlocks.length ≤ maxSlots := by decide
          have hmaps := run_vmmap_maps amd64Tables .x64 (newTable_new 4) hslots hstart hlast.1
            (by decide) (show 0x8000 < 2 ^ 40 by decide) hcall
          exact ⟨u, w, hstart, hcall, hmaps.1⟩

/-- In a RAM of one slot each table of the walk takes the slot of the one before it: the page
is not mapped after `vmmap` succeeded. -/
theorem vmmap_loses_page : ∃ u, Run (pgtStep amd64Tables .x64) (newTable 1)
    [⟨.getPma 0x18080200000, calmPgt 0, .ok none⟩, done 10 (.vmmap 0x18080200000 0x9000 R)] u := by
  have hall : (runAll (replay (fun _ _ => true) amd64Tables .x64) (newTable 1)
      [done 10 (.vmmap 0x18080200000 0x9000 R),
        ⟨.getPma 0x18080200000, calmPgt 0, .ok none⟩]).isSome := by
    decide +kernel
  obtain ⟨u, hrun⟩ := run_of_replay (fun _ _ => True) (fun _ _ _ => trivial) hall
  exact ⟨u, hrun.mono fun _ _ _ h => h.2⟩

/-- In a RAM below 4 GiB, if the tables that the first `vmmap` allocates are its own and
empty, it maps its page and no other, whatever the manager was used for before. -/
theorem first_vmmap_maps (x : X64) {t u : PageTable} {pe : PgtEnv} {vma pma : Nat}
    {attr : BitVec 64} (hnew : t.New) (hslots : t.mgr.mBlocks.length ≤ maxSlots)
    (hmeets : AllocsMeet (Spares x) x t ⟨.vmmap vma pma attr, pe, .ok none⟩)
    (hattr : attr &&& R ≠ 0#64) (hcall : vmmap x pe vma pma attr t = some (.ok (), u)) :
    ∃ b, (x.pte.keeps pma → b = pma) ∧ ∀ vma', getPma x vma' u =
      some (.ok (if pageNumber vma' = pageNumber vma then some b else none), u) := by
  obtain ⟨hs, hnone⟩ := shaped_of_empty (x := x) hnew.pages hslots
  rcases vmmap_cases (serves_spares pe) hs False.elim (hmeets.isSome hcall) hcall with
    ⟨hzero, _, _⟩ | ⟨_, _, herr, _⟩ | ⟨_, _, herr, _⟩ | ⟨_, _, _, b, hassigns, hb⟩
  · exact absurd hzero hattr
  · simp at herr
  · simp at herr
  · refine ⟨b, hb, fun vma' => ?_⟩
    rw [getPma_eq hassigns.shaped]
    by_cases hpage : pageNumber vma' = pageNumber vma
    · rw [if_pos hpage, hassigns.here vma' hpage]
    · rw [if_neg hpage, hassigns.rest vma' hpage, hnone]

theorem first_vmmap_maps_fourSlots : ∃ u,
    vmmap amd64Tables (calmPgt 10) 0x1000 0x9000 R (newTable 4) = some (.ok (), u) ∧
      getPma amd64Tables 0x1000 u = some (.ok (some 0x9000), u) ∧
      getPma amd64Tables 0x2000 u = some (.ok none, u) := by
  have hmeets : AllocsMeet (Spares amd64Tables) amd64Tables (newTable 4)
      (done 10 (.vmmap 0x1000 0x9000 R)) := by
    decide +kernel
  have hok : ((vmmap amd64Tables (calmPgt 10) 0x1000 0x9000 R (newTable 4)).map fun r => r.1) =
      some (.ok ()) := by
    decide +kernel
  obtain ⟨⟨r, u⟩, hcall, rfl⟩ := Option.map_eq_some_iff.1 hok
  have hslots : (newTable 4).mgr.mBlocks.length ≤ maxSlots := by decide
  obtain ⟨b, hb, hmaps⟩ := first_vmmap_maps amd64Tables (newTable_new 4) hslots hmeets (by decide)
    hcall
  rw [hb (show 0x9000 < 2 ^ 40 by decide)] at hmaps
  exact ⟨u, hcall, hmaps 0x1000, hmaps 0x2000⟩

/-- A block writes a byte and is freed, and the root of a new table gets its slot: a page that
`vmmap` was not called for is mapped. -/
theorem first_vmmap_shows_stale : pageNumber 0x28140A05000 ≠ pageNumber 0 ∧
    ∃ u, Run (pgtStep amd64Tables .x64) (newTable 4)
      [⟨.getPma 0x28140A05000, calmPgt 0, .ok (some 0)⟩, done 10 (.vmmap 0 0x9000 R),
        done 0 (.manager (.free 1) calm), done 0 (.manager (.directWrite 1 40 (fun _ => 1) 1) calm),
        done 0 (.manager (.alloc 1 0) calm)] u := by
  have hall : (runAll (replay (fun _ _ => true) amd64Tables .x64) (newTable 4)
      [done 0 (.manager (.alloc 1 0) calm),
        done 0 (.manager (.directWrite 1 40 (fun _ => 1) 1) calm),
        done 0 (.manager (.free 1) calm), done 10 (.vmmap 0 0x9000 R),
        ⟨.getPma 0x28140A05000, calmPgt 0, .ok (some 0)⟩]).isSome := by
    decide +kernel
  obtain ⟨u, hrun⟩ := run_of_replay (fun _ _ => True) (fun _ _ _ => trivial) hall
  exact ⟨by decide, u, hrun.mono fun _ _ _ h => h.2⟩

end Vin64.Vm
