import Vin64.Vm.Proofs.Tables

/-!
# When a `vmmap` returns

`get_pte` looks at what `alloc_pgt_block` returns for each table but the root.  A call whose
root is there returns, whatever its other allocations do.
-/

namespace Vin64.Vm

open Vin64.Lib Vin64.Lib.Op Vin64.Utils Vin64.Vram Vin64.Vram.RamManager PageTable

variable {x : X64} {t u : PageTable} {alloc : Fin 4 → Walk Nat} {pe : PgtEnv} {l : Fin 4}
  {vma pma : Nat} {attr : BitVec 64}

/-- The table has no root, and the allocation of the root fails. -/
def RootFails (pe : PgtEnv) (t : PageTable) : Prop :=
  t.pages = [] ∧ ∃ l : Fin 4, (l : Nat) = 0 ∧ ∃ u, allocPgtBlock pe l t = some (.error (), u)

theorem vmmapWith_unreadable (hattr : attr &&& R = 0#64) :
    vmmapWith x alloc vma pma attr t = some (.ok (), t) := by
  unfold vmmapWith
  rw [if_pos hattr]
  rfl

/-- Where the root cannot be allocated, the null pointer is followed. -/
theorem vmmap_of_rootFails (hattr : attr &&& R ≠ 0#64) (h : RootFails pe t) :
    vmmap x pe vma pma attr t = none := by
  obtain ⟨hpages, l, hl, u, hfails⟩ := h
  obtain rfl : l = 0 := Fin.ext hl
  have hroot : rootTable (allocPgtBlock pe) true t = none := by
    unfold rootTable
    rw [bind_ok (a := t) (t := t) rfl, hpages]
    simp only [not_true_eq_false, if_false]
    rw [bind_ok (attempt_eq hfails)]
    rfl
  unfold vmmap vmmapWith
  rw [if_neg hattr]
  exact bind_none (attempt_none (bind_none hroot))

/-! ## Allocations -/

/-- `new` gives the address of no object that is in use. -/
def Unused (e : PgtEnv) (l : Fin 4) (t : PageTable) : Prop :=
  ∀ p ∈ e.new l, p ∉ t.pages ∧ (t.mgr.blocks p).flags = 0#32

instance (e : PgtEnv) (l : Fin 4) : DecidablePred (Unused e l) :=
  fun t => inferInstanceAs
    (Decidable (∀ p ∈ e.new l, p ∉ t.pages ∧ (t.mgr.blocks p).flags = 0#32))

/-- An allocation returns in every state of the manager. -/
theorem ramAllocAddress_ends (s : RamManager) (e : Env) (p : Nat) (flags : BitVec 32) :
    wp (ramAllocAddress e p flags) (fun _ _ => True) (fun _ _ => True) s := by
  unfold ramAllocAddress findFreeOrSwappableAddress
  simp only [wp_bind, wp_get]
  cases hfind : findFreeOrSwappable s e.change with
  | none => trivial
  | some i =>
      have hi := (find_chosen hfind).1
      rw [wp_pure, swap_none_eq]
      apply wp_swap_none hi
      · intro _
        simpa using hi
      · intro m _ _ _
        rw [wp_modifyBlock, wp_setSlot]
        refine ⟨?_, trivial⟩
        show i < (s.mBlocks.set i none).length
        rwa [List.length_set]
      all_goals intros; trivial

theorem allocPgtBlock_ends (h : Unused pe l t) : (allocPgtBlock pe l t).isSome := by
  have hends : wp (allocPgtBlock pe l) (fun _ _ => True) (fun _ _ => True) t := by
    unfold allocPgtBlock
    cases hnew : pe.new l with
    | none => trivial
    | some p =>
        obtain ⟨hout, hzero⟩ := h p hnew
        have huse : ¬ (p ∈ t.pages ∨ (t.mgr.blocks p).flags ≠ 0#32) := by
          rw [hzero]
          simpa using hout
        simp only [wp_bind, wp_get, if_neg huse, wp_attempt, onRam, wp_zoom, wp_modifyBlock]
        apply wp_mono (ramAllocAddress_ends _ (pe.mgr l) p _)
        · exact fun _ _ _ => by simp
        · exact fun _ _ _ => trivial
  exact isSome_of_wp hends

/-! ## The walk -/

section Walk

variable {need : Prop} {q : List (Fin 512)} {a : Nat}

theorem rootTable_ends (halloc : t.pages = [] → ∃ p u, alloc 0 t = some (.ok p, u)) :
    (rootTable alloc true t).isSome := by
  have hends : wp (rootTable alloc true) (fun _ _ => True) (fun _ _ => True) t := by
    unfold rootTable
    rw [wp_bind, wp_get]
    cases hpages : t.pages with
    | cons r rest => trivial
    | nil =>
        obtain ⟨p, u, hp⟩ := halloc hpages
        simp only [not_true_eq_false, if_false]
        rw [wp_bind, wp_of_ok (attempt_eq hp)]
        trivial
  exact isSome_of_wp hends

theorem nextTable_ends (halloc : Serves x need alloc) (hs : Shaped x t) (hneed : need → Held t)
    (hdeep : q.length < 3) (hq : t.reach x q = some a) (j : Fin 512)
    (hends : (x.level q.length).P (t.entry (a + 8 * j)) = false → (alloc l t).isSome) :
    (nextTable alloc (x.level q.length) l true (a + 8 * j) t).isSome := by
  have hin := hs.entry_in_ram (hs.mem (Nat.le_of_lt hdeep) hq) j
  have hwp : wp (nextTable alloc (x.level q.length) l true (a + 8 * j)) (fun _ _ => True)
      (fun _ _ => True) t := by
    unfold nextTable
    simp only [wp_bind, wp_readEntry, wp_ite, not_true_eq_false, false_implies, true_and,
      not_false_eq_true, true_implies, wp_get, wp_pure, wp_modifyEntry, ramSize_setEntry, and_true,
      implies_true]
    refine ⟨hin, fun hwas => ?_⟩
    apply wp_mono (wp_of_wlp (halloc l t hneed) (hends hwas))
    · intro p u hu
      obtain ⟨i, hgain, -⟩ := hu
      have hsize : u.mgr.ramSize = t.mgr.ramSize := by
        unfold ramSize
        rw [hgain.slots, List.length_set]
      rw [hsize]
      exact ⟨hin, hin, hin⟩
    · exact fun _ _ _ => trivial
  exact isSome_of_wp hwp

/-- The indices that lead to the table of a level, the last one first. -/
def pathTo (vma : Nat) : Nat → List (Fin 512)
  | 0 => []
  | l + 1 => levelIndex vma l :: pathTo vma l

theorem length_pathTo (vma l : Nat) : (pathTo vma l).length = l := by
  induction l with
  | zero => rfl
  | succ l ih => rw [pathTo, List.length_cons, ih]

/-- A walk whose root is there comes to its entry, or one of its allocations fails. -/
theorem walkTo_ends {P : PgtEnv → Fin 4 → PageTable → Prop} [∀ pe l, DecidablePred (P pe l)]
    (halloc : Serves x need (allocWhen P pe)) (hs : Shaped x t) (hneed : need → Held t)
    (hmeets : ∀ l : Fin 4, ∀ s ∈ allocatesIn x pe vma t l, P pe l s)
    (hunused : ∀ l : Fin 4, ∀ s ∈ allocatesIn x pe vma t l, Unused pe l s)
    (hroot : ¬ RootFails pe t) {l : Nat} (hl : l < 4) :
    wp (walkTo (allocPgtBlock pe) x vma l)
      (fun a u => Grown x t u ∧ ∃ b, u.reach x (pathTo vma l) = some b ∧
        a = b + 8 * levelIndex vma l) (fun _ _ => True) t := by
  rw [← wp_congr (walkTo_allocWhen hmeets hl)]
  induction l with
  | zero =>
      have hends : (rootTable (allocWhen P pe) true t).isSome := by
        apply rootTable_ends
        intro hpages
        have hmem : t ∈ allocatesIn x pe vma t (0 : Fin 4) := by simp [allocatesIn, hpages]
        obtain ⟨⟨r, u⟩, hr⟩ := Option.isSome_iff_exists.1 (allocPgtBlock_ends (hunused 0 t hmem))
        rw [allocWhen_eq P (hmeets 0 t hmem)]
        cases r with
        | error er => exact absurd ⟨hpages, 0, rfl, u, hr⟩ hroot
        | ok p => exact ⟨p, u, hr⟩
      rw [walkTo, wp_bind]
      apply wp_mono (wp_of_wlp (wlp_rootTable halloc hs hneed) hends)
      · exact fun b u hu => ⟨hu.1, b, hu.2.2.1, rfl⟩
      · exact fun _ _ _ => trivial
  | succ l ih =>
      have hwalk := walkTo_allocWhen hmeets (Nat.lt_of_succ_lt hl)
      have hstep := ih (Nat.lt_of_succ_lt hl)
      rw [walkTo, wp_bind]
      rcases hr : walkTo (allocWhen P pe) x vma l t with _ | ⟨er | a, u⟩
      · obtain ⟨r, u, hu⟩ := wp_result hstep
        rw [hr] at hu
        cases hu
      · unfold wp
        rw [hr]
        trivial
      · obtain ⟨hgrown, b, hb, rfl⟩ := wp_ok hstep hr
        rw [wp_of_ok hr, wp_bind]
        have hlen := length_pathTo vma l
        have hlevel : (levelAt (l + 1) : Nat) = l + 1 := levelAt_val hl
        have hheld : need → Held u := fun hn => hgrown.held (hneed hn)
        have hdeep : (pathTo vma l).length < 3 := by omega
        have hends : (x.level l).P (u.entry (b + 8 * levelIndex vma l)) = false →
            (allocWhen P pe (levelAt (l + 1)) u).isSome := by
          intro hwas
          have hin := hgrown.shaped.entry_in_ram (hgrown.shaped.mem (Nat.le_of_lt hdeep) hb)
            (levelIndex vma l)
          have hmem : u ∈ allocatesIn x pe vma t (levelAt (l + 1)) := by
            rw [hlevel]
            simp [allocatesIn, ← hwalk, hr, hin, hwas]
          rw [allocWhen_eq P (hmeets _ u hmem)]
          exact allocPgtBlock_ends (hunused _ u hmem)
        have hnext := nextTable_ends (l := levelAt (l + 1)) halloc hgrown.shaped hheld hdeep hb
          (levelIndex vma l) (by rwa [hlen])
        have hspec := wlp_nextTable halloc hgrown.shaped hheld hdeep hb (by rw [hlevel, hlen])
          (levelIndex vma l)
        rw [hlen] at hnext hspec
        apply wp_mono (wp_of_wlp hspec hnext)
        · exact fun c w hw => ⟨hgrown.trans hw.1, c, hw.2.2.1, rfl⟩
        · exact fun _ _ _ => trivial

end Walk

/-- A call returns unless it goes on from a null root. -/
theorem vmmap_ends {need : Prop} {P : PgtEnv → Fin 4 → PageTable → Prop}
    [∀ pe l, DecidablePred (P pe l)] {reply : Except PgtError (Option Nat)}
    (halloc : Serves x need (allocWhen P pe)) (hs : Shaped x t) (hneed : need → Held t)
    (hmeets : AllocsMeet P x t ⟨.vmmap vma pma attr, pe, reply⟩)
    (hunused : AllocsMeet Unused x t ⟨.vmmap vma pma attr, pe, reply⟩)
    (hroot : attr &&& R = 0#64 ∨ ¬ RootFails pe t) : (vmmap x pe vma pma attr t).isSome := by
  by_cases hattr : attr &&& R = 0#64
  · unfold vmmap
    rw [vmmapWith_unreadable hattr]
    rfl
  · have hwalk := walkTo_ends halloc hs hneed (hmeets hattr) (hunused hattr)
      (hroot.resolve_left hattr) (l := 3) (by decide)
    have hwp : wp (vmmap x pe vma pma attr) (fun _ _ => True) (fun _ _ => True) t := by
      unfold vmmap vmmapWith
      rw [if_neg hattr, wp_bind, wp_attempt, getPteWith_eq]
      apply wp_mono hwalk
      · intro pte u hu
        obtain ⟨hgrown, b, hb, rfl⟩ := hu
        have hin := hgrown.shaped.entry_in_ram
          (hgrown.shaped.mem (Nat.le_of_eq (length_pathTo vma 3)) hb) (levelIndex vma 3)
        simp only [wp_bind, wp_readEntry, wp_ite, wp_fail, wp_modifyEntry, setAttr, setR, setW,
          setX, ramSize_setEntry, hin, implies_true, and_true, true_and]
      · exact fun _ _ _ => trivial
    exact isSome_of_wp hwp

/-- A call returns if and only if it does not go on from a null root. -/
theorem vmmap_ends_iff {need : Prop} {P : PgtEnv → Fin 4 → PageTable → Prop}
    [∀ pe l, DecidablePred (P pe l)] {reply : Except PgtError (Option Nat)}
    (halloc : Serves x need (allocWhen P pe)) (hs : Shaped x t) (hneed : need → Held t)
    (hmeets : AllocsMeet P x t ⟨.vmmap vma pma attr, pe, reply⟩)
    (hunused : AllocsMeet Unused x t ⟨.vmmap vma pma attr, pe, reply⟩) :
    (vmmap x pe vma pma attr t).isSome ↔ attr &&& R = 0#64 ∨ ¬ RootFails pe t := by
  refine ⟨fun h => ?_, vmmap_ends halloc hs hneed hmeets hunused⟩
  by_contra hnot
  obtain ⟨hattr, hroot⟩ := not_or.1 hnot
  rw [vmmap_of_rootFails hattr (not_not.1 hroot)] at h
  cases h

end Vin64.Vm
