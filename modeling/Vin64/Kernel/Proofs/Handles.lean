import Vin64.Kernel.Handles

/-!
# Which allocations of a handle are good

Every handle of the table is a multiple of 4, so the largest one plus 4 is a new handle
unless the sum wraps.
-/

namespace Vin64.Kernel.KsHandleManager

open Vin64.Lib Vin64.Vram

variable {w : Nat}

/-- The largest handle of the type: the one after it is 0. -/
def lastHandle : UInt32_t := ⟨4294967292, by omega⟩

def Aligned (m : KsHandleManager) : Prop := ∀ e ∈ m.entries, e.1.val % 4 = 0

theorem next_aligned {m : KsHandleManager} (h : m.Aligned) : m.next.val % 4 = 0 := by
  unfold next
  cases hlast : m.last with
  | none => rfl
  | some e =>
      have he := h e (SortedMap.last_mem hlast)
      show (e.1 + 4).val % 4 = 0
      have hfour : (4 : UInt32_t).val = 4 := rfl
      rw [Fin.val_add, hfour]
      omega

theorem aligned_assign_next {m : KsHandleManager} (h : m.Aligned) (entry : Handle) :
    KsHandleManager.Aligned (m.assign m.next entry) := by
  intro e he
  rcases SortedMap.mem_assign.1 he with rfl | ⟨he, -⟩
  · exact next_aligned h
  · exact h e he

theorem aligned_erase {m : KsHandleManager} (h : m.Aligned) (hv : UInt32_t) :
    KsHandleManager.Aligned (m.erase hv) :=
  fun e he => h e (SortedMap.mem_erase.1 he).1

theorem allocHandle_eq_ok_iff {m m' : KsHandleManager} {ph : Option (BitVec w)} {ob : Option Nat}
    {hacc : UInt32_t} : m.allocHandle ph ob hacc = .ok m' ↔
      ∃ v o, ph = some v ∧ ob = some o ∧ m' = m.assign m.next ⟨hacc, o⟩ := by
  unfold allocHandle
  split
  · constructor
    · intro h
      exact ⟨_, _, rfl, rfl, (Except.ok.inj h).symm⟩
    · intro h
      obtain ⟨v, o, hv, ho, rfl⟩ := h
      cases hv
      cases ho
      rfl
  · rename_i hnull
    constructor
    · intro h
      cases h
    · intro h
      obtain ⟨v, o, rfl, rfl, -⟩ := h
      exact absurd rfl (hnull v o rfl)

theorem freeHandle_ok {m m' : KsHandleManager} {h : BitVec w} (hfree : m.freeHandle h = .ok m') :
    m' = m.erase (Fin.ofNat _ h.toNat) := by
  unfold freeHandle at hfree
  split at hfree
  · cases hfree
  · split at hfree
    · cases hfree
    · exact (Except.ok.inj hfree).symm

theorem call_aligned {m m' : KsHandleManager} {c : HandleCall w} (h : m.Aligned)
    (hcall : m.call c = .ok m') : m'.Aligned := by
  cases c with
  | allocHandle ph ob hacc =>
      obtain ⟨v, o, -, -, rfl⟩ := allocHandle_eq_ok_iff.1 hcall
      exact aligned_assign_next h _
  | freeHandle hv =>
      have heq := freeHandle_ok hcall
      exact heq ▸ aligned_erase h _

theorem after_aligned {m : KsHandleManager} (h : m.Aligned) (c : HandleCall w) :
    (m.after c).Aligned := by
  unfold after
  cases hcall : m.call c with
  | error e => exact h
  | ok m' => exact call_aligned h hcall

theorem run_aligned {calls : List (HandleCall w)} {m : KsHandleManager}
    (hrun : Run Step SortedMap.empty calls m) : m.Aligned := by
  refine hrun.invariant ?_ fun m c m' h hstep => hstep ▸ after_aligned h c
  intro e he
  cases he

/-- Below the largest handle the next one is above all that are live. -/
theorem lt_next {m : KsHandleManager} (h : m.Aligned) (hfree : m.find lastHandle = none)
    {e : UInt32_t × Handle} (he : e ∈ m.entries) : e.1 < m.next := by
  unfold next
  cases hlast : m.last with
  | none =>
      have hempty : m.entries = [] := List.getLast?_eq_none_iff.1 hlast
      rw [hempty] at he
      cases he
  | some top =>
      have hle : e.1 ≤ top.1 := SortedMap.le_last hlast he
      have halign := h top (SortedMap.last_mem hlast)
      have htop : top.1 ≠ lastHandle := by
        intro heq
        have hfind := SortedMap.find_eq_some_iff.2 (SortedMap.last_mem hlast)
        rw [heq, hfree] at hfind
        cases hfind
      have hne : top.1.val ≠ 4294967292 := fun heq => htop (Fin.ext heq)
      have hfour : (4 : UInt32_t).val = 4 := rfl
      have hbound := top.1.isLt
      show e.1.val < (top.1 + 4).val
      have hle' : e.1.val ≤ top.1.val := hle
      rw [Fin.val_add, hfour, Nat.mod_eq_of_lt (by omega)]
      omega

theorem next_ne_zero {m : KsHandleManager} (h : m.Aligned) (hfree : m.find lastHandle = none) :
    m.next ≠ 0 := by
  cases hlast : m.last with
  | none =>
      have hnext : m.next = 4 := by unfold next; rw [hlast]
      rw [hnext]
      decide
  | some e =>
      have hlt := lt_next h hfree (SortedMap.last_mem hlast)
      exact Fin.ne_zero_of_lt hlt

/-- After the largest handle comes 0. -/
theorem next_eq_zero {m : KsHandleManager} {entry : Handle}
    (hlive : m.find lastHandle = some entry) (h : m.Aligned) : m.next = 0 := by
  have hmem := SortedMap.find_eq_some_iff.1 hlive
  cases hlast : m.last with
  | none =>
      have hempty : m.entries = [] := List.getLast?_eq_none_iff.1 hlast
      rw [hempty] at hmem
      cases hmem
  | some top =>
      have hle : lastHandle ≤ top.1 := SortedMap.le_last hlast hmem
      have halign := h top (SortedMap.last_mem hlast)
      have hbound := top.1.isLt
      have hle' : 4294967292 ≤ top.1.val := hle
      have htop : top.1 = lastHandle := Fin.ext (by show top.1.val = 4294967292; omega)
      have hnext : m.next = top.1 + 4 := by unfold next; rw [hlast]
      rw [hnext, htop]
      rfl

theorem adds_assign_iff {m : KsHandleManager} (h : m.Aligned) (entry : Handle) :
    m.Adds (m.assign m.next entry) entry ↔ m.find lastHandle = none := by
  constructor
  · intro hadds
    obtain ⟨hv, hne, -, hnew, hfind, -⟩ := hadds
    cases hlive : m.find lastHandle with
    | none => rfl
    | some old =>
        have hzero := next_eq_zero hlive h
        rw [hzero, SortedMap.find_assign_of_ne entry hne, hnew] at hfind
        cases hfind
  · intro hfree
    have hnew : m.find m.next = none :=
      SortedMap.find_eq_none_of_forall fun e he => (lt_next h hfree he).ne
    refine ⟨m.next, next_ne_zero h hfree, next_aligned h, hnew, SortedMap.find_assign_self .., ?_⟩
    intro k hk
    exact SortedMap.find_assign_of_ne entry hk

/-- After any calls an allocation that succeeds adds one entry under a handle of its own, as
long as the largest handle is free. -/
theorem run_allocHandle_adds_iff {calls : List (HandleCall w)} {m m' : KsHandleManager}
    {ph : Option (BitVec w)} {ob : Nat} {hacc : UInt32_t}
    (hrun : Run Step SortedMap.empty calls m) (hcall : m.allocHandle ph (some ob) hacc = .ok m') :
    m.Adds m' ⟨hacc, ob⟩ ↔ m.find lastHandle = none := by
  obtain ⟨v, o, -, ho, rfl⟩ := allocHandle_eq_ok_iff.1 hcall
  cases ho
  exact adds_assign_iff (run_aligned hrun) _

theorem run_allocHandle_adds_iff_first :
    Adds SortedMap.empty (SortedMap.assign SortedMap.empty 4 ⟨1, 7⟩) ⟨1, 7⟩ ↔
      SortedMap.find (SortedMap.empty : KsHandleManager) lastHandle = none :=
  @run_allocHandle_adds_iff 64 [] _ _ (some 0) 7 1 .nil rfl

/-! ## A run that comes to the largest handle

A caller that allocates a handle before it frees the one it has walks through all of them. -/

def single (hv : UInt32_t) (entry : Handle) : KsHandleManager := ⟨[(hv, entry)], by simp⟩

def allocCall (entry : Handle) : HandleCall 64 := .allocHandle (some 0) (some entry.object) entry.hacc

def freeCall (hv : UInt32_t) : HandleCall 64 := .freeHandle (BitVec.ofNat 64 hv.val)

theorem freeHandle_of_live {m : KsHandleManager} {h : BitVec w} {entry : Handle}
    (halign : h.toNat % 4 = 0) (hlive : m.find (Fin.ofNat _ h.toNat) = some entry) :
    m.freeHandle h = .ok (m.erase (Fin.ofNat _ h.toNat)) := by
  simp only [freeHandle, halign, hlive, ne_eq, not_true_eq_false, if_false]

theorem after_of_ok {m m' : KsHandleManager} {c : HandleCall w} (h : m.call c = .ok m') :
    m.after c = m' := by
  unfold after
  rw [h]

theorem single_round {hv : UInt32_t} (entry : Handle) (halign : hv.val % 4 = 0)
    (hlt : hv < hv + 4) :
    ((single hv entry).after (allocCall entry)).after (freeCall hv) = single (hv + 4) entry := by
  let both : KsHandleManager := SortedMap.assign (single hv entry) (hv + 4) entry
  have halloc : (single hv entry).after (allocCall entry) = both := rfl
  have hmem : (hv, entry) ∈ both.entries :=
    SortedMap.mem_assign.2 (.inr ⟨List.mem_singleton_self _, hlt.ne⟩)
  have hlive : both.find hv = some entry := SortedMap.find_eq_some_iff.2 hmem
  have hbound := hv.isLt
  have hval : (BitVec.ofNat 64 hv.val).toNat = hv.val := by
    rw [BitVec.toNat_ofNat, Nat.mod_eq_of_lt (by omega)]
  have hkey : Fin.ofNat 4294967296 (BitVec.ofNat 64 hv.val).toNat = hv :=
    Fin.ext (by rw [hval]; exact Nat.mod_eq_of_lt hbound)
  have hfree := freeHandle_of_live (m := both) (h := BitVec.ofNat 64 hv.val)
    (by rw [hval]; exact halign) (by rw [hkey]; exact hlive)
  rw [hkey] at hfree
  rw [halloc, after_of_ok (c := freeCall hv) hfree]
  apply SortedMap.ext
  simp [both, SortedMap.erase, SortedMap.assign, single, hlt, hlt.ne', hlt.le]

theorem reaches_single (entry : Handle) (n : Nat) (hn : 4 * n + 4 < 4294967296) :
    ∃ calls : List (HandleCall 64),
      Run Step SortedMap.empty calls (single ⟨4 * n + 4, hn⟩ entry) := by
  induction n with
  | zero => exact ⟨[allocCall entry], .snoc .nil rfl⟩
  | succ n ih =>
      obtain ⟨calls, hrun⟩ := ih (by omega)
      have hnext : (⟨4 * n + 4, by omega⟩ : UInt32_t) + 4 = ⟨4 * (n + 1) + 4, hn⟩ := by
        apply Fin.ext
        have hfour : (4 : UInt32_t).val = 4 := rfl
        rw [Fin.val_add, hfour, Nat.mod_eq_of_lt (by show 4 * n + 4 + 4 < _; omega)]
        show 4 * n + 4 + 4 = 4 * (n + 1) + 4
        omega
      have hlt : (⟨4 * n + 4, by omega⟩ : UInt32_t) < ⟨4 * n + 4, by omega⟩ + 4 := by
        rw [hnext]
        exact Fin.mk_lt_mk.2 (by omega)
      have hround := single_round entry (by show (4 * n + 4) % 4 = 0; omega) hlt
      rw [hnext] at hround
      exact ⟨_, (hrun.snoc rfl).snoc hround⟩

/-- The allocation after the largest handle gives 0. -/
theorem allocHandle_zero : ∃ (calls : List (HandleCall 64)) (m m' : KsHandleManager),
    Run Step SortedMap.empty calls m ∧
      m.allocHandle (some (0 : BitVec 64)) (some 7) 1 = .ok m' ∧ ¬ m.Adds m' ⟨1, 7⟩ := by
  obtain ⟨calls, hrun⟩ := reaches_single ⟨1, 7⟩ 1073741822 (by omega)
  refine ⟨calls, _, _, hrun, rfl, ?_⟩
  intro hadds
  have hfree := (adds_assign_iff (run_aligned hrun) _).1 hadds
  have hlive : SortedMap.find (single ⟨4 * 1073741822 + 4, by omega⟩ ⟨1, 7⟩) lastHandle =
      some ⟨1, 7⟩ := SortedMap.find_eq_some_iff.2 (List.mem_singleton_self _)
  rw [hlive] at hfree
  cases hfree

end Vin64.Kernel.KsHandleManager
