import Vin64.Kernel.Proofs.Handles

/-!
# What `freeHandle` takes for a handle

`allocHandle` leaves the caller's variable as it is, and `freeHandle` looks for the low 32 bits of
what it is given.
-/

namespace Vin64.Kernel.KsHandleManager

open Vin64.Lib Vin64.Vram

variable {w : Nat} {m m' : KsHandleManager} {h hv : BitVec w}

theorem lowBits_val (h : BitVec w) : (lowBits h).val = h.toNat % 4294967296 := rfl

theorem aligned_find {k : UInt32_t} {entry : Handle} (ha : m.Aligned)
    (hfind : m.find k = some entry) : k.val % 4 = 0 :=
  ha _ (SortedMap.find_eq_some_iff.1 hfind)

theorem freeHandle_eq_ok_iff (ha : m.Aligned) :
    m.freeHandle h = .ok m' ↔
      (∃ entry, m.find (lowBits h) = some entry) ∧ m' = m.erase (lowBits h) := by
  constructor
  · intro hfree
    refine ⟨?_, freeHandle_ok hfree⟩
    unfold freeHandle at hfree
    split at hfree
    · cases hfree
    · split at hfree
      · cases hfree
      · rename_i entry hfind
        exact ⟨entry, hfind⟩
  · intro ⟨⟨entry, hfind⟩, herase⟩
    have hkey := aligned_find ha hfind
    rw [lowBits_val] at hkey
    rw [herase]
    exact freeHandle_of_live (by omega) hfind

/-! ## Releasing what was allocated -/

theorem free_alloc_iff (ha : m.Aligned) (entry : Handle) :
    KsHandleManager.freeHandle (m.assign m.next entry) h = .ok m ↔
      lowBits h = m.next ∧ m.find m.next = none := by
  rw [freeHandle_eq_ok_iff (aligned_assign_next ha entry)]
  constructor
  · intro ⟨⟨old, hlive⟩, herase⟩
    have hnone : m.find (lowBits h) = none := by
      rw [herase]
      exact SortedMap.find_erase_self ..
    have hkey : lowBits h = m.next := by
      by_cases hne : lowBits h = m.next
      · exact hne
      · rw [SortedMap.find_assign_of_ne entry hne, hnone] at hlive
        cases hlive
    exact ⟨hkey, hkey ▸ hnone⟩
  · intro ⟨hkey, hnew⟩
    rw [hkey]
    refine ⟨⟨entry, SortedMap.find_assign_self ..⟩, ?_⟩
    rw [SortedMap.erase_assign_self, SortedMap.erase_of_find_eq_none hnew]

theorem restores_iff (ha : m.Aligned) (ob : Nat) (hacc : UInt32_t) :
    (∀ m', m.allocHandle (some h) (some ob) hacc = .ok m' → m'.freeHandle h = .ok m) ↔
      lowBits h = m.next ∧ m.find m.next = none := by
  rw [← free_alloc_iff ha ⟨hacc, ob⟩]
  constructor
  · intro hall
    exact hall _ rfl
  · intro hfree m' halloc
    cases halloc
    exact hfree

/-! ## What is a live handle -/

theorem live_iff : m.Live hv ↔
    hv.toNat < 4294967296 ∧ ∃ entry, m.find (lowBits hv) = some entry := by
  constructor
  · intro ⟨k, entry, hk, hfind⟩
    have hbound : hv.toNat < 4294967296 := hk ▸ k.isLt
    have hkey : lowBits hv = k := by
      apply Fin.ext
      rw [lowBits_val, hk, Nat.mod_eq_of_lt hbound]
    exact ⟨hbound, entry, hkey ▸ hfind⟩
  · intro ⟨hbound, entry, hfind⟩
    exact ⟨lowBits hv, entry, Nat.mod_eq_of_lt hbound, hfind⟩

theorem frees_iff (ha : m.Aligned) :
    ((∃ m', m.freeHandle hv = .ok m') ↔ m.Live hv) ↔
      hv.toNat < 4294967296 ∨ m.find (lowBits hv) = none := by
  have hfree : (∃ m', m.freeHandle hv = .ok m') ↔ ∃ entry, m.find (lowBits hv) = some entry := by
    constructor
    · intro ⟨m', hfree⟩
      exact ((freeHandle_eq_ok_iff ha).1 hfree).1
    · intro hlive
      exact ⟨_, (freeHandle_eq_ok_iff ha).2 ⟨hlive, rfl⟩⟩
  rw [hfree, live_iff]
  cases hfind : m.find (lowBits hv) with
  | none => simp
  | some entry => simp

/-- After any calls the caller's variable must hold the next handle already, and what is freed must
have 32 bits or miss every live handle with its low ones. -/
theorem run_handleLaw_iff {calls : List (HandleCall w)} {ob : Nat} {hacc : UInt32_t}
    (hrun : Run Step SortedMap.empty calls m) :
    m.HandleLaw h ob hacc hv ↔
      (lowBits h = m.next ∧ m.find m.next = none) ∧
      (hv.toNat < 4294967296 ∨ m.find (lowBits hv) = none) := by
  have ha := run_aligned hrun
  constructor
  · intro hlaw
    exact ⟨(restores_iff ha ob hacc).1 hlaw.restores, (frees_iff ha).1 hlaw.frees⟩
  · intro ⟨hnext, hvalue⟩
    refine ⟨(restores_iff ha ob hacc).2 hnext, (frees_iff ha).2 hvalue, fun m' hfree => ?_⟩
    have hlive := (live_iff.1 (((frees_iff ha).2 hvalue).1 ⟨m', hfree⟩)).1
    exact ⟨lowBits hv, Nat.mod_eq_of_lt hlive, freeHandle_ok hfree⟩

/-- The first handle, held by the variable before. -/
theorem run_handleLaw_first : HandleLaw SortedMap.empty (4 : BitVec 64) 7 1 (4 : BitVec 64) :=
  have hrun : Run (Step (w := 64)) SortedMap.empty [] SortedMap.empty := .nil
  (run_handleLaw_iff hrun).2 ⟨⟨rfl, rfl⟩, .inl (by decide)⟩

/-- A variable that is 0 before its handle is allocated. -/
theorem not_handleLaw_zero : ¬ ∀ (calls : List (HandleCall 64)) (m : KsHandleManager)
    (h hv : BitVec 64) (ob : Nat) (hacc : UInt32_t), Run Step SortedMap.empty calls m →
      m.HandleLaw h ob hacc hv := by
  intro hall
  have hlaw := hall [] SortedMap.empty 0 0 7 1 .nil
  have hkey := ((restores_iff (run_aligned (w := 64) .nil) 7 1).1 hlaw.restores).1
  exact absurd hkey (by decide)

end Vin64.Kernel.KsHandleManager
