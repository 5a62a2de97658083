import Vin64.Vm.Proofs.Moves
import Vin64.Vm.Proofs.Tables

/-!
# What other clients leave

As long as the page file works, a call of one client moves the pages of the others but keeps
what is in them.  Only a write through the pointer of `RamDirectAccess` does not: it goes to
the bytes at the index of the block's slot.
-/

namespace Vin64.Vm

open Vin64.Lib Vin64.Lib.Op Vin64.Utils Vin64.Vram Vin64.Vram.RamManager

variable {s u w : RamManager} {e : Env} {ps : List Nat} {c i q : Nat}

/-- The blocks have the pages and the addresses they had. -/
structure Saves (ps : List Nat) (s u : RamManager) : Prop where
  invariant : u.Invariant
  length : u.mBlocks.length = s.mBlocks.length
  content : ∀ p ∈ ps, u.content p = s.content p
  addr : ∀ p ∈ ps, (u.blocks p).addr = (s.blocks p).addr

namespace Saves

theorem refl (ps : List Nat) (hs : s.Invariant) : Saves ps s s :=
  ⟨hs, rfl, fun _ _ => rfl, fun _ _ => rfl⟩

theorem trans (h : Saves ps s u) (h' : Saves ps u w) : Saves ps s w where
  invariant := h'.invariant
  length := h'.length.trans h.length
  content := fun p hp => (h'.content p hp).trans (h.content p hp)
  addr := fun p hp => (h'.addr p hp).trans (h.addr p hp)

theorem of_fails (ps : List Nat) {e : Vram.Env} (h : Fails e s u) (hs : s.Invariant)
    (he : e.Clean) : Saves ps s u where
  invariant := h.invariant hs
  length := by rw [h.slots]
  content := fun p _ => congrFun (h.content he) p
  addr := fun p _ => by rw [h.blocks]

theorem of_evicts (ps : List Nat) {m j : Nat} (h : Evicts s u i m j) (hs : s.Invariant) :
    Saves ps s u where
  invariant := h.invariant hs
  length := by rw [h.slots, List.length_set]
  content := fun p _ => congrFun (h.content hs) p
  addr := by
    intro p _
    rw [h.blocks]
    by_cases hp : p = m
    · rw [hp, Function.update_self]
      rfl
    · rw [Function.update_of_ne hp]

theorem of_madeRoom (ps : List Nat) (h : MadeRoom s u i) (hs : s.Invariant) : Saves ps s u := by
  cases h with
  | free _ => exact refl ps hs
  | evict hev _ => exact of_evicts ps hev hs

/-- A block of another client changes, and its page. -/
theorem of_update {b : RamBlock} {x : Option Page} (hu : u.Invariant)
    (hlength : u.mBlocks.length = s.mBlocks.length)
    (hcontent : u.content = Function.update s.content c x)
    (hblocks : u.blocks = Function.update s.blocks c b) (hc : c ∉ ps) : Saves ps s u := by
  have hne : ∀ p ∈ ps, p ≠ c := by
    rintro p hp rfl
    exact hc hp
  refine ⟨hu, hlength, fun p hp => ?_, fun p hp => ?_⟩
  · rw [hcontent, Function.update_of_ne (hne p hp)]
  · rw [hblocks, Function.update_of_ne (hne p hp)]

/-- The block of another client gets a slot. -/
theorem of_puts {b : RamBlock} (h : Puts s u i c b) (hs : s.Invariant) (hc : c ∉ ps) :
    Saves ps s u :=
  of_update (h.invariant hs) (by rw [h.slots, List.length_set]) (h.content hs) h.blocks hc

theorem of_lifts {b : RamBlock} (h : Lifts s u c b) (hs : s.Invariant) (hc : c ∉ ps) :
    Saves ps s u :=
  of_update (h.invariant hs) h.length h.content h.blocks hc

theorem of_fetches (h : Fetches s u i c) (hs : s.Invariant) (hc : c ∉ ps) : Saves ps s u := by
  cases h with
  | load hfile hput hpage => exact of_puts hput hs hc
  | exchange hex =>
      rename_i m j
      refine ⟨hex.invariant hs, by rw [hex.slots, List.length_set],
        fun p _ => congrFun (hex.content hs) p, ?_⟩
      intro p hp
      have hpc : p ≠ c := by
        rintro rfl
        exact hc hp
      rw [hex.blocks, Function.update_of_ne hpc]
      by_cases hpm : p = m
      · rw [hpm, Function.update_self]
        rfl
      · rw [Function.update_of_ne hpm]

theorem of_rewrites {pg : Page} (h : Rewrites s u c pg) (hs : s.Invariant) (hc : c ∉ ps) :
    Saves ps s u := by
  have hblocks : u.blocks = Function.update s.blocks c (s.blocks c) := by
    rw [h.blocks, Function.update_eq_self]
  exact of_update (h.invariant hs) (by rw [h.slots]) h.content hblocks hc

end Saves

/-! ## The calls of other clients -/

/-- The bytes that a write to a resident block reaches are in no page of these blocks. -/
def StaysOff (ps : List Nat) (s : RamManager) (q off cb : Nat) : Prop :=
  ¬ s.IsSwapped q → ∀ p ∈ ps, ∀ k : Nat, s.mBlocks[k]? = some (some p) →
    (s.blocks q).addr / 4096 + off + cb ≤ k * 4096 ∨
      (k + 1) * 4096 ≤ (s.blocks q).addr / 4096 + off

/-- A page that has no byte in common with the ones written is left. -/
theorem slotPage_overwritten {a k off cb : Nat} {p : Nat → UInt8}
    (h : a + off + cb ≤ k * 4096 ∨ (k + 1) * 4096 ≤ a + off) :
    (s.setPage (.ram a) (overwrite (s.page (.ram a)) off p cb)).slotPage k = s.slotPage k := by
  apply (window_blit_eq_iff s.mRamData _).2
  intro x y hxy
  have hx := x.isLt
  have hout : ¬ (off ≤ (y : Nat) ∧ (y : Nat) < off + cb) := by
    intro hin
    rw [Nat.succ_mul] at h
    omega
  unfold overwrite
  rw [if_neg hout]
  rfl

theorem saves_overwritten {a off cb : Nat} {p : Nat → UInt8} (hs : s.Invariant)
    (h : ∀ m ∈ ps, ∀ k : Nat, s.mBlocks[k]? = some (some m) →
      a + off + cb ≤ k * 4096 ∨ (k + 1) * 4096 ≤ a + off) :
    Saves ps s (s.setPage (.ram a) (overwrite (s.page (.ram a)) off p cb)) where
  invariant := invariant_setPage hs _ _
  length := rfl
  content := by
    intro m hm
    have hplace : (s.setPage (.ram a) (overwrite (s.page (.ram a)) off p cb)).place m = s.place m :=
      rfl
    unfold RamManager.content
    rw [hplace]
    cases hp : s.place m with
    | none => rfl
    | some y =>
        cases y with
        | slot k => exact congrArg some (slotPage_overwritten (h m hm k ((hs.slot_iff k m).2 hp)))
        | file j => rfl
  addr := fun _ _ => rfl

/-- The call of another client, as the manager is meant to be used, when the page file works. -/
structure Foreign (ps : List Nat) (s : RamManager) (e : Env) (c : Call) : Prop where
  other : blockOf c ∉ ps
  proper : c.Proper s
  clean : e.transfers.Clean
  misses : ∀ q off p cb, c = .directWrite q off p cb → StaysOff ps s q off cb

theorem Moved.saves {c : Call} (h : Moved s e c u) (hs : s.Invariant) (hc : Foreign ps s e c) :
    Saves ps s u := by
  have hout := hc.other
  cases h with
  | failed hfails => exact .of_fails ps hfails hs hc.clean
  | placed _ hroom hput =>
      have hsaves := Saves.of_madeRoom ps hroom hs
      exact hsaves.trans (.of_puts hput hsaves.invariant hout)
  | lifted hlift => exact .of_lifts hlift hs hout
  | left hev => exact .of_evicts ps hev hs
  | fetched _ hfetch => exact .of_fetches hfetch hs hout
  | rewritten hwrite => exact .of_rewrites hwrite hs hout
  | @overwritten q off cb p hres => exact saves_overwritten hs (hc.misses q off p cb rfl hres)

theorem wlp_alloc_saves {flags : BitVec 32} (hs : s.Invariant) (hclean : e.transfers.Clean)
    (hslots : s.mBlocks.length ≤ maxSlots) (hq : ¬ s.Valid q) (hout : q ∉ ps) :
    wlp (ramAllocAddress e q flags) (fun _ u => Saves ps s u) (fun _ u => Saves ps s u) s := by
  apply wlp_mono (wlp_alloc_puts hs hslots (RamBlock.place_eq_none.2 (not_not.1 hq)))
  · intro _ t ht
    obtain ⟨i, f, u, hroom, hput⟩ := ht
    have hsaves := Saves.of_madeRoom ps hroom hs
    exact hsaves.trans (.of_puts hput hsaves.invariant hout)
  · exact fun _ u hu => .of_fails ps hu hs hclean

/-- A call of another client leaves the pages of these blocks. -/
theorem wlp_exec_saves (tgt : Target) {c : Call} (hs : s.Invariant)
    (hslots : s.mBlocks.length ≤ maxSlots) (hc : Foreign ps s e c) :
    wlp (exec tgt e c) (fun _ u => Saves ps s u) (fun _ u => Saves ps s u) s :=
  wlp_mono (wlp_exec_moved tgt hs hslots hc.proper) (fun _ _ hu => hu.saves hs hc)
    fun _ _ hu => hu.saves hs hc

end Vin64.Vm
