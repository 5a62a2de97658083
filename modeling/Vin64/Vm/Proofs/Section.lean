import Vin64.Vm.Section
import Vin64.Vm.Proofs.Saves
import Vin64.Vram.Proofs.Owners

/-!
# A window and the users of its section

The manager tells the section when a block of the window loses its slot, and the section tells
its users.  Nobody tells them when `get_block` loads another page into a block.
-/

namespace Vin64.Vm

open Vin64.Lib Vin64.Lib.Op Vin64.Utils Vin64.Vram Vin64.Vram.RamManager

variable {s t u : RamManager} {e : Env} {c : Option Nat} {i q : Nat}

/-! ## What a call of the manager makes of the blocks -/

/-- The owner of the block that leaves its slot is told, and only block `c` may come to one. -/
structure Shifts (s t : RamManager) (c : Option Nat) : Prop where
  invariant : t.Invariant
  length : t.mBlocks.length = s.mBlocks.length
  tells : ∃ left, Tells s t left
  arrives : ∀ q, t.Resident q → s.Resident q ∨ c = some q

namespace Shifts

theorem of_same (hs : t.Invariant) (hlength : t.mBlocks.length = s.mBlocks.length)
    (hb : t.blocks = s.blocks) (hn : t.invalidated = s.invalidated) : Shifts s t none where
  invariant := hs
  length := hlength
  tells := ⟨none, .of_blocks hb hn⟩
  arrives := by
    intro q hq
    apply Or.inl
    exact (resident_congr (congrFun (place_of_blocks hb) q)).1 hq

theorem refl (hs : s.Invariant) : Shifts s s none := of_same hs rfl rfl rfl

theorem of_setPage (hs : s.Invariant) (b : Buffer) (p : Page) : Shifts s (s.setPage b p) none := by
  cases b <;> exact of_same (invariant_setPage hs _ _) rfl rfl rfl

theorem of_fails {e : Vram.Env} (h : Fails e s t) (hs : s.Invariant) : Shifts s t none :=
  of_same (h.invariant hs) (by rw [h.slots]) h.blocks h.notes

theorem of_evicts {m j : Nat} (h : Evicts s t i m j) (hs : s.Invariant) : Shifts s t none where
  invariant := h.invariant hs
  length := by rw [h.slots, List.length_set]
  tells := ⟨_, h.tells hs⟩
  arrives := by
    intro q hq
    apply Or.inl
    by_cases hm : q = m
    · rw [hm] at hq
      exact absurd hq (not_resident_of_file (h.place_self hs))
    · exact (resident_congr (h.place_ne hm)).1 hq

theorem of_lifts {b : RamBlock} (h : Lifts s t q b) (howner : b.owner = (s.blocks q).owner)
    (hs : s.Invariant) : Shifts s t none where
  invariant := h.invariant hs
  length := h.length
  tells := ⟨_, h.tells howner⟩
  arrives := by
    intro p hp
    apply Or.inl
    by_cases hq : p = q
    · rw [hq] at hp
      exact absurd hp (not_resident_of_none h.place_self)
    · exact (resident_congr (h.place_ne hq)).1 hp

theorem of_madeRoom (h : MadeRoom s t i) (hs : s.Invariant) : Shifts s t none := by
  cases h with
  | free _ => exact refl hs
  | evict hev _ => exact of_evicts hev hs

/-- The block gets the slot that was made free. -/
theorem of_placed {b : RamBlock} (hroom : MadeRoom s u i) (hput : Puts u t i q b)
    (howner : b.owner = (u.blocks q).owner) (hs : s.Invariant) (hq : s.place q = none) :
    Shifts s t (some q) := by
  have hfirst := of_madeRoom hroom hs
  obtain ⟨left, hleft⟩ := hfirst.tells
  constructor
  · exact hput.invariant hfirst.invariant
  · rw [hput.slots, List.length_set, hfirst.length]
  · refine ⟨left, hleft.andThen (hput.tells howner) ?_⟩
    intro p hp
    obtain ⟨hres, hgone⟩ := (hleft.leaves p).1 hp
    have hne : p ≠ q := by
      rintro rfl
      exact not_resident_of_none hq hres
    rwa [resident_congr (hput.place_ne hne)]
  · intro p hp
    by_cases hpq : p = q
    · exact .inr (by rw [hpq])
    · have hu := (resident_congr (hput.place_ne hpq)).1 hp
      exact (hfirst.arrives p hu).imp_right (by simp)

theorem of_fetches (h : Fetches s t i q) (hs : s.Invariant) : Shifts s t (some q) where
  invariant := h.invariant hs
  length := h.length
  tells := h.tells hs
  arrives := by
    intro p hp
    by_cases hpq : p = q
    · exact .inr (by rw [hpq])
    · apply Or.inl
      cases h with
      | load _ hput _ => exact (resident_congr (hput.place_ne hpq)).1 hp
      | exchange hex =>
          have hput := hex.puts hs
          have hev := hex.evicts hs
          have hlift := lifts_file hs hex.at_file
          have hmid := (of_evicts hev (hlift.invariant hs)).arrives p
            ((resident_congr (hput.place_ne hpq)).1 hp)
          exact (resident_congr (hlift.place_ne hpq)).1 (hmid.resolve_right (by simp))

theorem resident_stays (h : Shifts s t c) (hs : s.Resident q) (ht : t.Resident q) :
    t.blocks q = s.blocks q := by
  obtain ⟨left, hleft⟩ := h.tells
  exact hleft.stays q hs ht

theorem owner (h : Shifts s t c) (q : Nat) : (t.blocks q).owner = (s.blocks q).owner := by
  obtain ⟨left, hleft⟩ := h.tells
  exact hleft.owner q

/-- Only the bytes change afterwards. -/
theorem andWrites (h : Shifts s u c) (ht : t.Invariant)
    (hlength : t.mBlocks.length = u.mBlocks.length) (hb : t.blocks = u.blocks)
    (hn : t.invalidated = u.invalidated) : Shifts s t c := by
  obtain ⟨left, hleft⟩ := h.tells
  have hsame : ∀ q, t.Resident q ↔ u.Resident q := fun q =>
    resident_congr (congrFun (place_of_blocks hb) q)
  constructor
  · exact ht
  · rw [hlength, h.length]
  · refine ⟨left, hleft.andThen (.of_blocks hb hn) ?_⟩
    intro q hq
    rw [hsame]
    exact ((hleft.leaves q).1 hq).2
  · exact fun q hq => h.arrives q ((hsame q).1 hq)

end Shifts

/-- The block a call may bring to a slot. -/
def bringsOf : Call → Option Nat
  | .swapOut _ _ => none
  | c => some (blockOf c)

theorem Shifts.weaken (h : Shifts s t none) (c : Option Nat) : Shifts s t c :=
  ⟨h.invariant, h.length, h.tells, fun q hq => .inl ((h.arrives q hq).resolve_right (by simp))⟩

theorem Moved.shifts {c : Call} (h : Moved s e c u) (hs : s.Invariant) :
    Shifts s u (bringsOf c) := by
  cases h with
  | failed hfails => exact (Shifts.of_fails hfails hs).weaken _
  | placed hq hroom hput => exact .of_placed hroom hput rfl hs hq
  | lifted hlift => exact (Shifts.of_lifts hlift rfl hs).weaken _
  | left hev => exact .of_evicts hev hs
  | fetched hin hfetch =>
      cases c with
      | swapOut q bForce => exact absurd rfl (hin q bForce)
      | _ => exact .of_fetches hfetch hs
  | rewritten hwrite =>
      exact (Shifts.of_same (hwrite.invariant hs) (by rw [hwrite.slots]) hwrite.blocks
        hwrite.notes).weaken _
  | overwritten _ =>
      exact (Shifts.of_setPage hs _ _).weaken _

/-! ## The calls of the section -/

variable {x y z : KoSection} {off a : BitVec 64} {r : Option (Fin 32)} {addr : Nat} {m : RamManager}

namespace KoSection

theorem indexOf_blocks (x : KoSection) (i : Fin 32) : x.indexOf (x.blocks i) = some i := by
  unfold indexOf
  cases hfind : (List.finRange 32).find? fun j => x.blocks j = x.blocks i with
  | none =>
      have hno := List.find?_eq_none.1 hfind i (List.mem_finRange i)
      simp at hno
  | some j =>
      have hsame : x.blocks j = x.blocks i := by simpa using List.find?_some hfind
      rw [x.blocks.injective hsame]

theorem since_congr (hn : u.invalidated = m.invalidated) (s : RamManager) :
    u.since s = m.since s := by
  unfold since
  rw [hn]

theorem notices_putMgr (x : KoSection) (hn : u.invalidated = m.invalidated) :
    (putMgr u x).notices = (putMgr m x).notices := by
  unfold putMgr
  rw [since_congr hn]

/-- What was told before the last writes is all that was told. -/
theorem putMgr_putMgr (x : KoSection) (hn : u.invalidated = m.invalidated) :
    putMgr u (putMgr m x) = putMgr u x := by
  have hnone : u.since m = [] := since_eq (show u.invalidated = [] ++ m.invalidated from hn)
  unfold putMgr
  simp only [hnone, since_congr hn x.mgr, List.flatMap_nil, List.nil_append]

theorem putMgr_self (x : KoSection) : putMgr x.mgr x = x := by
  have hnone : x.mgr.since x.mgr = [] := since_eq (List.nil_append x.mgr.invalidated).symm
  unfold putMgr
  rw [hnone]
  rfl

theorem noticesSince_of (h : z.notices = (putMgr z.mgr x).notices) :
    z.noticesSince x = (z.mgr.since x.mgr).flatMap x.onAddressInvalid := by
  unfold noticesSince
  rw [h]
  show ((z.mgr.since x.mgr).flatMap x.onAddressInvalid ++ x.notices).take _ = _
  rw [show (putMgr z.mgr x).notices.length = _ from List.length_append, Nat.add_sub_cancel]
  exact List.take_left

end KoSection

open KoSection

/-- What a call leaves of the section: the page at `off` is in block `i` when `r` is `some i`. -/
structure Served (x : KoSection) (off : BitVec 64) (r : Option (Fin 32)) (z : KoSection) : Prop where
  shifts : ∃ c, Shifts x.mgr z.mgr c ∧ ∀ i, c = some (x.blocks i) → r = some i
  same : z = { putMgr z.mgr x with off := r.elim x.off fun i => Function.update x.off i off }
  index : ∀ i, r = some i → i = blockIndex off ∧ off < x.size ∧ (z.blockAt i).Resident

theorem Served.none (h : Shifts x.mgr m c) (hc : ∀ i, c ≠ some (x.blocks i)) (off : BitVec 64) :
    Served x off none (putMgr m x) where
  shifts := ⟨c, h, fun i hi => absurd hi (hc i)⟩
  same := rfl
  index := by simp

/-- A page is loaded into the block that just got its slot. -/
theorem wlp_loadBlock {i : Fin 32} (h : Shifts x.mgr m (some (x.blocks i)))
    (hres : m.Resident (x.blocks i)) (hi : i = blockIndex off) (hoff : off < x.size) :
    wlp (loadBlock off i)
      (fun r z => r = some i ∧ Served x off r z ∧ z.notices = (putMgr m x).notices)
      (fun _ _ => False) (putMgr m x) := by
  simp only [loadBlock, loadFromFile, onSectionMgr, copyInto, wlp_bind, wlp_get, wlp_zoom, wlp_ite,
    wlp_pure, wlp_modify, wlp_readPage, wlp_writePage, wlp_fault]
  refine fun _ => ⟨fun _ _ => ⟨fun _ => ⟨trivial, ?_⟩, by simp⟩, fun _ => trivial⟩
  generalize hu : RamManager.setPage _ _ _ = u
  have hsame : u.invalidated = m.invalidated ∧ u.blocks = m.blocks ∧ u.mBlocks = m.mBlocks ∧
      u.Invariant := by
    rw [← hu]
    exact ⟨rfl, rfl, rfl, invariant_setPage h.invariant _ _⟩
  obtain ⟨hn, hb, hl, hinv⟩ := hsame
  rw [putMgr_putMgr x hn]
  have hshifts := h.andWrites hinv (congrArg List.length hl) hb hn
  refine ⟨⟨⟨_, hshifts, fun j hj => ?_⟩, rfl, ?_⟩, notices_putMgr x hn⟩
  · rw [x.blocks.injective (Option.some.inj hj)]
  · intro j hj
    obtain rfl : i = j := by simpa using hj
    refine ⟨hi, hoff, ?_⟩
    show (u.blocks (x.blocks i)).Resident
    rw [hb]
    exact hres

/-- The block of a page that is not VALID has no slot. -/
theorem place_none_of_unused {p : Nat} (h : (s.blocks p).flags &&& BF_VALID = 0#32) :
    s.place p = none := RamBlock.place_eq_none.2 h

/-- The block that `get_block` swaps in is in its slot. -/
theorem shifts_swapIn (hs : s.Invariant) (hvalid : ¬ (s.blocks q).flags &&& BF_VALID = 0#32)
    (h : (¬ s.IsSwapped q ∧ t = s) ∨ (s.IsSwapped q ∧ ∃ i, Fetches s t i q)) :
    Shifts s t (some q) ∧ t.Resident q := by
  rcases h with ⟨hin, rfl⟩ | ⟨-, i, hfetch⟩
  · exact ⟨(Shifts.refl hs).weaken _, hvalid, hin⟩
  · exact ⟨.of_fetches hfetch hs, resident_of_slot (hfetch.place_self hs)⟩

/-- A block in its slot is returned when it holds the page, and the page is loaded else. -/
theorem wlp_foundBlock (h : Shifts x.mgr m (some (x.blocks (blockIndex off))))
    (hres : m.Resident (x.blocks (blockIndex off))) (hoff : off < x.size) :
    wlp (do
      let s ← get
      if s.off (blockIndex off) = off then return some (blockIndex off)
      else do
        if ← saveToFile (x.blocks (blockIndex off)) then loadBlock off (blockIndex off)
        else return none)
      (fun r z => Served x off r z) (fun _ _ => False) (putMgr m x) := by
  simp only [saveToFile, wlp_bind, wlp_get, wlp_ite, wlp_pure]
  refine ⟨fun hsame => ?_, fun _ => ⟨fun _ => ?_, by simp⟩⟩
  · refine ⟨⟨_, h, fun j hj => ?_⟩, ?_, ?_⟩
    · rw [x.blocks.injective (Option.some.inj hj)]
    · have hkeep : Function.update x.off (blockIndex off) off = x.off := by
        rw [Function.update_eq_self_iff]
        exact hsame.symm
      rw [Option.elim_some, hkeep]
      rfl
    · intro j hj
      obtain rfl : blockIndex off = j := by simpa using hj
      exact ⟨rfl, hoff, hres⟩
  · apply wlp_mono (wlp_loadBlock h hres rfl hoff)
    · exact fun _ _ hz => hz.2.1
    · exact fun _ _ hz => hz

theorem wlp_getBlock (hx : x.mgr.Invariant) (hslots : x.mgr.mBlocks.length ≤ maxSlots) :
    wlp (getBlock e off) (fun r z => Served x off r z) (fun _ _ => False) x := by
  have hrefused : Served x off none x := by
    have hsame := Served.none (x := x) (.refl hx) (by simp) off
    rwa [putMgr_self] at hsame
  have hfailed : ∀ u, Fails e.transfers x.mgr u → Served x off none (putMgr u x) :=
    fun u hu => .none (.of_fails hu hx) (by simp) off
  simp only [getBlock, wlp_bind, wlp_get, wlp_ite, wlp_pure]
  refine ⟨fun _ => hrefused, fun hsize => ⟨fun hunused => ?_, fun hvalid => ?_⟩⟩
  · have hplace := place_none_of_unused hunused
    simp only [wlp_attempt, onSectionMgr, wlp_zoom]
    apply wlp_mono (wlp_alloc_puts hx hslots hplace)
    · intro _ m hm
      obtain ⟨k, f, v, hroom, hput⟩ := hm
      have hshifts := Shifts.of_placed hroom hput rfl hx hplace
      apply wlp_mono (wlp_loadBlock hshifts (resident_of_slot hput.place_self) rfl
        (BitVec.not_le.1 hsize))
      · exact fun _ _ hz => hz.2.1
      · exact fun _ _ hz => hz
    · exact fun _ u hu => hfailed u hu
  · simp only [wlp_attempt, onSectionMgr, wlp_zoom]
    apply wlp_mono (wlp_swapIn_fetches hx hslots)
    · intro _ m hm
      obtain ⟨hshifts, hres⟩ := shifts_swapIn hx hvalid hm
      exact wlp_foundBlock hshifts hres (BitVec.not_le.1 hsize)
    · exact fun _ u hu => hfailed u hu

/-- Nobody is told when another page is loaded over that of a resident block. -/
theorem wlp_getBlock_reuse (hx : x.mgr.Invariant) (hoff : off < x.size)
    (hres : (x.blockAt (blockIndex off)).Resident) (hne : x.off (blockIndex off) ≠ off) :
    wlp (getBlock e off)
      (fun r z => r = some (blockIndex off) ∧ Served x off r z ∧ z.noticesSince x = [])
      (fun _ _ => False) x := by
  have hflags : (x.mgr.blocks (x.blocks (blockIndex off))).flags &&& BF_SWAPPED = 0#32 :=
    not_not.1 hres.2
  simp only [getBlock, wlp_bind, wlp_get, wlp_ite, wlp_pure]
  refine ⟨fun hsize => absurd hsize (BitVec.not_le.2 hoff), fun _ => ⟨fun hunused =>
    absurd hunused hres.1, fun _ => ?_⟩⟩
  simp only [wlp_attempt, onSectionMgr, wlp_zoom, ramSwapIn, wlp_bind, wlp_blockAt, wlp_ite,
    wlp_pure, putMgr_self, wlp_get, saveToFile]
  refine ⟨fun _ => ⟨fun hsame => absurd hsame hne, fun _ => ⟨fun _ => ?_, by simp⟩⟩,
    fun hswap => absurd hflags hswap⟩
  have hload := wlp_loadBlock (m := x.mgr) ((Shifts.refl hx).weaken _) hres rfl hoff
  rw [putMgr_self] at hload
  apply wlp_mono hload
  · intro r z hend
    obtain ⟨hr, hz, hnotices⟩ := hend
    refine ⟨hr, hz, ?_⟩
    unfold noticesSince
    rw [hnotices, Nat.sub_self, List.take_zero]
  · exact fun _ _ hz => hz

/-! ## What becomes of the data of an offset -/

namespace Served

theorem invariant (h : Served x off r z) : z.mgr.Invariant := by
  obtain ⟨c, hshifts, -⟩ := h.shifts
  exact hshifts.invariant

theorem length (h : Served x off r z) : z.mgr.mBlocks.length = x.mgr.mBlocks.length := by
  obtain ⟨c, hshifts, -⟩ := h.shifts
  exact hshifts.length

theorem blocks_eq (h : Served x off r z) : z.blocks = x.blocks := by
  rw [h.same]
  rfl

theorem users_eq (h : Served x off r z) : z.users = x.users := by
  rw [h.same]
  rfl

theorem this_eq (h : Served x off r z) : z.this = x.this := by
  rw [h.same]
  rfl

theorem off_eq (h : Served x off r z) : z.off = r.elim x.off fun i => Function.update x.off i off := by
  rw [h.same]

theorem off_self {i : Fin 32} (h : Served x off (some i) z) : z.off i = off := by
  rw [h.off_eq]
  exact Function.update_self i off x.off

theorem off_ne {i : Fin 32} (h : Served x off r z) (hi : r ≠ some i) : z.off i = x.off i := by
  rw [h.off_eq]
  cases r with
  | none => rfl
  | some j =>
      have hne : i ≠ j := by
        rintro rfl
        exact hi rfl
      exact Function.update_of_ne hne _ _

theorem block_stays {i : Fin 32} (h : Served x off r z) (hx : (x.blockAt i).Resident)
    (hz : (z.blockAt i).Resident) : z.blockAt i = x.blockAt i := by
  unfold KoSection.blockAt at hz ⊢
  rw [h.blocks_eq] at hz ⊢
  obtain ⟨c, hshifts, -⟩ := h.shifts
  exact hshifts.resident_stays hx hz

/-- A block is where it was, with the page it had, unless it was served. -/
theorem kept {i : Fin 32} (h : Served x off r z) (hz : (z.blockAt i).Resident) (hi : r ≠ some i) :
    (x.blockAt i).Resident ∧ z.blockAt i = x.blockAt i ∧ z.off i = x.off i := by
  have hx : (x.blockAt i).Resident := by
    have hz' : z.mgr.Resident (x.blocks i) := by
      unfold KoSection.blockAt at hz
      rwa [h.blocks_eq] at hz
    obtain ⟨c, hshifts, hc⟩ := h.shifts
    exact (hshifts.arrives (x.blocks i) hz').resolve_right fun hserved => hi (hc i hserved)
  exact ⟨hx, h.block_stays hx hz, h.off_ne hi⟩

theorem noticed {i : Fin 32} (h : Served x off r z) (howned : (x.blockAt i).owner = some x.this)
    (hx : (x.blockAt i).Resident) (hz : ¬ (z.blockAt i).Resident) :
    ⟨x.users, x.off i, x.blockAt i⟩ ∈ z.noticesSince x := by
  obtain ⟨c, hshifts, -⟩ := h.shifts
  obtain ⟨left, htells⟩ := hshifts.tells
  have hleft : left = some (x.blocks i) := by
    apply (htells.leaves _).2
    refine ⟨hx, ?_⟩
    unfold KoSection.blockAt at hz
    rwa [h.blocks_eq] at hz
  have hnotes : z.mgr.since x.mgr = [⟨x.this, x.blocks i, x.blockAt i⟩] := by
    rw [since_eq htells.notes, hleft, Option.elim_some]
    unfold note
    rw [show (x.mgr.blocks (x.blocks i)).owner = some x.this from howned]
    rfl
  rw [noticesSince_of (by rw [h.same]; rfl), hnotes]
  simp [onAddressInvalid, indexOf_blocks]

/-- Data that leave their address are told, unless another page is loaded over them. -/
theorem tells_lost (h : Served x off r z) (howned : ∀ i, (x.blockAt i).owner = some x.this)
    (hkeeps : ∀ i, r = some i → x.users.Nonempty → (x.blockAt i).Resident → x.off i = off)
    (hx : x.Available a addr) (hz : ¬ z.Available a addr) : ∀ u ∈ x.users,
      ∃ n ∈ z.noticesSince x, u ∈ n.users ∧ n.off = a ∧ n.block.Resident ∧ n.block.addr = addr := by
  intro u hu
  obtain ⟨i, hres, haddr, hoff⟩ := hx
  have hgone : ¬ (z.blockAt i).Resident := by
    intro hzres
    apply hz
    refine ⟨i, hzres, ?_, ?_⟩
    · rw [h.block_stays hres hzres, haddr]
    · by_cases hi : r = some i
      · subst hi
        rw [h.off_self, ← hkeeps i rfl ⟨u, hu⟩ hres, hoff]
      · rw [h.off_ne hi, hoff]
  exact ⟨_, h.noticed (howned i) hres hgone, hu, hoff, hres, haddr⟩

end Served

/-! ## A run of calls -/

variable {tgt : Target} {X Y Z : SectionRun}

/-- What holds in every state of a run. -/
structure SectionRun.Tended (X : SectionRun) : Prop where
  mgr : X.sec.mgr.Invariant
  slots : X.sec.mgr.mBlocks.length ≤ maxSlots
  owned : ∀ i, (X.sec.blockAt i).owner = some X.sec.this
  keyed : ∀ i, (X.sec.blockAt i).Resident → blockIndex (X.sec.off i) = i
  known : ∀ a addr, X.sec.Available a addr → X.returned a = some addr
  away : ∀ u, u ∉ X.sec.users → ∀ a, X.mapped u a = none
  honest : X.Honest

theorem mapped_afterNotices {u : Nat} (h : (X.afterNotices z).mapped u a = some addr) :
    X.mapped u a = some addr ∧ ∀ n ∈ z.noticesSince X.sec, u ∈ n.users → n.off ≠ a := by
  unfold SectionRun.afterNotices at h
  simp only [Option.ite_none_left_eq_some, List.any_eq_true, decide_eq_true_eq, not_exists,
    not_and] at h
  exact ⟨h.2, fun n hn hu => h.1 n hn hu⟩

namespace SectionRun.Tended

theorem shows (hX : X.Tended) (h : Served X.sec off r z)
    (hkeeps : ∀ i, r = some i → X.sec.users.Nonempty → (X.sec.blockAt i).Resident →
      X.sec.off i = off) {u : Nat} (hu : u ∈ X.sec.users)
    (hmap : (X.afterNotices z).mapped u a = some addr) : z.Available a addr := by
  obtain ⟨hold, hnot⟩ := mapped_afterNotices hmap
  by_contra hgone
  obtain ⟨n, hn, hnu, hna, -⟩ := h.tells_lost hX.owned hkeeps (hX.honest u hu a addr hold) hgone u hu
  exact hnot n hn hnu hna

theorem owned_after (hX : X.Tended) (h : Served X.sec off r z) (i : Fin 32) :
    (z.blockAt i).owner = some z.this := by
  unfold KoSection.blockAt
  obtain ⟨c, hshifts, -⟩ := h.shifts
  rw [h.blocks_eq, h.this_eq, hshifts.owner]
  exact hX.owned i

theorem keyed_after (hX : X.Tended) (h : Served X.sec off r z) (i : Fin 32)
    (hz : (z.blockAt i).Resident) : blockIndex (z.off i) = i := by
  by_cases hi : r = some i
  · subst hi
    rw [h.off_self]
    exact (h.index i rfl).1.symm
  · obtain ⟨hx, -, hoff⟩ := h.kept hz hi
    rw [hoff]
    exact hX.keyed i hx

theorem away_after (hX : X.Tended) (h : Served X.sec off r z) {u : Nat} (hu : u ∉ z.users)
    (a : BitVec 64) : (X.afterNotices z).mapped u a = none := by
  have hout : u ∉ X.sec.users := by
    rw [← h.users_eq]
    exact hu
  cases hmap : (X.afterNotices z).mapped u a with
  | none => rfl
  | some addr =>
      have hold := (mapped_afterNotices hmap).1
      rw [hX.away u hout a] at hold
      simp at hold

/-- A call that returns no block -/
theorem refused (hX : X.Tended) (h : Served X.sec off none z) : (X.afterNotices z).Tended where
  mgr := h.invariant
  slots := by
    show z.mgr.mBlocks.length ≤ maxSlots
    rw [h.length]
    exact hX.slots
  owned := hX.owned_after h
  keyed := hX.keyed_after h
  known := by
    intro a addr havail
    obtain ⟨i, hres, haddr, hoff⟩ := havail
    obtain ⟨hx, hblock, hsame⟩ := h.kept hres (by simp)
    exact hX.known a addr ⟨i, hx, by rw [← hblock, ← haddr]; rfl, by rw [← hsame, ← hoff]; rfl⟩
  away := fun u hu a => hX.away_after h hu a
  honest := by
    intro u hu a addr hmap
    have hin : u ∈ X.sec.users := by
      rw [← h.users_eq]
      exact hu
    exact hX.shows h (by simp) hin hmap

/-- A call that returns a block -/
theorem replied {i : Fin 32} (hX : X.Tended) (h : Served X.sec off (some i) z)
    (hkeeps : X.sec.users.Nonempty → (X.sec.blockAt i).Resident → X.sec.off i = off) (user : Nat) :
    ((X.afterNotices z).afterReply user off i).Tended where
  mgr := h.invariant
  slots := by
    show z.mgr.mBlocks.length ≤ maxSlots
    rw [h.length]
    exact hX.slots
  owned := hX.owned_after h
  keyed := hX.keyed_after h
  known := by
    intro a addr havail
    obtain ⟨j, hres, haddr, hoff⟩ := havail
    show Function.update X.returned off (some (z.blockAt i).addr) a = some addr
    by_cases hj : j = i
    · subst hj
      have ha : a = off := by
        rw [← hoff]
        exact h.off_self
      rw [ha, Function.update_self, ← haddr]
      rfl
    · have hne : some i ≠ some j := by simpa using Ne.symm hj
      obtain ⟨hx, hblock, hsame⟩ := h.kept hres hne
      have ha : a ≠ off := by
        intro ha
        have hkey := hX.keyed_after h j hres
        rw [show z.off j = a from hoff, ha, ← (h.index i rfl).1] at hkey
        exact hj hkey.symm
      rw [Function.update_of_ne ha]
      exact hX.known a addr ⟨j, hx, by rw [← hblock, ← haddr]; rfl, by rw [← hsame, ← hoff]; rfl⟩
  away := by
    intro u hu a
    have hold := hX.away_after h hu a
    have hother : user ∈ z.users → u ≠ user := by
      rintro huser rfl
      exact hu huser
    show (if user ∈ z.users then _ else (X.afterNotices z).mapped) u a = none
    by_cases huser : user ∈ z.users
    · rw [if_pos huser, Function.update_of_ne (hother huser), hold]
    · rw [if_neg huser, hold]
  honest := by
    intro u hu a addr hmap
    have hin : u ∈ X.sec.users := by
      rw [← h.users_eq]
      exact hu
    have hold : (X.afterNotices z).mapped u a = some addr → z.Available a addr :=
      hX.shows h (by rintro j ⟨rfl⟩; exact hkeeps) hin
    change (if user ∈ z.users then _ else (X.afterNotices z).mapped) u a = some addr at hmap
    by_cases huser : user ∈ z.users
    · rw [if_pos huser] at hmap
      by_cases hu : u = user
      · rw [hu, Function.update_self] at hmap
        by_cases ha : a = off
        · rw [ha, Function.update_self] at hmap
          refine ⟨i, (h.index i rfl).2.2, Option.some.inj hmap, ?_⟩
          rw [ha]
          exact h.off_self
        · rw [Function.update_of_ne ha, ← hu] at hmap
          exact hold hmap
      · rw [Function.update_of_ne hu] at hmap
        exact hold hmap
    · rw [if_neg huser] at hmap
      exact hold hmap

end SectionRun.Tended

theorem getBlock_cases {user : Nat} (hmgr : X.sec.mgr.Invariant)
    (hslots : X.sec.mgr.mBlocks.length ≤ maxSlots)
    (hstep : X.step tgt (.getBlock user off e) = some Y) :
    ∃ r z, getBlock e off X.sec = some (.ok r, z) ∧ Served X.sec off r z ∧
      Y = r.elim (X.afterNotices z) fun i => (X.afterNotices z).afterReply user off i := by
  obtain ⟨⟨reply, z⟩, hrun, hY⟩ := Option.bind_eq_some_iff.1 hstep
  have hwlp : wlp (getBlock e off) (fun r z => Served X.sec off r z) (fun _ _ => False) X.sec :=
    wlp_getBlock hmgr hslots
  cases reply with
  | error v => exact (wlp_error hwlp hrun).elim
  | ok r =>
      refine ⟨r, z, hrun, wlp_ok hwlp hrun, ?_⟩
      cases r <;> exact (Option.some.inj hY).symm

theorem other_cases {c : Call} (hmgr : X.sec.mgr.Invariant)
    (hslots : X.sec.mgr.mBlocks.length ≤ maxSlots) (hfair : (SectionCall.other c e).Fair X.sec)
    (hstep : X.step tgt (.other c e) = some Y) :
    ∃ z, Served X.sec 0 none z ∧ Y = X.afterNotices z := by
  obtain ⟨⟨reply, z⟩, hrun, hY⟩ := Option.bind_eq_some_iff.1 hstep
  refine ⟨z, ?_, (Option.some.inj hY).symm⟩
  obtain ⟨hproper, hforeign⟩ := hfair
  have hserved : ∀ u, Moved X.sec.mgr e c u → Served X.sec 0 none (putMgr u X.sec) := by
    intro u hu
    apply Served.none (hu.shifts hmgr)
    intro i hi
    cases c with
    | swapOut q bForce => simp [bringsOf] at hi
    | _ =>
        rcases hforeign with hother | ⟨q, bForce, hout⟩
        · exact hother i (Option.some.inj hi)
        · simp at hout
  have hwlp : wlp (onSectionMgr (exec tgt e c)) (fun _ z => Served X.sec 0 none z)
      (fun _ z => Served X.sec 0 none z) X.sec := by
    simp only [onSectionMgr, wlp_zoom]
    exact wlp_mono (wlp_exec_moved tgt hmgr hslots hproper) (fun _ u hu => hserved u hu)
      fun _ u hu => hserved u hu
  exact wlp_any hwlp hrun

/-! ## Steps -/

variable {call : SectionCall}

/-- What `get_block` may lay another page over, when the section keeps its blocks. -/
theorem keeps_served {user : Nat} (hkeeps : X.KeepsBlocks (.getBlock user off e))
    (h : Served X.sec off r z) (i : Fin 32) (hi : r = some i) (husers : X.sec.users.Nonempty)
    (hres : (X.sec.blockAt i).Resident) : X.sec.off i = off := by
  obtain ⟨hindex, hoff, -⟩ := h.index i hi
  rw [hindex] at hres ⊢
  exact hkeeps husers hoff hres

theorem step_tended (hX : X.Tended) (hkeeps : X.KeepsBlocks call) (hstep : X.Step tgt call Y) :
    Y.Tended := by
  obtain ⟨hfair, hstep⟩ := hstep
  cases call with
  | getBlock user off e =>
      obtain ⟨r, z, -, hz, rfl⟩ := getBlock_cases hX.mgr hX.slots hstep
      have hserved := keeps_served hkeeps hz
      cases r with
      | none => exact hX.refused hz
      | some i => exact hX.replied hz (hserved i rfl) user
  | other c e =>
      obtain ⟨z, hz, rfl⟩ := other_cases hX.mgr hX.slots hfair hstep
      exact hX.refused hz
  | insertUser v =>
      obtain rfl := Option.some.inj hstep
      refine ⟨hX.mgr, hX.slots, hX.owned, hX.keyed, hX.known, ?_, ?_⟩
      · intro u hu a
        exact hX.away u (fun hin => hu (Finset.mem_insert_of_mem hin)) a
      · intro u _ a addr hmap
        have hin : u ∈ X.sec.users := by
          by_contra hout
          rw [hX.away u hout a] at hmap
          simp at hmap
        exact hX.honest u hin a addr hmap
  | removeUser v =>
      obtain rfl := Option.some.inj hstep
      refine ⟨hX.mgr, hX.slots, hX.owned, hX.keyed, hX.known, ?_, ?_⟩
      · intro u hu a
        change Function.update X.mapped v (fun _ => none) u a = none
        by_cases huv : u = v
        · rw [huv, Function.update_self]
        · rw [Function.update_of_ne huv]
          exact hX.away u (fun hin => hu (Finset.mem_erase_of_ne_of_mem huv hin)) a
      · intro u hu a addr hmap
        obtain ⟨huv, hin⟩ := Finset.mem_erase.1 hu
        change Function.update X.mapped v (fun _ => none) u a = some addr at hmap
        rw [Function.update_of_ne huv] at hmap
        exact hX.honest u hin a addr hmap

theorem step_tells_users (hX : X.Tended) (hkeeps : X.KeepsBlocks call) (hstep : X.Step tgt call Y) :
    X.Tells Y := by
  obtain ⟨hfair, hstep⟩ := hstep
  intro a addr _ hin hout
  cases call with
  | getBlock user off e =>
      obtain ⟨r, z, -, hz, rfl⟩ := getBlock_cases hX.mgr hX.slots hstep
      have hlost := hz.tells_lost hX.owned (keeps_served hkeeps hz) hin
      cases r <;> exact hlost hout
  | other c e =>
      obtain ⟨z, hz, rfl⟩ := other_cases hX.mgr hX.slots hfair hstep
      exact hz.tells_lost hX.owned (by simp) hin hout
  | insertUser v =>
      obtain rfl := Option.some.inj hstep
      exact absurd hin hout
  | removeUser v =>
      obtain rfl := Option.some.inj hstep
      exact absurd hin hout

/-- A page that is laid over that of another offset takes the data of this offset away. -/
theorem not_available_reused (hX : X.Tended) (h : Served X.sec off (some (blockIndex off)) z)
    (hres : (X.sec.blockAt (blockIndex off)).Resident)
    (hne : X.sec.off (blockIndex off) ≠ off) (addr : Nat) :
    ¬ z.Available (X.sec.off (blockIndex off)) addr := by
  intro havail
  obtain ⟨j, hj, _, hoff⟩ := havail
  by_cases hsame : j = blockIndex off
  · subst hsame
    rw [h.off_self] at hoff
    exact hne hoff.symm
  · have hkey := hX.keyed_after h j hj
    rw [hoff, hX.keyed _ hres] at hkey
    exact hsame hkey.symm

theorem keeps_of_tells (hX : X.Tended) (hstep : X.Step tgt call Y) (htells : X.Tells Y) :
    X.KeepsBlocks call := by
  cases call with
  | getBlock user off e =>
      intro husers hoff hres
      obtain ⟨u, hu⟩ := husers
      by_contra hne
      obtain ⟨r, z, hrun, hz, rfl⟩ := getBlock_cases hX.mgr hX.slots hstep.2
      obtain ⟨hr, -, hsilent⟩ := wlp_ok (wlp_getBlock_reuse hX.mgr hoff hres hne) hrun
      subst hr
      have havail : X.sec.Available (X.sec.off (blockIndex off))
          (X.sec.blockAt (blockIndex off)).addr := ⟨_, hres, rfl, rfl⟩
      obtain ⟨n, hn, -⟩ := htells _ _ (hX.known _ _ havail) havail
        (not_available_reused hX hz hres hne _) u hu
      change n ∈ z.noticesSince X.sec at hn
      rw [hsilent] at hn
      simp at hn
  | _ => trivial

theorem ne_zero_of_resident {b : RamBlock} (h : b.Resident) : b.flags ≠ 0#32 := by
  intro hzero
  apply h.1
  rw [hzero]
  exact BitVec.zero_and

theorem SectionRun.Started.tended (h : X.Started) : X.Tended where
  mgr := h.mgr.invariant
  slots := h.slots
  owned := h.owned
  keyed := fun i hi => absurd (h.mgr.unused _) (ne_zero_of_resident hi)
  known := fun a addr ⟨i, hi, _⟩ => absurd (h.mgr.unused _) (ne_zero_of_resident hi)
  away := fun u _ a => h.mapped u a
  honest := by
    intro u _ a addr hmap
    rw [h.mapped] at hmap
    simp at hmap

/-- A section whose blocks have two slots. -/
def smallSection : KoSection where
  mgr := { RamManager.constructed fun _ => ⟨0#32, 0, 0, some 0⟩ with
    mBlocks := [none, none], mGrowCount := 4 }
  this := 0
  blocks := ⟨fun i => i, fun _ _ h => Fin.ext h⟩
  off := fun _ => 0
  size := 0x100000#64
  users := {1}
  notices := []

def smallRun : SectionRun := ⟨smallSection, fun _ => none, fun _ _ => none⟩

theorem smallRun_started : smallRun.Started where
  mgr := by
    refine ⟨fun _ => rfl, ?_, rfl, by decide⟩
    intro i pb
    rcases i with _ | _ | i <;> simp [smallRun, smallSection]
  slots := by decide
  owned := fun _ => rfl
  mapped := fun _ _ => rfl

/-- A call of the user 1 -/
def callSection (off : BitVec 64) : SectionCall := .getBlock 1 off ⟨fun _ => true, .ok, .ok⟩

end Vin64.Vm
