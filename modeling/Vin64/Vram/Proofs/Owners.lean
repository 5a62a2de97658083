import Vin64.Vram.Proofs.Runs

/-!
# What the owners of blocks are told

A block with an owner stops being resident when its page moves to the page file and when it
is freed.  Its owner is told then, and only then.
-/

namespace Vin64.Vram

open Vin64.Lib Vin64.Lib.Op Vin64.Utils RamManager

variable {s t u : RamManager} {e : Env}

/-! ## Resident blocks -/

namespace RamManager

theorem resident_iff {q : Nat} : s.Resident q ↔ ∃ i, s.place q = some (.slot i) := by
  constructor
  · intro h
    exact ⟨_, RamBlock.place_eq_slot.2 ⟨h.1, not_not.1 h.2, rfl⟩⟩
  · intro ⟨i, hi⟩
    obtain ⟨hv, hs, -⟩ := RamBlock.place_eq_slot.1 hi
    exact ⟨hv, fun h => h hs⟩

theorem resident_of_slot {q i : Nat} (h : s.place q = some (.slot i)) : s.Resident q :=
  resident_iff.2 ⟨i, h⟩

theorem not_resident_of_file {q j : Nat} (h : s.place q = some (.file j)) : ¬ s.Resident q := by
  intro hres
  obtain ⟨i, hi⟩ := resident_iff.1 hres
  rw [h] at hi
  simp at hi

theorem not_resident_of_none {q : Nat} (h : s.place q = none) : ¬ s.Resident q := by
  intro hres
  obtain ⟨i, hi⟩ := resident_iff.1 hres
  rw [h] at hi
  simp at hi

theorem resident_congr {q : Nat} (h : t.place q = s.place q) : t.Resident q ↔ s.Resident q := by
  rw [resident_iff, resident_iff, h]

theorem since_eq {new : List Invalidated} (h : t.invalidated = new ++ s.invalidated) :
    t.since s = new := by
  unfold since
  rw [h, List.length_append, Nat.add_sub_cancel]
  exact List.take_left

end RamManager

/-- Every block that stops being resident is told to its owner once, as it was before, and
no other block is. -/
structure Notifies (s t : RamManager) : Prop where
  appends : t.invalidated = t.since s ++ s.invalidated
  exact : ∀ q, (t.since s).filter (fun n => n.pb = q) =
    if s.Resident q ∧ ¬ t.Resident q then s.note q else []

/-! ## What a move tells -/

/-- Between two states the block in `left` and no other one stops being resident, its owner
is told, and every block that stays resident stays as it was. -/
structure Tells (s t : RamManager) (left : Option Nat) : Prop where
  notes : t.invalidated = left.elim [] s.note ++ s.invalidated
  leaves : ∀ q, left = some q ↔ s.Resident q ∧ ¬ t.Resident q
  stays : ∀ q, s.Resident q → t.Resident q → t.blocks q = s.blocks q
  owner : ∀ q, (t.blocks q).owner = (s.blocks q).owner

namespace Tells

theorem refl (s : RamManager) : Tells s s none where
  notes := rfl
  leaves := by simp
  stays := fun _ _ _ => rfl
  owner := fun _ => rfl

theorem of_blocks (hb : t.blocks = s.blocks) (hn : t.invalidated = s.invalidated) :
    Tells s t none where
  notes := hn
  leaves := by
    intro q
    rw [resident_congr (congrFun (place_of_blocks hb) q)]
    simp
  stays := fun q _ _ => by rw [hb]
  owner := fun q => by rw [hb]

/-- A move after which nothing is told. -/
theorem andThen {left : Option Nat} (h : Tells s u left) (h' : Tells u t none)
    (hleft : ∀ q, left = some q → ¬ t.Resident q) : Tells s t left where
  notes := h'.notes.trans h.notes
  leaves := by
    intro q
    constructor
    · exact fun hq => ⟨((h.leaves q).1 hq).1, hleft q hq⟩
    · intro ⟨hs, ht⟩
      have hu : ¬ u.Resident q := fun hu => absurd ((h'.leaves q).2 ⟨hu, ht⟩) (by simp)
      exact (h.leaves q).2 ⟨hs, hu⟩
  stays := by
    intro q hs ht
    have hu : u.Resident q := by
      by_contra hu
      exact hleft q ((h.leaves q).2 ⟨hs, hu⟩) ht
    rw [h'.stays q hu ht, h.stays q hs hu]
  owner := fun q => (h'.owner q).trans (h.owner q)

theorem filter_note (s : RamManager) (m q : Nat) :
    (s.note m).filter (fun n => n.pb = q) = if m = q then s.note m else [] := by
  unfold note
  cases (s.blocks m).owner with
  | none => simp
  | some o => by_cases hmq : m = q <;> simp [hmq]

theorem notifies {left : Option Nat} (h : Tells s t left) : Notifies s t := by
  have hsince := since_eq h.notes
  constructor
  · rw [hsince]
    exact h.notes
  · intro q
    rw [hsince]
    cases hl : left with
    | none =>
        have hno : ¬ (s.Resident q ∧ ¬ t.Resident q) := by
          intro hq
          have hleft := (h.leaves q).2 hq
          rw [hl] at hleft
          simp at hleft
        rw [if_neg hno]
        rfl
    | some m =>
        rw [Option.elim_some, filter_note]
        by_cases hmq : m = q
        · rw [if_pos hmq, if_pos ((h.leaves q).1 (by rw [hl, hmq])), hmq]
        · have hno : ¬ (s.Resident q ∧ ¬ t.Resident q) := by
            intro hq
            have hleft := (h.leaves q).2 hq
            rw [hl] at hleft
            exact hmq (by simpa using hleft)
          rw [if_neg hmq, if_neg hno]

end Tells

theorem RamManager.Evicts.tells {i m j : Nat} (h : Evicts s t i m j) (hs : s.Invariant) :
    Tells s t (some m) where
  notes := h.notes
  leaves := by
    intro q
    by_cases hq : q = m
    · have hm := (hs.slot_iff i m).1 h.was
      rw [hq]
      simpa using ⟨resident_of_slot hm, not_resident_of_file (h.place_self hs)⟩
    · rw [resident_congr (h.place_ne hq)]
      simp [Ne.symm hq]
  stays := by
    intro q _ ht
    have hq : q ≠ m := by
      rintro rfl
      exact not_resident_of_file (h.place_self hs) ht
    rw [h.blocks, Function.update_of_ne hq]
  owner := by
    intro q
    by_cases hq : q = m
    · rw [h.blocks, hq, Function.update_self]
      rfl
    · rw [h.blocks, Function.update_of_ne hq]

theorem RamManager.Puts.tells {i c : Nat} {b : RamBlock} (h : Puts s t i c b)
    (howner : b.owner = (s.blocks c).owner) : Tells s t none where
  notes := h.notes
  leaves := by
    intro q
    by_cases hq : q = c
    · rw [hq]
      simpa using fun _ => resident_of_slot h.place_self
    · rw [resident_congr (h.place_ne hq)]
      simp
  stays := by
    intro q hres _
    have hq : q ≠ c := by
      rintro rfl
      obtain ⟨k, hk⟩ := resident_iff.1 hres
      exact h.apart k hk
    rw [h.blocks, Function.update_of_ne hq]
  owner := by
    intro q
    by_cases hq : q = c
    · rw [h.blocks, hq, Function.update_self, howner]
    · rw [h.blocks, Function.update_of_ne hq]

theorem RamManager.Lifts.tells {c : Nat} {b : RamBlock} (h : Lifts s t c b)
    (howner : b.owner = (s.blocks c).owner) : Tells s t (if s.Resident c then some c else none) where
  notes := by
    by_cases hres : s.Resident c
    · obtain ⟨i, hi⟩ := resident_iff.1 hres
      rw [if_pos hres]
      exact h.notes_slot i hi
    · rw [if_neg hres]
      exact h.notes_rest fun i hi => hres (resident_of_slot hi)
  leaves := by
    intro q
    by_cases hq : q = c
    · have hgone := not_resident_of_none h.place_self
      rw [hq]
      simp [hgone]
    · rw [resident_congr (h.place_ne hq)]
      simp [Ne.symm hq]
  stays := by
    intro q _ ht
    have hq : q ≠ c := by
      rintro rfl
      exact not_resident_of_none h.place_self ht
    rw [h.blocks, Function.update_of_ne hq]
  owner := by
    intro q
    by_cases hq : q = c
    · rw [h.blocks, hq, Function.update_self, howner]
    · rw [h.blocks, Function.update_of_ne hq]

theorem RamManager.Exchanges.tells {i m c j : Nat} (h : Exchanges s t i m c j) (hs : s.Invariant) :
    Tells s t (some m) := by
  -- block `c` leaves the page file, block `m` its slot, and then block `c` comes to the slot
  have hlift := lifts_file hs h.at_file
  have hev := h.evicts hs
  have hput := h.puts hs
  have hfirst : Tells s (lifted s c j) none := by
    have ht := hlift.tells rfl
    rwa [if_neg (not_resident_of_file h.at_file)] at ht
  have hm : ¬ t.Resident m := by
    rw [resident_congr (hput.place_ne (h.ne hs))]
    exact not_resident_of_file (hev.place_self (hlift.invariant hs))
  have hne := h.ne hs
  have hmid := hev.tells (hlift.invariant hs)
  have hlast := hput.tells
    (by simp [RamBlock.swappedIn, Exchanges.evicted, lifted, RamBlock.freed, hne.symm])
  have hrest := hmid.andThen hlast (by rintro q ⟨rfl⟩; exact hm)
  have hsame : ∀ q, q ≠ c → ((lifted s c j).Resident q ↔ s.Resident q) := fun q hq =>
    resident_congr (hlift.place_ne hq)
  constructor
  · exact h.notes
  · intro q
    by_cases hq : q = c
    · have hc := not_resident_of_file h.at_file
      rw [hq]
      simp [hne, hc]
    · rw [hrest.leaves q, hsame q hq]
  · intro q hres ht
    have hq : q ≠ c := by
      rintro rfl
      exact not_resident_of_file h.at_file hres
    have hmidres := (hsame q hq).2 hres
    rw [hrest.stays q hmidres ht, hfirst.stays q hres hmidres]
  · exact fun q => (hrest.owner q).trans (hfirst.owner q)

/-! ## What a call tells -/

theorem MadeRoom.tells {i : Nat} (h : MadeRoom s u i) (hs : s.Invariant) :
    ∃ left, Tells s u left := by
  cases h with
  | free _ => exact ⟨none, Tells.refl s⟩
  | @evict _ _ m _ hev _ => exact ⟨some m, hev.tells hs⟩

theorem Fetches.tells {i c : Nat} (h : Fetches s t i c) (hs : s.Invariant) :
    ∃ left, Tells s t left := by
  cases h with
  | load _ hput _ => exact ⟨none, hput.tells rfl⟩
  | exchange hex => exact ⟨_, hex.tells hs⟩

theorem Effect.tells {c : Call} {bytes : List UInt8} (h : Effect s e c bytes t) (hs : s.Invariant)
    (hproper : c.Proper s) : ∃ left, Tells s t left := by
  cases h with
  | @alloc pb i flags u _ _ hroom hput _ =>
      obtain ⟨left, hleft⟩ := hroom.tells hs
      refine ⟨left, hleft.andThen (hput.tells rfl) ?_⟩
      intro q hq
      obtain ⟨hres, hgone⟩ := (hleft.leaves q).1 hq
      have hne : q ≠ pb := by
        rintro rfl
        exact hproper hres.1
      rwa [resident_congr (hput.place_ne hne)]
  | free hlift _ => exact ⟨_, hlift.tells rfl⟩
  | @swapOut pb _ _ _ _ hev => exact ⟨some pb, hev.tells hs⟩
  | swapIn _ hfetch => exact hfetch.tells hs
  | ensure _ hfetch => exact hfetch.tells hs
  | accessFetched _ hfetch => exact hfetch.tells hs
  | write _ hwrite => exact ⟨none, Tells.of_blocks hwrite.blocks hwrite.notes⟩
  | read _ _ hread => exact ⟨none, Tells.of_blocks hread.blocks hread.notes⟩
  | freeUnused _ => exact ⟨none, Tells.refl s⟩
  | alreadyOut _ => exact ⟨none, Tells.refl s⟩
  | resident _ => exact ⟨none, Tells.refl s⟩
  | access _ => exact ⟨none, Tells.refl s⟩

/-- A call, whether it succeeds or fails, tells what it does to the blocks. -/
theorem step_tells {t : Target} {v : Event} (hs : s.Invariant) (hproper : v.call.Proper s)
    (hstep : step t s v u) : ∃ left, Tells s u left := by
  rcases step_cases hs hproper.inPage hproper.safe hstep with ⟨bytes, -, heffect⟩ | ⟨r, -, hfails⟩
  · exact heffect.tells hs hproper
  · exact ⟨none, Tells.of_blocks hfails.blocks hfails.notes⟩

/-! ## Owners that keep addresses -/

/-- The block a call brought to its slot, when it succeeded. -/
def Event.brings (v : Event) : Option Nat :=
  match v.call, v.reply with
  | .alloc pb _, .ok _ => some pb
  | .swapIn pb, .ok _ => some pb
  | .ensure pb, .ok _ => some pb
  | _, _ => none

/-- An owner forgets the address of a block that it is told about. -/
def forget (n : Invalidated) (held : Nat → Option Nat) : Nat → Option Nat :=
  Function.update held n.pb none

/-- The addresses the owners hold after a step. -/
def holdsAfter (s t : RamManager) (v : Event) (held : Nat → Option Nat) : Nat → Option Nat :=
  let held := (t.since s).foldr forget held
  match v.brings with
  | some pb => Function.update held pb (some (t.blocks pb).addr)
  | none => held

/-- A step of the manager, with the addresses that the owners hold. -/
def ownedStep (t : Target) (x : RamManager × (Nat → Option Nat)) (v : Event)
    (y : RamManager × (Nat → Option Nat)) : Prop :=
  step t x.1 v y.1 ∧ y.2 = holdsAfter x.1 y.1 v x.2

/-- Every address that an owner holds is the address of its block, which is resident. -/
def Fresh (s : RamManager) (held : Nat → Option Nat) : Prop :=
  ∀ q a, (s.blocks q).owner ≠ none → held q = some a → s.Resident q ∧ (s.blocks q).addr = a

theorem foldr_forget {q a : Nat} {held : Nat → Option Nat} (notes : List Invalidated)
    (h : notes.foldr forget held q = some a) : held q = some a ∧ ∀ n ∈ notes, n.pb ≠ q := by
  induction notes with
  | nil => exact ⟨h, by simp⟩
  | cons n notes ih =>
      rw [List.foldr_cons, forget] at h
      by_cases hn : q = n.pb
      · simp [hn] at h
      · rw [Function.update_of_ne hn] at h
        obtain ⟨hheld, hrest⟩ := ih h
        refine ⟨hheld, ?_⟩
        intro m hm
        rcases List.mem_cons.1 hm with rfl | hm
        · exact Ne.symm hn
        · exact hrest m hm

theorem Effect.brought {c : Call} {bytes : List UInt8} {pb : Nat} (h : Effect s e c bytes t)
    (hs : s.Invariant) (hpb : Event.brings ⟨c, e, .ok bytes⟩ = some pb) : t.Resident pb := by
  cases h with
  | alloc _ _ hput _ =>
      obtain rfl : _ = pb := by simpa [Event.brings] using hpb
      exact resident_of_slot hput.place_self
  | swapIn _ hfetch =>
      obtain rfl : _ = pb := by simpa [Event.brings] using hpb
      exact resident_of_slot (hfetch.place_self hs)
  | resident hslot =>
      obtain rfl : _ = pb := by simpa [Event.brings] using hpb
      exact resident_of_slot hslot
  | ensure _ hfetch =>
      obtain rfl : _ = pb := by simpa [Event.brings] using hpb
      exact resident_of_slot (hfetch.place_self hs)
  | _ => simp [Event.brings] at hpb

theorem step_brought {t : Target} {v : Event} {pb : Nat} (hs : s.Invariant)
    (hproper : v.call.Proper s) (hstep : step t s v u) (hpb : v.brings = some pb) :
    u.Resident pb := by
  obtain ⟨c, e, reply⟩ := v
  rcases step_cases hs hproper.inPage hproper.safe hstep with ⟨bytes, rfl, heffect⟩ | ⟨r, rfl, -⟩
  · exact heffect.brought hs hpb
  · cases c <;> simp [Event.brings] at hpb

theorem step_fresh {t : Target} {v : Event} {held : Nat → Option Nat} (hs : s.Invariant)
    (hproper : v.call.Proper s) (hstep : step t s v u) (h : Fresh s held) :
    Fresh u (holdsAfter s u v held) := by
  obtain ⟨left, htells⟩ := step_tells hs hproper hstep
  have hnotifies := htells.notifies
  have hkept : ∀ q a, (u.blocks q).owner ≠ none → (u.since s).foldr forget held q = some a →
      u.Resident q ∧ (u.blocks q).addr = a := by
    intro q a howner hq
    obtain ⟨hheld, hnot⟩ := foldr_forget _ hq
    rw [htells.owner] at howner
    obtain ⟨hres, haddr⟩ := h q a howner hheld
    have hstays : u.Resident q := by
      by_contra hgone
      have hexact := hnotifies.exact q
      rw [if_pos ⟨hres, hgone⟩, List.filter_eq_nil_iff.2 (by simpa using hnot)] at hexact
      simp [note, howner] at hexact
    rw [htells.stays q hres hstays]
    exact ⟨hstays, haddr⟩
  intro q a howner hq
  unfold holdsAfter at hq
  cases hb : v.brings with
  | none =>
      rw [hb] at hq
      exact hkept q a howner hq
  | some pb =>
      rw [hb] at hq
      by_cases hpb : q = pb
      · have ha : (u.blocks pb).addr = a := by simpa [hpb] using hq
        rw [hpb]
        exact ⟨step_brought hs hproper hstep hb, ha⟩
      · simp only [Function.update_of_ne hpb] at hq
        exact hkept q a howner hq

/-- In every run of proper calls each call tells exactly the owners of the blocks that stop
being resident, and an owner that keeps the address of its block between the calls that
bring it in and the calls it gets never holds an old one. -/
theorem run_notifies (t : Target) {held : Nat → Option Nat} {es : List Event} (hstart : s.Started)
    (hrun : Run (When (fun x v => v.call.Proper x.1) (ownedStep t)) (s, fun _ => none) es (u, held)) :
    (∀ v u', v.call.Proper u → step t u v u' → Notifies u u') ∧ Fresh u held := by
  have hinv : u.Invariant ∧ Fresh u held := by
    apply hrun.invariant (P := fun x => x.1.Invariant ∧ Fresh x.1 x.2)
    · exact ⟨hstart.invariant, fun _ _ _ h => by simp at h⟩
    · intro x v y hx hstep
      obtain ⟨hproper, hstep, hheld⟩ := hstep
      rw [hheld]
      exact ⟨step_invariant hx.1 hproper.inPage hproper.safe hstep,
        step_fresh hx.1 hproper hstep hx.2⟩
  refine ⟨?_, hinv.2⟩
  intro v u' hproper hstep
  obtain ⟨left, htells⟩ := step_tells hinv.1 hproper hstep
  exact htells.notifies

/-- A manager of one slot, whose blocks have an owner. -/
def ownedSlot : RamManager := { oneSlot with blocks := fun _ => ⟨0#32, 0, 0, some 7⟩ }

theorem ownedSlot_started : ownedSlot.Started :=
  ⟨fun _ => rfl, oneSlot_started.slots, rfl, by decide⟩

theorem owned_snoc {t : Target} {x : RamManager × (Nat → Option Nat)} {v : Event} {es : List Event}
    {held : Nat → Option Nat}
    (hrun : Run (When (fun x v => v.call.Proper x.1) (ownedStep t)) x es (s, held))
    (hproper : v.call.Proper s) (hstep : step t s v u) :
    Run (When (fun x v => v.call.Proper x.1) (ownedStep t)) x (v :: es)
      (u, holdsAfter s u v held) :=
  .snoc hrun ⟨hproper, hstep, rfl⟩

/-- Block 1 takes the slot of block 0, whose owner is told. -/
theorem run_notifies_ownedSlot :
    ∃ u held, Run (When (fun x v => v.call.Proper x.1) (ownedStep .x64)) (ownedSlot, fun _ => none)
      [⟨.alloc 1 0#32, quiet, .ok []⟩, ⟨.alloc 0 0#32, quiet, .ok []⟩] (u, held) ∧
      (∀ v u', v.call.Proper u → step .x64 u v u' → Notifies u u') ∧ Fresh u held ∧
      held 0 = none ∧ held 1 = some 0 := by
  have hrun : ∃ u held, Run (When (fun x v => v.call.Proper x.1) (ownedStep .x64))
      (ownedSlot, fun _ => none)
      [⟨.alloc 1 0#32, quiet, .ok []⟩, ⟨.alloc 0 0#32, quiet, .ok []⟩] (u, held) ∧
      held 0 = none ∧ held 1 = some 0 :=
    ⟨_, _, owned_snoc (owned_snoc .nil (by decide) rfl) (by decide) rfl, by decide, by decide⟩
  obtain ⟨u, held, hrun, h0, h1⟩ := hrun
  obtain ⟨hnotifies, hfresh⟩ := run_notifies .x64 ownedSlot_started hrun
  exact ⟨u, held, hrun, hnotifies, hfresh, h0, h1⟩

end Vin64.Vram
