import Vin64.Lib.Run
import Vin64.Xv.Proofs.Calls

/-!
# Runs of calls on values

In a run of careful calls every count is right.  A call that sets a value to an object leaves the
object that `ValueSetType` made for it with a count that nobody gives back.
-/

namespace Vin64.Xv.ValueHeap

open Vin64.Lib Vin64.Utils

variable {x : Header} {s t : ValueHeap} {o : Nat}

/-! ## One call -/

/-- What every careful call keeps. -/
structure Sound (x : Header) (s : ValueHeap) : Prop extends WellFormed x s where
  referenced : s.refs.heap.AllReferenced

theorem Sound.of_quiet (hs : Sound x s) (ht : WellFormed x t) (hquiet : Quiet s t) : Sound x t :=
  ⟨ht, hquiet.referenced hs.referenced⟩

theorem Sound.of_does {locs objs : Nat → Prop} {n : Nat} (hs : Sound x s)
    (hdoes : Does x s locs objs n t) : Sound x t :=
  hs.of_quiet hdoes.wellFormed hdoes.quiet

theorem sound_start : Sound x start := ⟨wellFormed_start, nofun⟩

theorem valid_unknown : Content.unknown.Valid x := ⟨nofun, nofun, nofun⟩

theorem Sound.newObject (hs : Sound x s) {c : Content} (helements : c.elements = .empty)
    (hvalid : c.Valid x) : Sound x (s.newObject c) :=
  ⟨hs.toWellFormed.newObject helements hvalid, hs.referenced.setObject rfl s.next⟩

/-- A careful call runs to its end. -/
theorem Sound.exists_call {c : ValueCall} (hs : Sound x s) (hlegal : c.Legal s)
    (hroom : s.HasRoom) (hcareful : c.Careful s) : ∃ t, s.call x c = some t ∧ Sound x t := by
  have hwf := hs.toWellFormed
  have hbound : ∀ y, s.refs.references y + 2 < 2147483648 := fun y => by
    have hy := hroom y
    omega
  cases c with
  | construct arg =>
      have hne : arg ≠ .block none := by
        rintro rfl
        exact hcareful rfl
      obtain ⟨t, hrun, ht, hquiet⟩ := exists_construct hwf hlegal.1 hlegal.2 hne hroom
      exact ⟨t, hrun, hs.of_quiet ht hquiet⟩
  | constructType mem typ =>
      obtain ⟨t, hrun, ht, hquiet⟩ := exists_constructType hwf hcareful
      exact ⟨t, hrun, hs.of_quiet ht hquiet⟩
  | constructComplex mem c p =>
      obtain ⟨t, hrun, ht, hquiet⟩ := exists_constructComplex hwf hlegal hcareful hroom
      exact ⟨t, hrun, hs.of_quiet ht hquiet⟩
  | destruct pv =>
      obtain ⟨t, hrun, ht, hquiet, -⟩ := exists_destroyValue hwf ⟨hlegal.1, hlegal.2⟩
      exact ⟨t, hrun, hs.of_quiet ht.wellFormed hquiet⟩
  | set pv arg =>
      obtain ⟨b, t, hrun, hdoes, -⟩ := exists_set hwf hlegal.1 hlegal.2 hcareful hbound
      exact ⟨t, by rw [call, hrun]; rfl, hs.of_does hdoes⟩
  | setAt pv key elmt =>
      obtain ⟨b, t, hrun, ht, hquiet⟩ :=
        exists_setAt hwf hlegal.1 hlegal.2 hcareful.1 hcareful.2 hroom
      exact ⟨t, by rw [call, hrun]; rfl, hs.of_quiet ht hquiet⟩
  | changeType pv typ vs =>
      obtain ⟨t, hrun, hdoes, -, -⟩ := exists_valueSetType2 hwf hlegal hcareful vs
      exact ⟨t, hrun, hs.of_does hdoes⟩
  | clear pv =>
      obtain ⟨t, hrun, hdoes, -⟩ := exists_valueClear hwf hlegal hcareful
      exact ⟨t, hrun, hs.of_does hdoes⟩
  | newComplex c =>
      obtain ⟨content, hnew⟩ : ∃ content, newContent c.type = some content := by
        cases c <;> exact ⟨_, rfl⟩
      exact ⟨s.newObject content, by rw [call, hnew]; rfl,
        hs.newObject (newContent_eq hnew).2.1 (newContent_valid hnew)⟩
  | newUnknown => exact ⟨s.newObject .unknown, rfl, hs.newObject rfl valid_unknown⟩
  | hold o =>
      obtain ⟨t, hrun, heffect, -, -, hreferenced, -⟩ :=
        @WellFormed.exists_hold x s o (fun _ => False) (fun _ => False) hwf hlegal (by
          have ho := hbound o
          omega)
      exact ⟨t, hrun, heffect.wellFormed, hreferenced hs.referenced⟩
  | letGo o =>
      obtain ⟨t, hrun, heffect, -, hreferenced, -⟩ :=
        @WellFormed.exists_letGo x s o (fun _ => False) (fun _ => False) hwf hlegal
      exact ⟨t, hrun, heffect.wellFormed, hreferenced hs.referenced⟩

/-- The balance of the handles, read as counts of objects. -/
theorem Sound.counts (hs : Sound x s) : s.Counts := by
  have hsound := hs.sound
  refine ⟨fun o ob hob => ?_, fun o ob hob => ?_, fun pv o hp => ?_⟩
  · have hcount := hsound.counted o ob hob
    have hbounded := hsound.bounded o ob hob
    rw [BitVec.toInt_eq_toNat_of_lt (by omega), hcount, RefRun.references, Int.natCast_add]
  · have hcount := hsound.counted o ob hob
    unfold RefRun.references at hcount
    have hzero : ob.refCount = 0 ↔ ob.refCount.toNat = 0 := BitVec.toNat_eq
    rw [hsound.destroyed o ob hob, hzero]
    constructor
    · rintro ⟨-, hnone⟩
      omega
    · rintro ⟨hvalues, hcaller⟩
      exact ⟨hs.referenced o ob hob, by omega⟩
  · exact Option.ne_none_iff_exists'.2 (alive_of_pointee hsound.exact hp)

/-! ## Runs -/

/-- In a run of careful calls the count of every object is right, it is there until the last
reference goes, and every careful call that may follow runs to its end. -/
theorem run_counts {calls : List ValueCall}
    (hrun : Lib.Run (When (fun s c => c.Legal s ∧ s.HasRoom ∧ c.Careful s)
      fun s c t => s.call x c = some t) start calls s) :
    s.Counts ∧ ∀ c, c.Legal s → s.HasRoom → c.Careful s → ∃ t, s.call x c = some t := by
  have hsound : Sound x s := by
    refine hrun.invariant sound_start fun s c t hs hstep => ?_
    obtain ⟨⟨hlegal, hroom, hcareful⟩, hcall⟩ := hstep
    obtain ⟨t', hrun', ht⟩ := hs.exists_call hlegal hroom hcareful
    obtain rfl : t' = t := Option.some.inj (hrun'.symm.trans hcall)
    exact ht
  refine ⟨hsound.counts, fun c hlegal hroom hcareful => ?_⟩
  obtain ⟨t, hcall, -⟩ := hsound.exists_call hlegal hroom hcareful
  exact ⟨t, hcall⟩

theorem hasRoom_of_le (hlen : s.refs.heap.refps.entries.length ≤ 8) (hout : ∀ y, s.refs.out y ≤ 1) :
    s.HasRoom := by
  intro y
  have hcount : s.refs.heap.refps.count (some y) ≤ s.refs.heap.refps.entries.length :=
    List.countP_le_length
  have hy := hout y
  unfold RefRun.references
  omega

/-- An object that the caller makes, a value that points to it, and a copy of the value. -/
def shared : List ValueCall :=
  [.construct (.value 1), .constructComplex ⟨.dObject, .s8, 0⟩ .vObject (some 0),
    .newComplex .vObject]

theorem run_counts_shared : ∃ s, runAll (call sampleHeader) start shared.reverse = some s ∧
    s.Counts ∧ ∀ c, c.Legal s → s.HasRoom → c.Careful s →
      ∃ t, s.call sampleHeader c = some t := by
  have hout : ∀ y, RefRun.giveOut start.refs.out (some 0) y ≤ 1 := fun y => by
    have hheld : RefRun.giveOut start.refs.out (some 0) y = if y = 0 then 1 else 0 :=
      Function.update_apply ..
    rw [hheld]
    split <;> omega
  refine ⟨_, rfl, @run_counts sampleHeader _ shared (.snoc (.snoc (.snoc .nil
    ⟨⟨trivial, hasRoom_of_le (by decide) fun y => Nat.zero_le 1, trivial⟩, rfl⟩)
    ⟨⟨?_, hasRoom_of_le (by decide) hout, .inr rfl⟩, rfl⟩)
    ⟨⟨⟨trivial, ?_⟩, hasRoom_of_le (by decide) hout, trivial⟩, rfl⟩)⟩
  · rintro y ⟨⟩
    exact ⟨nofun, rfl⟩
  · exact nofun

/-- A null value is set to an object that the caller has made. -/
def objectSet : List ValueCall :=
  [.set 0 (.complex .vObject (some 1)), .newComplex .vObject, .construct .null]

/-- The object that `ValueSetType` made is referenced by nobody, and not destroyed. -/
theorem set_object_leaks : ∃ s, Lib.Run (When (fun s c => c.Legal s)
    fun s c t => s.call sampleHeader c = some t) start objectSet s ∧ ¬ s.Counts := by
  refine ⟨_, .snoc (.snoc (.snoc .nil ⟨⟨trivial, trivial⟩, rfl⟩) ⟨trivial, rfl⟩)
    ⟨⟨nofun, ?_⟩, rfl⟩, fun h => ?_⟩
  · rintro y ⟨⟩
    exact ⟨nofun, rfl⟩
  · have hleaked := h.counted 2 _ rfl
    revert hleaked
    decide

end Vin64.Xv.ValueHeap
