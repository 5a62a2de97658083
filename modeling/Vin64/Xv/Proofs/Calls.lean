import Vin64.Xv.Proofs.Held

/-!
# The counts are right after careful calls

Each call that meets its condition runs to its end and leaves a well formed heap.
-/

namespace Vin64.Xv

open Vin64.Lib Vin64.Utils

namespace ValueHeap

variable {x : Header} {s t u : ValueHeap} {pv o l n m : Nat} {locs objs locs' objs' : Nat → Prop}

/-! ## What a call does -/

/-- The effect of a call that gives back the references it takes and destroys no value. -/
structure Does (x : Header) (s : ValueHeap) (locs objs : Nat → Prop) (n : Nat) (t : ValueHeap) :
    Prop extends Effect x s locs objs n t where
  quiet : Quiet s t
  free : ∀ l, Free s l → Free t l

theorem Does.refl (hs : WellFormed x s) : Does x s locs objs n s :=
  ⟨.refl hs, .refl s, fun _ h => h⟩

theorem Does.trans (hst : Does x s locs objs n t) (htu : Does x t locs' objs' m u)
    (hlocs : ∀ l, l < s.next → locs' l → locs l) (hobjs : ∀ y, y < s.next → objs' y → objs y) :
    Does x s locs objs (n + m) u :=
  ⟨hst.toEffect.trans htu.toEffect hlocs hobjs, hst.quiet.trans htu.quiet,
    fun l h => htu.free l (hst.free l h)⟩

theorem Does.mono (hst : Does x s locs objs n t) (hlocs : ∀ l, l < s.next → locs l → locs' l)
    (hobjs : ∀ y, y < s.next → objs y → objs' y) (hn : n ≤ m) : Does x s locs' objs' m t :=
  ⟨hst.toEffect.mono hlocs hobjs hn, hst.quiet, hst.free⟩

theorem does_newValue (hs : WellFormed x s) :
    Does x s (fun _ => False) (fun _ => False) 0 s.newValue :=
  ⟨hs.effect_newValue, ⟨rfl, id⟩, fun _ h => h.newValue⟩

theorem exists_valueClear (hs : WellFormed x s) (hmade : s.refs.Made pv)
    (hsafe : s.refs.Survives pv) :
    ∃ t, s.valueClear pv = some t ∧ Does x s (· = pv) (fun _ => False) 0 t ∧ Clears x s pv t := by
  obtain ⟨t, hrun⟩ := (hs.valueClear_iff hmade).2 hsafe
  exact ⟨t, hrun, ⟨(hs.effect_valueClear hrun).mono (fun _ _ h => h) (fun _ _ h => h.elim) le_rfl,
    .valueClear hrun, fun _ h => h.valueClear hs hrun⟩, hs.clears hrun⟩

theorem made_withType (vt : ValueType) (vs : ValueSize) (hmade : s.refs.Made pv) (l : Nat) :
    (s.withType pv vt vs).refs.Made l ↔ s.refs.Made l := by
  unfold withType
  split
  · exact Iff.rfl
  · refine (made_setPointer (s.setSlot pv _) pv _ l).trans ⟨fun h => ?_, .inr⟩
    exact h.elim (fun heq => heq ▸ hmade) id

/-- A value is cleared and gets another type. -/
theorem exists_withType (hs : WellFormed x s) (hmade : s.refs.Made pv)
    (hsafe : s.refs.Survives pv) (vt : ValueType) (vs : ValueSize) :
    ∃ u, s.valueClear pv = some u ∧ Does x s (· = pv) (fun _ => False) 1 (u.withType pv vt vs) ∧
      (u.withType pv vt vs).refs.Made pv := by
  obtain ⟨u, hclear, hdoes, hc⟩ := exists_valueClear hs hmade hsafe
  have hpv : u.refs.Made pv := (hc.made pv).2
    ⟨hmade, fun ⟨y, hin, hdoomed⟩ => hc.survives y hin hdoomed⟩
  have heffect : Effect x s (· = pv) (fun _ => False) 1 (u.withType pv vt vs) :=
    (hs.effect_withType vt vs hclear).mono (fun _ _ h => h) (fun _ _ h => h.elim) le_rfl
  refine ⟨u, hclear, ⟨heffect, hdoes.quiet.trans (.withType u pv vt vs), fun l hl => ?_⟩,
    (made_withType vt vs hpv pv).2 hpv⟩
  exact heffect.free hs.toLinked hl ((made_withType vt vs hpv l).2 (hdoes.free l hl).made)

theorem valueSetType_of_ne {vt : ValueType} (hmade : s.refs.Made pv)
    (hne : (s.slots pv).type ≠ vt) (hclear : s.valueClear pv = some u) :
    s.valueSetType pv vt = some (u.withType pv vt .s8) := by
  unfold valueSetType withType
  simp only [slot_of_made hmade, Option.bind_eq_bind, Option.bind_some, if_neg hne, hclear]
  cases newContent vt <;> rfl

theorem valueSetType2_of_ne {vt : ValueType} {vs : ValueSize} (hmade : s.refs.Made pv)
    (hne : (s.slots pv).type ≠ vt) (hclear : s.valueClear pv = some u) :
    s.valueSetType2 pv vt vs = some (u.withType pv vt vs) := by
  unfold valueSetType2 withType
  simp only [slot_of_made hmade, Option.bind_eq_bind, Option.bind_some, if_neg hne, hclear]
  cases newContent vt <;> rfl

/-- `ValueSetType` of a value that may change its type. -/
theorem exists_valueSetType {vt : ValueType} (hs : WellFormed x s) (hmade : s.refs.Made pv)
    (hretype : s.Retypes pv vt) :
    ∃ t, s.valueSetType pv vt = some t ∧ Does x s (· = pv) (fun _ => False) 1 t ∧ t.refs.Made pv ∧
      (t.slots pv).type = vt := by
  by_cases htype : (s.slots pv).type = vt
  · refine ⟨s, ?_, .refl hs, hmade, htype⟩
    unfold valueSetType
    simp only [slot_of_made hmade, Option.bind_eq_bind, Option.bind_some, if_pos htype]
  · obtain ⟨u, hclear, hdoes, hpv⟩ :=
      exists_withType hs hmade (hretype.resolve_left htype) vt .s8
    exact ⟨_, valueSetType_of_ne hmade htype hclear, hdoes, hpv, type_withType u pv vt .s8⟩

theorem exists_valueSetType2 {vt : ValueType} (hs : WellFormed x s) (hmade : s.refs.Made pv)
    (hretype : s.Retypes pv vt) (vs : ValueSize) :
    ∃ t, s.valueSetType2 pv vt vs = some t ∧ Does x s (· = pv) (fun _ => False) 1 t ∧
      t.refs.Made pv ∧ (t.slots pv).type = vt := by
  by_cases htype : (s.slots pv).type = vt
  · have hrun : s.valueSetType2 pv vt vs = some (s.setSlot pv { s.slots pv with bsiz := vs }) := by
      unfold valueSetType2
      simp only [slot_of_made hmade, Option.bind_eq_bind, Option.bind_some, if_pos htype]
    refine ⟨_, hrun, ⟨?_, .valueSetType2 hrun, fun l h => ⟨h.made, h.outside⟩⟩, hmade,
      type_of_valueSetType2 hrun⟩
    exact (hs.effect_valueSetType2 hrun).mono (fun _ _ h => h) (fun _ _ h => h.elim) le_rfl
  · obtain ⟨u, hclear, hdoes, hpv⟩ :=
      exists_withType hs hmade (hretype.resolve_left htype) vt vs
    exact ⟨_, valueSetType2_of_ne hmade htype hclear, hdoes, hpv, type_withType u pv vt vs⟩

/-- The data of a scalar that the value is. -/
theorem Does.setScalar {v : Slot} (h : Does x s (· = pv) objs n t)
    (htype : (t.slots pv).type = v.type) (hnew : newContent v.type = none)
    (hknown : v.type ≠ .dUnknown) : Does x s (· = pv) objs n (t.setSlot pv v) :=
  ⟨h.toEffect.setScalar htype hnew hknown, h.quiet.setSlot pv v,
    fun l hl => ⟨(h.free l hl).made, (h.free l hl).outside⟩⟩

theorem exists_valueSet {val : Nat} (hs : WellFormed x s) (hmade : s.refs.Made pv)
    (hval : s.refs.Made val) (hsafe : s.refs.Survives pv) (hstays : ¬ s.refs.Goes pv val)
    (hroom : ∀ y, s.refs.references y + 1 < 2147483648) :
    ∃ t, s.valueSet val pv = some (true, t) ∧ Does x s (· = pv) (fun _ => False) 1 t ∧
      t.refs.Made pv := by
  obtain ⟨u, hclear, hdoes, hc⟩ := exists_valueClear hs hmade hsafe
  obtain ⟨t, hrun, hp, -⟩ := hs.valueSet hclear ((hc.made val).2 ⟨hval, hstays⟩)
  have heffect : Effect x s (· = pv) (fun _ => False) 1 t :=
    (hs.effect_valueSet hrun fun y _ => hroom y).mono (fun _ _ h => h) (fun _ _ h => h.elim) le_rfl
  have hpv : u.refs.Made pv := (hc.made pv).2
    ⟨hmade, fun ⟨y, hin, hdoomed⟩ => hc.survives y hin hdoomed⟩
  exact ⟨t, hrun, ⟨heffect, .valueSet hrun, fun l hl =>
    heffect.free hs.toLinked hl ((hp.made l).2 (hdoes.free l hl).made)⟩, (hp.made pv).2 hpv⟩

/-- A temporary is destroyed. -/
theorem exists_destroyValue (hs : WellFormed x s) (hfree : Free s pv) :
    ∃ t, s.destroyValue pv = some t ∧ Effect x s (· = pv) (fun _ => False) 0 t ∧ Quiet s t ∧
      ∀ l, l ≠ pv → Free s l → Free t l := by
  obtain ⟨u, hclear, hdoes, -⟩ := exists_valueClear hs hfree.made hfree.survives
  have hrun : s.destroyValue pv = some (u.eraseValue pv) := by
    rw [destroyValue, hclear]
    rfl
  have heffect : Effect x s (· = pv) (fun _ => False) 0 (u.eraseValue pv) :=
    (hs.effect_destroyValue hrun hfree.outside).mono (fun _ _ h => h) (fun _ _ h => h.elim) le_rfl
  refine ⟨_, hrun, heffect, .destroyValue hrun, fun l hne hl => ?_⟩
  exact heffect.free hs.toLinked hl ((made_eraseValue u pv l).2 ⟨hne, (hdoes.free l hl).made⟩)

/-! ## Handles -/

/-- The handle keeps the object, and gives back the reference it takes. -/
theorem exists_withHandle {body : ValueHeap → Nat → Option (Bool × ValueHeap)} {Q : Bool → Prop}
    (hs : WellFormed x s) (hp : s.refs.pointee pv = some o)
    (hroom : s.refs.references o + 1 < 2147483648)
    (hbody : ∀ u, Effect x s (fun _ => False) (fun _ => False) 1 u → 0 < u.refs.out o →
      (∀ y, s.refs.heap.alive y ≠ none → u.refs.heap.alive y ≠ none) →
      (∀ l, Free s l → Free u l) →
      ∃ b v, body u o = some (b, v) ∧ Does x u locs objs n v ∧ Q b) :
    ∃ b t, s.withHandle pv body = some (b, t) ∧ Does x s locs objs (1 + n) t ∧ Q b := by
  obtain ⟨ob, hob⟩ := alive_of_pointee hs.sound.exact hp
  obtain ⟨u, hhold, hu, hout, halive, hreferenced, hfree⟩ :=
    @WellFormed.exists_hold x s o (fun _ => False) (fun _ => False) hs (by rw [hob]; simp) hroom
  obtain ⟨b, v, hrun, hv, hb⟩ := hbody u hu (by rw [hout, Function.update_self]; omega) halive hfree
  have hout' : v.refs.out = Function.update s.refs.out o (s.refs.out o + 1) :=
    hv.quiet.out.trans hout
  obtain ⟨t, hletGo, ht, hback, hreferenced', hfree'⟩ :=
    @WellFormed.exists_letGo x v o locs objs hv.wellFormed
      (by rw [hout', Function.update_self]; omega)
  refine ⟨b, t, ?_, ⟨?_, ⟨?_, fun h => hreferenced' (hv.quiet.referenced (hreferenced h))⟩,
    fun l h => hfree' l (hv.free l (hfree l h))⟩, hb⟩
  · simp only [withHandle, hp, hhold, hrun, hletGo, Option.bind_eq_bind, Option.bind_some]
  · have hheld := (hu.mono (fun _ _ h => h.elim) (fun _ _ h => h.elim) le_rfl).trans hv.toEffect
      (fun _ _ h => h) fun _ _ h => h
    exact hheld.trans (m := 0) ht (fun _ _ h => h) fun _ _ h => h
  · rw [hback, hout', Function.update_self, Function.update_idem, Nat.add_sub_cancel,
      Function.update_eq_self]

/-! ## `set` -/

theorem content_of_blank {vt : ValueType} (hs : WellFormed x s) (hmade : s.refs.Made pv)
    (htype : (s.slots pv).type = vt) {c : Content} (hnew : newContent vt = some c) :
    ∃ o, s.refs.pointee pv = some o ∧ (s.contents o).blank = c := by
  have htyped := hs.typed pv hmade
  cases hp : s.refs.pointee pv with
  | none =>
      rw [hp, Option.map_none] at htyped
      have hnone := htyped.1
      rw [htype, hnew] at hnone
      cases hnone
  | some o =>
      rw [hp, Option.map_some] at htyped
      refine ⟨o, rfl, ?_⟩
      rcases htyped.2 with hcontent | ⟨hunknown, -⟩
      · rw [htype, hnew] at hcontent
        exact (Option.some.inj hcontent).symm
      · rw [htype] at hunknown
        rw [hunknown] at hnew
        cases hnew

theorem alive_of_out (hs : WellFormed x s) (hout : 0 < s.refs.out o) :
    ∃ ob, s.refs.heap.alive o = some ob := by
  obtain ⟨ob, hob, hlive⟩ := Balanced.exists_alive hs.sound (o := o)
    (by unfold RefRun.references; omega)
  exact ⟨ob, RefHeap.alive_eq_some_iff.2 ⟨hob, hlive⟩⟩

/-- The strings and the buffer are assigned to the object of the value. -/
theorem exists_setData {vt : ValueType} {c : Content} {ok : Bool}
    {assign : ValueHeap → Nat → Option (Bool × ValueHeap)} (hs : WellFormed x s)
    (hmade : s.refs.Made pv) (hretype : s.Retypes pv vt) (hnew : newContent vt = some c)
    (hroom : ∀ y, s.refs.references y + 2 < 2147483648)
    (hassign : ∀ u o ob, WellFormed x u → u.refs.heap.alive o = some ob →
      (u.contents o).blank = c →
      ∃ v, assign u o = some (ok, v) ∧ Does x u (· = pv) (fun _ => True) 0 v) :
    ∃ t, ((s.valueSetType pv vt).bind fun s => s.withHandle pv assign) = some (ok, t) ∧
      Does x s (· = pv) (fun _ => True) 2 t := by
  obtain ⟨u, hset, hu, hpv, htype⟩ := exists_valueSetType hs hmade hretype
  obtain ⟨o, hp, hblank⟩ := content_of_blank hu.wellFormed hpv htype hnew
  obtain ⟨ob, hob⟩ := alive_of_pointee hu.wellFormed.sound.exact hp
  have hlt := hu.wellFormed.lt_of_alive hob
  have hroom' : u.refs.references o + 1 < 2147483648 := by
    have hle := hu.references o
    have hbound := hroom o
    omega
  obtain ⟨b, t, hrun, ht, hb⟩ := @exists_withHandle x u pv o 0 (· = pv) (fun _ => True) assign
    (· = ok) hu.wellFormed hp hroom' fun v hv hout _ _ => by
      obtain ⟨ob', hob'⟩ := alive_of_out hv.wellFormed hout
      obtain ⟨w, hw, hdoes⟩ := hassign v o ob' hv.wellFormed hob'
        (by rw [hv.contents o hlt id, hblank])
      exact ⟨ok, w, hw, hdoes, rfl⟩
  subst hb
  have hfirst : Does x s (· = pv) (fun _ => True) 1 u :=
    hu.mono (fun _ _ h => h) (fun _ _ _ => trivial) le_rfl
  exact ⟨t, by rw [hset]; exact hrun, hfirst.trans ht (fun _ _ h => h) fun _ _ h => h⟩

theorem eq_stringW_of_blank {c : Content} (hc : c.blank = .stringW []) :
    ∃ str, c = .stringW str := by
  cases c <;> first | exact ⟨_, rfl⟩ | cases hc

theorem eq_stringA_of_blank {c : Content} (hc : c.blank = .stringA []) :
    ∃ str, c = .stringA str := by
  cases c <;> first | exact ⟨_, rfl⟩ | cases hc

theorem eq_buffer_of_blank {c : Content} (hc : c.blank = .buffer []) :
    ∃ bytes, c = .buffer bytes := by
  cases c <;> first | exact ⟨_, rfl⟩ | cases hc

theorem Effect.does_setContent {c : Content} (hs : WellFormed x s)
    (heffect : Effect x s locs objs 0 (s.setContent o c)) :
    Does x s locs objs 0 (s.setContent o c) :=
  ⟨heffect, .setContent s o c, fun l hl =>
    heffect.free hs.toLinked hl ((made_setContent s o c l).2 hl.made)⟩

theorem exists_assignW {ob : RefableImp} (hs : WellFormed x s)
    (hob : s.refs.heap.alive o = some ob) (hblank : (s.contents o).blank = .stringW [])
    (p : Option (List (BitVec 16))) :
    ∃ t, s.assignW o p = some (true, t) ∧ Does x s locs (fun _ => True) 0 t := by
  obtain ⟨str, hstr⟩ := eq_stringW_of_blank hblank
  have hrun : s.assignW o p = some (true, s.setContent o (.stringW (cstr (p.getD [])))) := by
    rw [assignW, content_of_alive hob, hstr]
    rfl
  exact ⟨_, hrun, (((hs.effect_assignW hrun).mono (fun _ _ h => h) (fun _ _ _ => trivial)
    le_rfl).does_setContent hs)⟩

theorem exists_assignA {ob : RefableImp} (hs : WellFormed x s)
    (hob : s.refs.heap.alive o = some ob) (hblank : (s.contents o).blank = .stringA [])
    (p : Option (List Byte)) :
    ∃ t, s.assignA o p = some (true, t) ∧ Does x s locs (fun _ => True) 0 t := by
  obtain ⟨str, hstr⟩ := eq_stringA_of_blank hblank
  have hrun : s.assignA o p = some (true, s.setContent o (.stringA (cstr (p.getD [])))) := by
    rw [assignA, content_of_alive hob, hstr]
    rfl
  exact ⟨_, hrun, (((hs.effect_assignA hrun).mono (fun _ _ h => h) (fun _ _ _ => trivial)
    le_rfl).does_setContent hs)⟩

/-- `valBuffer::assign` refuses a null pointer. -/
theorem exists_assignBuffer {ob : RefableImp} (hs : WellFormed x s)
    (hob : s.refs.heap.alive o = some ob) (hblank : (s.contents o).blank = .buffer [])
    (p : Option (List Byte)) :
    ∃ t, s.assignBuffer o p = some (p.isSome, t) ∧ Does x s locs (fun _ => True) 0 t := by
  obtain ⟨bytes, hbytes⟩ := eq_buffer_of_blank hblank
  cases p with
  | none =>
      refine ⟨s, ?_, .refl hs⟩
      rw [assignBuffer, content_of_alive hob, hbytes]
      rfl
  | some data =>
      have hrun : s.assignBuffer o (some data) = some (true, s.setContent o (.buffer data)) := by
        rw [assignBuffer, content_of_alive hob, hbytes]
        rfl
      exact ⟨_, hrun, (((hs.effect_assignBuffer hrun).mono (fun _ _ h => h)
        (fun _ _ _ => trivial) le_rfl).does_setContent hs)⟩

/-- A value that is to hold a pointer becomes a null pointer first. -/
theorem exists_nullPointer {p : Option Nat} (hs : WellFormed x s) (hmade : s.refs.Made pv)
    (hlegal : (Arg.unknown p).Legal s) (hcareful : (Arg.unknown p).Careful s pv) :
    ∃ t, s.valueSetType pv .dUnknown = some t ∧ Does x s (· = pv) (fun _ => False) 1 t ∧
      t.refs.Made pv ∧ (t.slots pv).type = .dUnknown ∧ t.refs.pointee pv = none ∧
      (Arg.unknown p).Legal t := by
  by_cases htype : (s.slots pv).type = .dUnknown
  · have hempty : s.refs.pointee pv = none := by
      simpa only [Arg.Careful, if_pos htype] using hcareful
    refine ⟨s, ?_, .refl hs, hmade, htype, hempty, hlegal⟩
    unfold valueSetType
    simp only [slot_of_made hmade, Option.bind_eq_bind, Option.bind_some, if_pos htype]
  · have hsafe : s.refs.Survives pv ∧ ∀ o, p = some o → ¬ s.refs.Doomed pv o := by
      simpa only [Arg.Careful, if_neg htype] using hcareful
    obtain ⟨u, hclear, hdoes, hpv⟩ := exists_withType hs hmade hsafe.1 .dUnknown .s8
    have hc := hs.clears hclear
    refine ⟨_, valueSetType_of_ne hmade htype hclear, hdoes, hpv, type_withType u pv _ _, ?_,
      fun o ho => ?_⟩
    · exact (hc.pointee pv hpv).trans (if_pos rfl)
    · obtain ⟨halive, hcontent⟩ := hlegal o ho
      exact ⟨(hc.alive o).2 ⟨halive, hsafe.2 o ho⟩, (congrFun hc.contents o).trans hcontent⟩

/-- The pointer that was null is set, and the object counts it. -/
theorem exists_setUnknown {p : Option Nat} (hs : WellFormed x s) (hmade : s.refs.Made pv)
    (hlegal : (Arg.unknown p).Legal s) (hcareful : (Arg.unknown p).Careful s pv)
    (hroom : ∀ y, s.refs.references y + 2 < 2147483648) :
    ∃ t, s.setUnknown pv p = some (false, t) ∧ Does x s (· = pv) (fun _ => False) 2 t := by
  obtain ⟨u, hset, hu, hpv, htype, hempty, hlegal'⟩ :=
    exists_nullPointer hs hmade hlegal hcareful
  have hzero : (u.slots pv).anyval = 0 := by
    have htyped := hu.wellFormed.typed pv hpv
    rw [hempty] at htyped
    exact htyped.2 htype
  cases p with
  | none =>
      have hsame : u.setPointer pv none = u := by
        have hfind := find_eq_pointee hpv
        rw [hempty] at hfind
        unfold setPointer withHeap
        rw [SortedMap.assign_of_find hfind]
      refine ⟨u, ?_, hu.mono (fun _ _ h => h) (fun _ _ h => h) (by omega)⟩
      rw [setUnknown, hset]
      exact congrArg (fun s => some (false, s)) hsame
  | some o =>
      obtain ⟨halive, hcontent⟩ := hlegal' o rfl
      obtain ⟨ob, hob⟩ := Option.ne_none_iff_exists'.1 halive
      obtain ⟨t, hshare, hp, hexact⟩ := points_share hpv hempty hob
      have hbound : u.refs.references o + 1 < 2147483648 := by
        have hle := hu.references o
        have hlt := hroom o
        omega
      have heffect := hu.wellFormed.effect_points hp
        ⟨hzero, .inr ⟨htype, hcontent⟩⟩ (hexact hu.wellFormed.sound.exact (by omega))
        fun y hy => Option.some.inj hy ▸ hbound
      refine ⟨t, ?_, hu.trans (m := 1) ⟨heffect, .share hshare, fun l hl => ?_⟩ (fun _ _ h => h)
        fun _ _ h => h.elim⟩
      · rw [setUnknown, hset]
        simp only [Option.bind_eq_bind, Option.bind_some, hshare, Option.map_some]
      · exact heffect.free hu.wellFormed.toLinked hl ((hp.made l).2 hl.made)

/-- `set` returns false for null pointers, and for every `IUnknown`. -/
theorem exists_set {arg : Arg} (hs : WellFormed x s) (hmade : s.refs.Made pv)
    (hlegal : arg.Legal s) (hcareful : arg.Careful s pv)
    (hroom : ∀ y, s.refs.references y + 2 < 2147483648) :
    ∃ b t, s.set pv arg = some (b, t) ∧ Does x s (· = pv) (fun _ => True) 2 t ∧
      (arg.Constructs → arg ≠ .block none → b = true) := by
  cases arg with
  | null =>
      obtain ⟨t, hrun, hdoes, -, -⟩ := exists_valueSetType hs hmade hcareful
      refine ⟨true, t, ?_, hdoes.mono (fun _ _ h => h) (fun _ _ _ => trivial) (by omega),
        fun _ _ => rfl⟩
      rw [set, hrun, Option.map_some]
  | integer vs i =>
      obtain ⟨t, hrun, hdoes, -, htype⟩ := exists_valueSetType2 hs hmade hcareful vs
      by_cases hvs : vs = .s16
      · refine ⟨true, t, ?_, hdoes.mono (fun _ _ h => h) (fun _ _ _ => trivial) (by omega),
          fun _ _ => rfl⟩
        simp only [set, setInteger, hrun, Option.bind_eq_bind, Option.bind_some, if_pos hvs]
      · refine ⟨true, t.setSlot pv ⟨.dInt, vs, i⟩, ?_,
          (hdoes.setScalar (v := ⟨.dInt, vs, i⟩) htype rfl nofun).mono (fun _ _ h => h)
            (fun _ _ _ => trivial) (by omega), fun _ _ => rfl⟩
        simp only [set, setInteger, hrun, Option.bind_eq_bind, Option.bind_some, if_neg hvs]
  | real i =>
      obtain ⟨t, hrun, hdoes, -, htype⟩ := exists_valueSetType hs hmade hcareful
      refine ⟨true, t.setSlot pv { t.slots pv with anyval := i }, ?_,
        (hdoes.setScalar (v := { t.slots pv with anyval := i }) rfl (by rw [htype]; rfl)
          (by rw [htype]; nofun)).mono (fun _ _ h => h) (fun _ _ _ => trivial) (by omega),
        fun _ _ => rfl⟩
      rw [set, setReal, hrun]
      rfl
  | wstr p =>
      obtain ⟨t, hrun, hdoes⟩ := exists_setData hs hmade hcareful rfl hroom
        fun u o ob hu hob hblank => exists_assignW hu hob hblank p
      exact ⟨true, t, hrun, hdoes, fun _ _ => rfl⟩
  | lstr p =>
      obtain ⟨t, hrun, hdoes⟩ := exists_setData hs hmade hcareful rfl hroom
        fun u o ob hu hob hblank => exists_assignA hu hob hblank p
      exact ⟨true, t, hrun, hdoes, fun _ _ => rfl⟩
  | block data =>
      obtain ⟨t, hrun, hdoes⟩ := exists_setData hs hmade hcareful rfl hroom
        fun u o ob hu hob hblank => exists_assignBuffer hu hob hblank data
      refine ⟨data.isSome, t, hrun, hdoes, fun _ hne => Option.isSome_iff_ne_none.2 ?_⟩
      rintro rfl
      exact hne rfl
  | value val =>
      obtain ⟨t, hrun, hdoes, -⟩ := exists_valueSet hs hmade hlegal hcareful.1 hcareful.2
        fun y => by have hy := hroom y; omega
      exact ⟨true, t, hrun, hdoes.mono (fun _ _ h => h) (fun _ _ _ => trivial) (by omega),
        fun _ _ => rfl⟩
  | unknown p =>
      obtain ⟨t, hrun, hdoes⟩ := exists_setUnknown hs hmade hlegal hcareful hroom
      exact ⟨false, t, hrun, hdoes.mono (fun _ _ h => h) (fun _ _ _ => trivial) le_rfl,
        fun h => h.elim⟩
  | complex c p =>
      obtain rfl : p = none := hcareful
      exact ⟨false, s, rfl, .refl hs, fun h => h.elim⟩

/-! ## Elements -/

theorem made_of_element {key : Key} {e : Nat} (helement : s.element o key = (e, t))
    (hl : s.refs.Made l) : t.refs.Made l := by
  cases hfind : (s.contents o).elements.find key with
  | some e' =>
      rw [element_of_find hfind] at helement
      cases helement
      exact hl
  | none =>
      rw [element_of_new hfind] at helement
      cases helement
      exact (made_addElement s o key l).2 (.inr hl)

theorem memberOf_element {ob : RefableImp} {key : Key} {e : Nat} (hs : WellFormed x s)
    (hob : s.refs.heap.alive o = some ob) (haccepts : (s.contents o).accepts x key = true)
    (ht : WellFormed x t) (helement : s.element o key = (e, t)) : t.refs.MemberOf e o := by
  cases hfind : (s.contents o).elements.find key with
  | some e' =>
      rw [element_of_find hfind] at helement
      cases helement
      exact (hs.memberOf_iff hob).2 ⟨key, hfind⟩
  | none =>
      rw [element_of_new hfind] at helement
      cases helement
      have hcontent : ((s.addElement o key).contents o).elements =
          (s.contents o).elements.assign key s.next := by
        rw [contents_addElement hob, if_pos rfl]
        exact Content.elements_setElements haccepts _
      obtain ⟨ob', hob'⟩ := Option.ne_none_iff_exists'.1
        (alive_addElement hob key (y := o) (by rw [hob]; simp))
      refine (ht.memberOf_iff hob').2 ⟨key, ?_⟩
      rw [hcontent, SortedMap.find_assign_self]

/-- The handle on the container keeps it while the old element goes. -/
theorem exists_setElement {key : Key} {item : Nat} (hs : WellFormed x s)
    (hout : 0 < s.refs.out o) (hitem : s.refs.Made item)
    (hroom : ∀ y, s.refs.references y + 2 < 2147483648) :
    ∃ b t, s.setElement x o key item = some (b, t) ∧
      Does x s (fun l => (s.contents o).elements.find key.cstr = some l) (fun _ => True) 2 t := by
  obtain ⟨ob, hob⟩ := alive_of_out hs hout
  by_cases haccepts : (s.contents o).accepts x key.cstr = true
  · obtain ⟨a, hassign, ha, hcontents, hmember⟩ := hs.toLinked.copyNew hs.sound.exact hitem
      fun y _ => by have hy := hroom y; omega
    have hea := (hs.effect_temporary hassign hroom).1
    have houta : a.refs.out = s.refs.out := (Quiet.assign hassign).out
    obtain ⟨ob', hob'⟩ := alive_of_out hea.wellFormed (by rw [houta]; exact hout)
    have hacceptsa : (a.contents o).accepts x key.cstr = true := by
      rw [hcontents]
      exact haccepts
    have htmpa : Free a s.next := ⟨(ha.made _).2 (.inl rfl), fun y hin =>
      hs.freshValue s.next le_rfl (hs.made _ y (hmember _ y hin))⟩
    cases helement : a.element o key.cstr with
    | mk e c =>
        obtain ⟨hec, -⟩ :=
          hea.wellFormed.effect_element hob' hacceptsa (Key.cstr_cstr key) helement
        have hin := memberOf_element hea.wellFormed hob' hacceptsa hec.wellFormed helement
        have houtc : c.refs.out = s.refs.out := (Quiet.element helement).out.trans houta
        have hsafe : c.refs.Survives e := by
          intro y hy hdoomed
          rw [hec.wellFormed.home e y o hy hin] at hdoomed
          obtain ⟨home, hzero, -, -, -⟩ := hdoomed
          rw [houtc] at hzero
          omega
        have htmpc : Free c s.next :=
          hec.free hea.wellFormed.toLinked htmpa (made_of_element helement htmpa.made)
        obtain ⟨d, hset, hd, -⟩ := exists_valueSet hec.wellFormed
          (hec.wellFormed.made e o hin) htmpc.made hsafe (htmpc.not_goes e) fun y => by
            have hy := hroom y
            have h1 := hea.references y
            have h2 := hec.references y
            omega
        obtain ⟨f, hdestroy, -, -, hfreef⟩ :=
          exists_destroyValue hd.wellFormed (hd.free _ htmpc)
        have hrun : s.setElement x o key item = some (true, f) := by
          simp only [setElement, content_of_alive hob, haccepts, if_true, hassign, helement,
            assign_of_valueSet hset, hdestroy, Option.bind_eq_bind, Option.bind_some]
        refine ⟨true, f, hrun, (hs.effect_setElement hrun hroom).mono (fun _ _ h => h)
          (fun _ _ _ => trivial) le_rfl, .setElement hrun, fun l hl => ?_⟩
        have hlt := hs.lt_of_made hl.made
        have hla := hea.free hs.toLinked hl ((ha.made l).2 (.inr hl.made))
        have hlc := hec.free hea.wellFormed.toLinked hla (made_of_element helement hla.made)
        exact hfreef l (by omega) (hd.free l hlc)
  · refine ⟨false, s, ?_, .refl hs⟩
    simp only [setElement, content_of_alive hob, haccepts, Option.bind_eq_bind, Option.bind_some]
    rfl

theorem alive_withType (vt : ValueType) (vs : ValueSize) {y : Nat}
    (hy : s.refs.heap.alive y ≠ none) (hne : y ≠ s.next) :
    (s.withType pv vt vs).refs.heap.alive y ≠ none := by
  unfold withType
  split
  · exact hy
  · rename_i c _
    have halive : ((s.setSlot pv ⟨vt, vs, 0⟩).newComplex pv c).refs.heap.alive y =
        s.refs.heap.alive y := RefHeap.alive_setObject.trans (if_neg hne)
    rw [halive]
    exact hy

/-- A pointer that the value did not keep outlives the change of its type. -/
theorem legal_of_valueSetType {vt : ValueType} {p : Option Nat} (hs : WellFormed x s)
    (hrun : s.valueSetType pv vt = some t) (hlegal : (Arg.unknown p).Legal s)
    (hkept : (s.slots pv).type = vt ∨ ∀ o, p = some o → ¬ s.refs.Doomed pv o) :
    (Arg.unknown p).Legal t := by
  intro o ho
  obtain ⟨halive, hcontent⟩ := hlegal o ho
  obtain ⟨ob, hob⟩ := Option.ne_none_iff_exists'.1 halive
  have hlt := hs.lt_of_alive hob
  have hsame := (hs.effect_valueSetType hrun).contents o hlt id
  refine ⟨?_, hsame.trans hcontent⟩
  rcases hkept with htype | hspared
  · obtain ⟨v, hv, hrest⟩ := Option.bind_eq_some_iff.1 hrun
    obtain ⟨-, rfl⟩ := made_of_slot hv
    rw [if_pos htype] at hrest
    cases hrest
    exact halive
  · obtain ⟨-, rfl⟩ | ⟨u, hclear, rfl⟩ := valueSetType_cases hrun
    · exact halive
    · have hc := hs.clears hclear
      exact alive_withType vt .s8 ((hc.alive o).2 ⟨halive, hspared o ho⟩) (by rw [hc.next]; omega)

/-- A new value takes every argument that the condition of an element lets through. -/
theorem exists_setNew {elmt : Arg} (hs : WellFormed x s) (hlegal : elmt.Legal s)
    (hcareful : ∀ c p, elmt = .complex c p → p = none)
    (hroom : ∀ y, s.refs.references y + 2 < 2147483648) :
    ∃ b t, s.newValue.set s.next elmt = some (b, t) ∧
      Does x s (fun _ => False) (fun _ => True) 2 t ∧ Free t s.next ∧
      (elmt.Constructs → elmt ≠ .block none → b = true) := by
  have hnew := hs.newValue
  have hfree : Free s.newValue s.next := Free.next hs.toLinked
  have hempty : s.newValue.refs.pointee s.next = none := by rw [pointee_newValue, if_pos rfl]
  have hspared : ∀ o, ¬ s.newValue.refs.Doomed s.next o := RefRun.not_doomed_of_empty fun o ho => by
    rw [holds_iff, hempty] at ho
    cases ho
  have hlegal' : elmt.Legal s.newValue := by
    cases elmt <;> first | trivial | exact hlegal | exact (made_newValue s _).2 (.inr hlegal)
  have hcareful' : elmt.Careful s.newValue s.next := by
    cases elmt with
    | value val => exact ⟨hfree.survives, fun ⟨o, _, hdoomed⟩ => hspared o hdoomed⟩
    | unknown p =>
        have htype : (s.newValue.slots s.next).type ≠ .dUnknown := by
          rw [slots_newValue, if_pos rfl]
          nofun
        simp only [Arg.Careful, if_neg htype]
        exact ⟨hfree.survives, fun o _ => hspared o⟩
    | complex c p => exact hcareful c p rfl
    | _ => exact .inr hfree.survives
  obtain ⟨b, t, hrun, hdoes, hb⟩ := exists_set hnew hfree.made hlegal' hcareful' fun y => by
    rw [hs.references_newValue]
    exact hroom y
  have hfirst : Does x s (fun _ => False) (fun _ => True) 0 s.newValue :=
    (does_newValue hs).mono (fun _ _ h => h) (fun _ _ h => h.elim) le_rfl
  have hboth := hfirst.trans hdoes (fun l hl heq => by omega) fun _ _ h => h
  rw [Nat.zero_add] at hboth
  exact ⟨b, t, hrun, hboth, hdoes.free _ hfree, hb⟩

/-- The element is set in a new value first, which is copied into the container. -/
theorem exists_setElmt {elmt : Arg} (hs : WellFormed x s) (hout : 0 < s.refs.out o)
    (hlegal : elmt.Legal s) (hcareful : ∀ c p, elmt = .complex c p → p = none) (key : Key)
    (hroom : ∀ y, s.refs.references y + 4 < 2147483648) :
    ∃ b t, s.setElmt x o key elmt = some (b, t) ∧
      Does x s (fun _ => True) (fun _ => True) 4 t := by
  obtain ⟨ok, u, hset, hu, hxo, -⟩ := exists_setNew hs hlegal hcareful fun y => by
    have hy := hroom y
    omega
  have hfirst : Does x s (fun _ => True) (fun _ => True) 2 u :=
    hu.mono (fun _ _ _ => trivial) (fun _ _ h => h) le_rfl
  -- the end of `xo`
  have hend : ∀ (b : Bool) v, Does x s (fun _ => True) (fun _ => True) 4 v → Free v s.next →
      ∃ t, (v.destroyValue s.next).map (b, ·) = some (b, t) ∧
        Does x s (fun _ => True) (fun _ => True) 4 t := by
    intro b v hv hfree
    obtain ⟨t, hrun, ht, hquiet, hkept⟩ := exists_destroyValue hv.wellFormed hfree
    refine ⟨t, by rw [hrun]; rfl, ?_, hv.quiet.trans hquiet, fun l hl => ?_⟩
    · exact hv.toEffect.trans (m := 0) ht (fun _ _ _ => trivial) fun _ _ _ => trivial
    · have hlt := hs.lt_of_made hl.made
      exact hkept l (by omega) (hv.free l hl)
  cases ok with
  | false =>
      obtain ⟨t, hrun, ht⟩ := hend false u
        (hfirst.mono (fun _ _ h => h) (fun _ _ h => h) (by omega)) hxo
      refine ⟨false, t, ?_, ht⟩
      simp only [setElmt, hset, Option.bind_eq_bind, Option.bind_some, hrun]
  | true =>
      obtain ⟨b, v, helement, hv⟩ := @exists_setElement x u o key s.next hu.wellFormed
        (by rw [hu.quiet.out]; exact hout) hxo.made fun y => by
          have hle := hu.references y
          have hy := hroom y
          omega
      obtain ⟨t, hrun, ht⟩ := hend b v
        (hfirst.trans hv (fun _ _ _ => trivial) fun _ _ _ => trivial) (hv.free _ hxo)
      refine ⟨b, t, ?_, ht⟩
      simp only [setElmt, hset, helement, Option.bind_eq_bind, Option.bind_some, hrun]

theorem exists_setCopied {elmt : Arg} {key : Key} (hs : WellFormed x s) (hmade : s.refs.Made pv)
    (hlegal : elmt.Legal s) (hretype : s.Retypes pv key.type)
    (hcareful : elmt.CarefulAt s pv key.type) (htemp : ∀ val, elmt = .value val → Free s val)
    (hroom : ∀ y, s.refs.references y + 6 < 2147483648) :
    ∃ b t, s.setCopied x pv key elmt = some (b, t) ∧
      Does x s (fun _ => True) (fun _ => True) 6 t := by
  obtain ⟨u, hset, hu, hpv, htype⟩ := exists_valueSetType hs hmade hretype
  obtain ⟨c, hnew⟩ : ∃ c, newContent key.type = some c := by
    cases key <;> exact ⟨_, rfl⟩
  obtain ⟨o, hp, -⟩ := content_of_blank hu.wellFormed hpv htype hnew
  have hnull : ∀ c p, elmt = .complex c p → p = none := by
    rintro c p rfl
    exact hcareful
  have hpointer : ∀ p, elmt = .unknown p → (Arg.unknown p).Legal u := by
    rintro p rfl
    exact legal_of_valueSetType hs hset hlegal hcareful
  obtain ⟨b, t, hrun, ht, -⟩ := @exists_withHandle x u pv o 4 (fun _ => True) (fun _ => True)
    (fun s o => s.setElmt x o key elmt) (fun _ => True) hu.wellFormed hp
    (by have hle := hu.references o; have hy := hroom o; omega) fun v hv hout halive hfree => by
      have htempv : ∀ val, elmt = .value val → Free v val := fun val hval =>
        hfree val (hu.free val (htemp val hval))
      have hlegalv : elmt.Legal v := by
        cases elmt with
        | value val => exact (htempv val rfl).made
        | unknown p =>
            intro y hy
            obtain ⟨hya, hyc⟩ := hpointer p rfl y hy
            obtain ⟨ob, hob⟩ := Option.ne_none_iff_exists'.1 hya
            exact ⟨halive y hya, (hv.contents y (hu.wellFormed.lt_of_alive hob) id).trans hyc⟩
        | complex c p =>
            obtain rfl : p = none := hnull c p rfl
            exact nofun
        | _ => trivial
      obtain ⟨b, w, hw, hdoes⟩ := exists_setElmt hv.wellFormed hout hlegalv hnull key
        fun y => by
          have h1 := hu.references y
          have h2 := hv.references y
          have hy := hroom y
          omega
      exact ⟨b, w, hw, hdoes, trivial⟩
  have hfirst : Does x s (fun _ => True) (fun _ => True) 1 u :=
    hu.mono (fun _ _ _ => trivial) (fun _ _ _ => trivial) le_rfl
  refine ⟨b, t, ?_, hfirst.trans ht (fun _ _ h => h) fun _ _ h => h⟩
  rw [setCopied, hset]
  exact hrun

/-- A copy of a value keeps more alive. -/
theorem NewCopy.survives {r : Nat} (h : NewCopy x s r t) (hs : Linked x s)
    (hmember : ∀ l y, t.refs.MemberOf l y → s.refs.MemberOf l y) (hout : t.refs.out = s.refs.out)
    (hpv : s.refs.Made pv) (hsafe : s.refs.Survives pv) : t.refs.Survives pv := by
  have hlt := hs.lt_of_made hpv
  intro y hin hdoomed
  refine hsafe y (hmember pv y hin) (hdoomed.of_more (fun k z hk => ?_) (fun k z hk => ?_) hmember
    fun z => by rw [hout])
  · have hk' := hs.lt_of_made (made_of_pointee (holds_iff.1 hk))
    rw [holds_iff, h.pointee, if_neg (by omega)]
    exact holds_iff.1 hk
  · by_cases heq : k = s.next
    · refine .inr ⟨by omega, fun w hw => ?_⟩
      exact hs.freshValue k (by omega) (hs.made k w (hmember k w hw))
    · rw [holds_iff, h.pointee, if_neg heq] at hk
      exact .inl (holds_iff.2 hk)

theorem exists_setAt {elmt : Arg} {key : Key} (hs : WellFormed x s) (hmade : s.refs.Made pv)
    (hlegal : elmt.Legal s) (hretype : s.Retypes pv key.type)
    (hcareful : elmt.CarefulAt s pv key.type) (hroom : s.HasRoom) :
    ∃ b t, s.setAt x pv key elmt = some (b, t) ∧ WellFormed x t ∧ Quiet s t := by
  have hbound : ∀ n, n ≤ 8 → ∀ y, s.refs.references y + n < 2147483648 := by
    intro n hn y
    have hy := hroom y
    omega
  have hcopied : ∀ elmt : Arg, elmt.Legal s → elmt.CarefulAt s pv key.type →
      (∀ val, elmt ≠ .value val) →
      ∃ b t, s.setCopied x pv key elmt = some (b, t) ∧ WellFormed x t ∧ Quiet s t := by
    intro elmt hlegal hcareful hno
    obtain ⟨b, t, hrun, hdoes⟩ := exists_setCopied hs hmade hlegal hretype hcareful
      (fun val h => absurd h (hno val)) (hbound 6 (by omega))
    exact ⟨b, t, hrun, hdoes.wellFormed, hdoes.quiet⟩
  cases elmt with
  | value val =>
      obtain ⟨a, hassign, ha, -, hmember⟩ := hs.toLinked.copyNew hs.sound.exact hlegal
        fun y _ => by have hy := hbound 1 (by omega) y; omega
      have hea := (hs.effect_temporary hassign (hbound 2 (by omega))).1
      have hquiet : Quiet s.newValue a := .assign hassign
      have hlt := hs.lt_of_made hmade
      have hretype' : a.Retypes pv key.type := by
        refine hretype.imp (fun htype => ?_) fun hsafe =>
          ha.survives hs.toLinked hmember hquiet.out hmade hsafe
        rw [ha.slots, if_neg (by omega)]
        exact htype
      have htmp : Free a s.next := ⟨(ha.made _).2 (.inl rfl), fun y hin =>
        hs.freshValue s.next le_rfl (hs.made _ y (hmember _ y hin))⟩
      obtain ⟨b, u, hset, hu⟩ := @exists_setCopied x a pv (.value s.next) key hea.wellFormed
        ((ha.made pv).2 (.inr hmade)) htmp.made hretype' trivial
        (fun val h => by cases h; exact htmp) fun y => by
          have hle := hea.references y
          have hy := hbound 8 le_rfl y
          omega
      obtain ⟨t, hdestroy, ht, hquiet', -⟩ := exists_destroyValue hu.wellFormed (hu.free _ htmp)
      refine ⟨b, t, ?_, ht.wellFormed, ?_⟩
      · simp only [setAt, hassign, hset, hdestroy, Option.bind_eq_bind, Option.bind_some]
      · have hfirst : Quiet s a := ⟨hquiet.out, hquiet.referenced⟩
        exact (hfirst.trans hu.quiet).trans hquiet'
  | _ => exact hcopied _ hlegal hcareful nofun

/-! ## Constructors -/

theorem exists_construct {arg : Arg} (hs : WellFormed x s) (hconstructs : arg.Constructs)
    (hlegal : arg.Legal s) (hne : arg ≠ .block none) (hroom : s.HasRoom) :
    ∃ t, s.construct arg = some t ∧ WellFormed x t ∧ Quiet s t := by
  obtain ⟨b, t, hset, hdoes, -, hb⟩ := exists_setNew hs hlegal
    (fun c p h => by rw [h] at hconstructs; exact hconstructs.elim) fun y => by
      have hy := hroom y
      omega
  obtain rfl := hb hconstructs hne
  exact ⟨t, by rw [construct, hset]; rfl, hdoes.wellFormed, hdoes.quiet⟩

/-- What owns nothing may as well have been initialised. -/
theorem uninitialized_eq {mem : Slot}
    (h : (newContent mem.type = none ∧ mem.type ≠ .dUnknown) ∨ mem.anyval = 0) :
    s.uninitialized mem = s.newValue.setSlot s.next mem := by
  have hsame : ∀ v, { (s.setPointer s.next none).setSlot s.next v with next := s.next + 1 } =
      s.newValue.setSlot s.next v := by
    intro v
    unfold newValue valueInit setSlot
    simp only [Function.update_idem]
  obtain ⟨vt, vs, anyval⟩ := mem
  cases vt with
  | dNull => exact hsame _
  | dInt => exact hsame _
  | dReal => exact hsame _
  | _ =>
      obtain rfl : anyval = 0 := h.resolve_left fun hscalar => by
        first | exact hscalar.2 rfl | cases hscalar.1
      exact hsame _

/-- Clearing a value without a pointer leaves a null value, whatever its type is. -/
theorem valueClear_setSlot (s : ValueHeap) (mem : Slot) :
    (s.newValue.setSlot s.next mem).valueClear s.next = some s.newValue := by
  have hfind : (s.newValue.setSlot s.next mem).refs.heap.refps.find s.next = some none :=
    SortedMap.find_assign_self ..
  have hslot : (s.newValue.setSlot s.next mem).slot s.next = some mem := by
    rw [slot, hfind, Option.map_some, slots_setSlot, if_pos rfl]
  have hinit : (s.newValue.setSlot s.next mem).valueInit s.next = s.newValue := by
    rw [valueInit_of_find hfind]
    unfold newValue valueInit setSlot
    simp only [Function.update_idem]
  have hdispose : (s.newValue.setSlot s.next mem).refs.heap.dispose s.next =
      some (s.newValue.setSlot s.next mem).refs.heap := by
    unfold RefHeap.dispose
    rw [hfind]
  rw [valueClear, hslot]
  simp only [Option.bind_eq_bind, Option.bind_some, hdispose]
  split <;> exact congrArg some hinit

theorem exists_constructType {mem : Slot} {typ : ValueType} (hs : WellFormed x s)
    (hcareful : (ValueCall.constructType mem typ).Careful s) :
    ∃ t, s.constructType mem typ = some t ∧ WellFormed x t ∧ Quiet s t := by
  have hnew := hs.newValue
  have hmade : s.newValue.refs.Made s.next := (made_newValue s _).2 (.inl rfl)
  have hempty : s.newValue.refs.pointee s.next = none := by rw [pointee_newValue, if_pos rfl]
  have hnull : s.newValue.slots s.next = .null := by rw [slots_newValue, if_pos rfl]
  have hslot : ((s.newValue.setSlot s.next mem).slots s.next).type = mem.type := by
    rw [slots_setSlot, if_pos rfl]
  by_cases htype : mem.type = typ
  · have hnothing : newContent typ = none ∧ (typ = .dUnknown → mem.anyval = 0) := by
      simpa only [ValueCall.Careful, if_pos htype] using hcareful
    have heq : s.uninitialized mem = s.newValue.setSlot s.next mem := uninitialized_eq (by
      by_cases hunknown : mem.type = .dUnknown
      · exact .inr (hnothing.2 (htype ▸ hunknown))
      · exact .inl ⟨htype ▸ hnothing.1, hunknown⟩)
    refine ⟨s.newValue.setSlot s.next mem, ?_, (hnew.effect_setSlot ?_).wellFormed, ⟨rfl, id⟩⟩
    · unfold constructType valueSetType
      have hmade' : (s.newValue.setSlot s.next mem).refs.Made s.next := hmade
      simp only [heq, slot_of_made hmade', Option.bind_eq_bind, Option.bind_some, hslot,
        if_pos htype]
    · rw [hempty]
      exact ⟨htype ▸ hnothing.1, fun h => hnothing.2 (htype ▸ h)⟩
  · have hnothing : (newContent mem.type = none ∧ mem.type ≠ .dUnknown) ∨ mem.anyval = 0 := by
      simpa only [ValueCall.Careful, if_neg htype] using hcareful
    have hclear := valueClear_of_null hnew.toLinked hmade hnull
    refine ⟨s.newValue.withType s.next typ .s8, ?_, ?_, ?_⟩
    · rw [constructType, uninitialized_eq hnothing]
      exact valueSetType_of_ne hmade (hslot ▸ htype) (valueClear_setSlot s mem)
    · exact (hnew.effect_withType typ .s8 hclear).wellFormed
    · have hquiet := Quiet.withType s.newValue s.next typ .s8
      exact ⟨hquiet.out, hquiet.referenced⟩

/-- A constructor that throws leaves its bytes only. -/
theorem wellFormed_of_refs (hs : WellFormed x s) (hrefs : t.refs = s.refs)
    (hcontents : t.contents = s.contents) (hnext : s.next ≤ t.next)
    (hslots : ∀ l, l < s.next → t.slots l = s.slots l) : WellFormed x t := by
  refine ⟨hs.toLinked.of_sub (fun y ob hob => ⟨ob, by rw [← hrefs]; exact hob, rfl⟩) hcontents
    hnext (fun l y hin => ?_) (fun l hl => ?_) (fun l hl => ?_) fun y hy => ?_, ?_⟩
  · rw [hrefs] at hin ⊢
    exact hs.made l y hin
  · rw [hrefs] at hl ⊢
    rw [hslots l (hs.lt_of_made hl)]
    exact hs.typed l hl
  · rw [hrefs]
    exact hs.freshValue l (by omega)
  · rw [hrefs]
    exact hy
  · rw [hrefs]
    exact hs.sound

theorem refs_uninitialized (hs : Linked x s) (mem : Slot) :
    ((s.uninitialized mem).eraseValue s.next).refs = s.refs := by
  have herase : ∀ p, ((s.setPointer s.next p).eraseValue s.next).refs = s.refs := by
    intro p
    have hnone : s.refs.heap.refps.find s.next = none := by
      by_contra hne
      exact hs.freshValue s.next le_rfl hne
    have hmap : (s.refs.heap.refps.assign s.next p).erase s.next = s.refs.heap.refps := by
      rw [SortedMap.erase_assign_self, SortedMap.erase_of_find_eq_none hnone]
    unfold eraseValue setPointer withHeap
    simp only [hmap]
  unfold uninitialized
  split <;> exact herase _

theorem slots_uninitialized (s : ValueHeap) (mem : Slot) {l : Nat} (hl : l < s.next) :
    (s.uninitialized mem).slots l = s.slots l := by
  have hne : l ≠ s.next := by omega
  unfold uninitialized
  split <;> exact Function.update_of_ne hne ..

theorem type_uninitialized (s : ValueHeap) (mem : Slot) :
    ((s.uninitialized mem).slots s.next).type = mem.type := by
  unfold uninitialized
  split
  all_goals
    simp only [setSlot, Function.update_self]

theorem made_uninitialized (s : ValueHeap) (mem : Slot) :
    (s.uninitialized mem).refs.Made s.next := by
  have hfind : ∀ p, (s.refs.heap.refps.assign s.next p).find s.next ≠ none := fun p => by
    rw [SortedMap.find_assign_self]
    exact nofun
  unfold uninitialized
  split <;> exact hfind _

/-- The pointer that lies there is overwritten. -/
theorem setComplex_uninitialized {mem : Slot} {c : ComplexClass} (htype : mem.type = c.type) :
    (s.uninitialized mem).setComplex s.next c (some o) =
      ((s.newValue.setSlot s.next ⟨c.type, mem.bsiz, 0⟩).share s.next o).map (true, ·) := by
  -- whatever was there, `share` assigns the pointer
  have hshare : ∀ p, ({ (s.setPointer s.next p).setSlot s.next { mem with anyval := 0 } with
      next := s.next + 1 } : ValueHeap).share s.next o =
      (s.newValue.setSlot s.next ⟨mem.type, mem.bsiz, 0⟩).share s.next o := by
    intro p
    unfold share newValue valueInit setPointer setSlot withHeap
    simp only [SortedMap.assign_assign, Function.update_idem]
  have hset : (s.uninitialized mem).valueSetType s.next c.type = some (s.uninitialized mem) := by
    unfold valueSetType
    simp only [slot_of_made (made_uninitialized s mem), Option.bind_eq_bind, Option.bind_some,
      type_uninitialized, if_pos htype]
  have hsame : (s.uninitialized mem).share s.next o =
      (s.newValue.setSlot s.next ⟨c.type, mem.bsiz, 0⟩).share s.next o := by
    obtain ⟨vt, vs, anyval⟩ := mem
    obtain rfl : vt = c.type := htype
    cases c <;> exact hshare _
  simp only [setComplex, hset, hsame, Option.bind_eq_bind, Option.bind_some]

theorem exists_constructComplex {mem : Slot} {c : ComplexClass} {p : Option Nat}
    (hs : WellFormed x s) (hlegal : (Arg.complex c p).Legal s)
    (hcareful : p = none ∨ mem.type = c.type) (hroom : s.HasRoom) :
    ∃ t, s.constructComplex mem c p = some t ∧ WellFormed x t ∧ Quiet s t := by
  cases p with
  | none =>
      have hrefs := refs_uninitialized hs.toLinked mem
      refine ⟨(s.uninitialized mem).eraseValue s.next, rfl, wellFormed_of_refs hs hrefs ?_ ?_
        fun l hl => slots_uninitialized s mem hl, by rw [hrefs], fun h => by rw [hrefs]; exact h⟩
      · unfold uninitialized
        split <;> rfl
      · unfold uninitialized
        split <;> exact Nat.le_succ _
  | some o =>
      obtain ⟨halive, hclass⟩ := hlegal o rfl
      obtain ⟨ob, hob⟩ := Option.ne_none_iff_exists'.1 halive
      have htype : mem.type = c.type := hcareful.resolve_left nofun
      have hmade : s.newValue.refs.Made s.next := (made_newValue s _).2 (.inl rfl)
      have hempty : s.newValue.refs.pointee s.next = none := by rw [pointee_newValue, if_pos rfl]
      obtain ⟨t, hshare, hp, hexact⟩ :=
        points_share (s := s.newValue.setSlot s.next ⟨c.type, mem.bsiz, 0⟩) hmade hempty hob
      have hbound : s.newValue.refs.references o + 1 < 2147483648 := by
        rw [hs.references_newValue]
        have ho := hroom o
        omega
      rw [slots_setSlot, if_pos rfl] at hp
      have heffect := hs.newValue.effect_points hp.trans_slot ⟨rfl, .inl hclass⟩
        (hexact hs.newValue.sound.exact (by rw [refs_setSlot]; omega))
        fun y hy => Option.some.inj hy ▸ hbound
      have hquiet := Quiet.share hshare
      refine ⟨t, ?_, heffect.wellFormed, ⟨hquiet.out, hquiet.referenced⟩⟩
      rw [constructComplex, setComplex_uninitialized htype, hshare]
      rfl

end ValueHeap

end Vin64.Xv
