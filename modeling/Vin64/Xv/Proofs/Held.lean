import Vin64.Xv.Calls
import Vin64.Xv.Proofs.HeapSteps

/-!
# References of the caller

Operations on values leave the references of the caller alone, so a handle keeps its object for
as long as a call runs.
-/

namespace Vin64.Utils.RefHeap

/-- Every object was referenced when it was made. -/
def AllReferenced (heap : RefHeap) : Prop :=
  ∀ o ob, heap.objects o = some ob → ob.referenced = true

variable {heap heap' : RefHeap}

theorem AllReferenced.setObject {ob : RefableImp} (h : heap.AllReferenced)
    (hob : ob.referenced = true) (o : Nat) : (heap.setObject o ob).AllReferenced := by
  intro y ob' hy
  have hy' : Function.update heap.objects o (some ob) y = some ob' := hy
  rw [Function.update_apply] at hy'
  split at hy'
  · cases hy'
    exact hob
  · exact h y ob' hy'

theorem Shrinks.allReferenced (hs : Shrinks heap heap') (h : heap.AllReferenced) :
    heap'.AllReferenced := by
  intro o ob hob
  obtain ⟨r, d, hobjects⟩ := hs.objects o
  obtain ⟨ob', hob', rfl⟩ := Option.map_eq_some_iff.1 (hobjects.symm.trans hob)
  exact h o ob' hob'

theorem AllReferenced.reference {o : Nat} (h : heap.AllReferenced)
    (hrun : heap.reference o = some heap') : heap'.AllReferenced := by
  unfold RefHeap.reference at hrun
  split at hrun
  · cases hrun
  · cases hrun
    exact h.setObject rfl o

theorem AllReferenced.dispose {k : Nat} (h : heap.AllReferenced)
    (hrun : heap.dispose k = some heap') : heap'.AllReferenced := by
  unfold RefHeap.dispose at hrun
  split at hrun
  · cases hrun
  · cases hrun
    exact h
  · obtain ⟨u, hrelease, hrest⟩ := Option.bind_eq_some_iff.1 hrun
    split at hrest
    · cases hrest
    · cases hrest
      exact (Shrinks.release hrelease).allReferenced h

end Vin64.Utils.RefHeap

namespace Vin64.Utils.RefRun

variable {s t : RefRun} {h o : Nat}

/-- Further references doom nothing, unless they are members of something themselves. -/
theorem Doomed.of_more (hheld : ∀ k y, s.Holds k y → t.Holds k y)
    (hnew : ∀ k y, t.Holds k y → s.Holds k y ∨ k ≠ h ∧ ∀ z, ¬ t.MemberOf k z)
    (hmember : ∀ k y, t.MemberOf k y → s.MemberOf k y) (hout : ∀ y, s.out y ≤ t.out y)
    (hdoomed : t.Doomed h o) : s.Doomed h o := by
  induction hdoomed with
  | @mk o home hzero hex hhome _ ih =>
      obtain ⟨k, hk⟩ := hex
      have hheld' : s.Holds k o := by
        rcases hnew k o hk with hk' | ⟨hne, hfree⟩
        · exact hk'
        · exact absurd (hhome k hk hne) (hfree _)
      have hle := hout o
      exact .mk home (by omega) ⟨k, hheld'⟩
        (fun k hk hne => hmember k _ (hhome k (hheld k o hk) hne))
        fun k hk hne => ih k (hheld k o hk) hne

end Vin64.Utils.RefRun

namespace Vin64.Xv

open Vin64.Lib Vin64.Utils

namespace ValueHeap

variable {x : Header} {s t u : ValueHeap} {pv o n : Nat} {locs objs : Nat → Prop}

/-! ## What operations on values leave alone -/

/-- The references of the caller stay, and the objects that come are referenced. -/
structure Quiet (s t : ValueHeap) : Prop where
  out : t.refs.out = s.refs.out
  referenced : s.refs.heap.AllReferenced → t.refs.heap.AllReferenced

namespace Quiet

theorem refl (s : ValueHeap) : Quiet s s := ⟨rfl, id⟩

theorem trans (hst : Quiet s t) (htu : Quiet t u) : Quiet s u :=
  ⟨htu.out.trans hst.out, htu.referenced ∘ hst.referenced⟩

theorem withHeap {heap : RefHeap} (h : s.refs.heap.AllReferenced → heap.AllReferenced) :
    Quiet s (s.withHeap heap) := ⟨rfl, h⟩

theorem setSlot (h : Quiet s t) (pv : Nat) (v : Slot) : Quiet s (t.setSlot pv v) :=
  ⟨h.out, h.referenced⟩

theorem valueClear (hrun : s.valueClear pv = some t) : Quiet s t := by
  obtain ⟨v, -, hrest⟩ := Option.bind_eq_some_iff.1 hrun
  have hscalar : some (s.valueInit pv) = some t → Quiet s t := by
    intro h
    cases h
    exact ⟨rfl, id⟩
  have hdispose : ((s.refs.heap.dispose pv).bind fun heap =>
      some ((s.withHeap heap).valueInit pv)) = some t → Quiet s t := by
    intro h
    obtain ⟨heap, hheap, h⟩ := Option.bind_eq_some_iff.1 h
    cases h
    exact ⟨rfl, fun hs => (hs.dispose hheap : heap.AllReferenced)⟩
  split at hrest
  · exact hscalar hrest
  · exact hscalar hrest
  · exact hscalar hrest
  all_goals exact hdispose hrest

theorem newComplex (s : ValueHeap) (pv : Nat) (c : Content) : Quiet s (s.newComplex pv c) :=
  ⟨rfl, fun hs => hs.setObject rfl s.next⟩

theorem withType (s : ValueHeap) (pv : Nat) (vt : ValueType) (vs : ValueSize) :
    Quiet s (s.withType pv vt vs) := by
  unfold ValueHeap.withType
  split
  · exact (refl s).setSlot ..
  · exact ((refl s).setSlot ..).trans (newComplex ..)

theorem valueSetType2 {vt : ValueType} {vs : ValueSize} (hrun : s.valueSetType2 pv vt vs = some t) :
    Quiet s t := by
  obtain ⟨-, ⟨-, rfl⟩ | ⟨u, hclear, rfl⟩⟩ := valueSetType2_cases hrun
  · exact (refl s).setSlot ..
  · exact (valueClear hclear).trans (withType ..)

theorem valueSetType {vt : ValueType} (hrun : s.valueSetType pv vt = some t) : Quiet s t := by
  obtain ⟨-, rfl⟩ | ⟨u, hclear, rfl⟩ := valueSetType_cases hrun
  · exact refl t
  · exact (valueClear hclear).trans (withType ..)

theorem share (hrun : s.share pv o = some t) : Quiet s t := by
  obtain ⟨heap, hheap, hrest⟩ := Option.bind_eq_some_iff.1 hrun
  cases hrest
  have hset : (s.setPointer pv (some o)).refs.heap.AllReferenced ↔ s.refs.heap.AllReferenced :=
    Iff.rfl
  exact ⟨rfl, fun hs => ((hset.2 hs).reference hheap : heap.AllReferenced)⟩

theorem valueSet {b : Bool} {vpIn vpOut : Nat} (hrun : s.valueSet vpIn vpOut = some (b, t)) :
    Quiet s t := by
  obtain ⟨u, hclear, hrest⟩ := Option.bind_eq_some_iff.1 hrun
  obtain ⟨v, -, hrest⟩ := Option.bind_eq_some_iff.1 hrest
  refine (valueClear hclear).trans ?_
  have hshare : ∀ o, ((u.setSlot vpOut ⟨v.type, v.bsiz, 0⟩).share vpOut o).map (true, ·) =
      some (b, t) → Quiet u t := by
    intro o h
    obtain ⟨w, hw, h⟩ := Option.map_eq_some_iff.1 h
    cases h
    exact ((refl u).setSlot ..).trans (share hw)
  split at hrest
  · cases hrest
    exact ((refl u).setSlot ..).setSlot ..
  · cases hrest
    exact ((refl u).setSlot ..).setSlot ..
  · cases hrest
    exact ((refl u).setSlot ..).setSlot ..
  all_goals
    simp only [refs_setSlot] at hrest
    split at hrest
    · cases hrest
      exact (refl u).setSlot ..
    · exact hshare _ hrest

theorem assign {r : Nat} (hrun : s.assign r pv = some t) : Quiet s t := by
  obtain ⟨⟨b, u⟩, hset, hrest⟩ := Option.bind_eq_some_iff.1 hrun
  cases b with
  | false => cases hrest
  | true =>
      cases hrest
      exact valueSet hset

theorem destroyValue (hrun : s.destroyValue pv = some t) : Quiet s t := by
  obtain ⟨u, hclear, hrest⟩ := Option.bind_eq_some_iff.1 hrun
  cases hrest
  have hquiet := valueClear hclear
  exact ⟨hquiet.out, hquiet.referenced⟩

theorem setContent (s : ValueHeap) (o : Nat) (c : Content) : Quiet s (s.setContent o c) := by
  refine ⟨out_setContent s o c, fun hs => ?_⟩
  unfold ValueHeap.setContent
  split
  · exact hs
  · rename_i ob hob
    have hkept := @RefHeap.AllReferenced.setObject _ { ob with members := c.members } hs
      (hs o ob hob) o
    exact hkept

theorem element {key : Key} {e : Nat} (helement : s.element o key = (e, t)) : Quiet s t := by
  unfold ValueHeap.element at helement
  split at helement
  · cases helement
    exact refl s
  · cases helement
    have hset := setContent s.newValue o
      ((s.contents o).setElements ((s.contents o).elements.assign key s.next))
    exact ⟨hset.out, hset.referenced⟩

theorem setElement {b : Bool} {key : Key} {item : Nat}
    (hrun : s.setElement x o key item = some (b, t)) : Quiet s t := by
  obtain ⟨c, -, hrest⟩ := Option.bind_eq_some_iff.1 hrun
  split at hrest
  · obtain ⟨a, hassign, hrest⟩ := Option.bind_eq_some_iff.1 hrest
    have htmp : Quiet s a := ⟨(assign hassign).out, (assign hassign).referenced⟩
    cases helement : a.element o key.cstr with
    | mk e c =>
        simp only [helement] at hrest
        obtain ⟨d, hset, hrest⟩ := Option.bind_eq_some_iff.1 hrest
        obtain ⟨f, hdestroy, hrest⟩ := Option.bind_eq_some_iff.1 hrest
        cases hrest
        exact ((htmp.trans (element helement)).trans (assign hset)).trans (destroyValue hdestroy)
  · cases hrest
    exact refl s

end Quiet

/-! ## Values that are no elements -/

/-- A value that nothing but its own destructor destroys. -/
structure Free (s : ValueHeap) (l : Nat) : Prop where
  made : s.refs.Made l
  outside : ∀ o, ¬ s.refs.MemberOf l o

variable {l : Nat}

theorem Effect.free (h : Effect x s locs objs n t) (hs : Linked x s) (hfree : Free s l)
    (hmade : t.refs.Made l) : Free t l :=
  ⟨hmade, fun y hin => hfree.outside y (h.member l y (hs.lt_of_made hfree.made) hin)⟩

namespace Free

theorem survives (h : Free s l) : s.refs.Survives l := fun o hin => absurd hin (h.outside o)

theorem not_goes (h : Free s l) (pv : Nat) : ¬ s.refs.Goes pv l := fun ⟨o, hin, _⟩ =>
  h.outside o hin

theorem newValue (h : Free s l) : Free s.newValue l :=
  ⟨(made_newValue s l).2 (.inr h.made), h.outside⟩

theorem next (hs : Linked x s) : Free s.newValue s.next :=
  ⟨(made_newValue s _).2 (.inl rfl), fun o hin => hs.freshValue s.next le_rfl (hs.made _ o hin)⟩

theorem valueClear (h : Free s l) (hs : WellFormed x s) (hrun : s.valueClear pv = some t) :
    Free t l :=
  (hs.effect_valueClear hrun).free hs.toLinked h
    (((hs.clears hrun).made l).2 ⟨h.made, h.not_goes pv⟩)

end Free

/-! ## The caller takes and gives back references -/

theorem WellFormed.exists_hold (hs : WellFormed x s) (halive : s.refs.heap.alive o ≠ none)
    (hroom : s.refs.references o + 1 < 2147483648) :
    ∃ t, s.hold o = some t ∧ Effect x s locs objs 1 t ∧
      t.refs.out = Function.update s.refs.out o (s.refs.out o + 1) ∧
      (∀ y, s.refs.heap.alive y ≠ none → t.refs.heap.alive y ≠ none) ∧
      (s.refs.heap.AllReferenced → t.refs.heap.AllReferenced) ∧ ∀ l, Free s l → Free t l := by
  obtain ⟨ob, hob⟩ := Option.ne_none_iff_exists'.1 halive
  obtain ⟨hmem, hlive⟩ := RefHeap.alive_eq_some_iff.1 hob
  let ob' : RefableImp := { ob with refCount := ob.refCount + 1, referenced := true }
  have hrun : s.refs.heap.reference o = some (s.refs.heap.setObject o ob') := by
    rw [RefHeap.reference, hob]
  have halive' : ∀ y, (s.refs.heap.setObject o ob').alive y =
      if y = o then some ob' else s.refs.heap.alive y :=
    @RefHeap.alive_setObject_live ob' hlive s.refs.heap o
  let t : ValueHeap := { s with refs := ⟨s.refs.heap.setObject o ob',
    RefRun.giveOut s.refs.out (some o)⟩ }
  have hrefs : ∀ y, t.refs.references y =
      Function.update s.refs.references o (s.refs.references o + 1) y := by
    intro y
    have hout : t.refs.references y = s.refs.heap.refps.count (some y) +
        Function.update s.refs.out o (s.refs.out o + 1) y := rfl
    rw [hout]
    by_cases hy : y = o
    · rw [hy, Function.update_self, Function.update_self]
      rfl
    · rw [Function.update_of_ne hy, Function.update_of_ne hy]
      rfl
  have hsub : ∀ y ob'', t.refs.heap.alive y = some ob'' →
      ∃ ob₀, s.refs.heap.alive y = some ob₀ ∧ ob''.members = ob₀.members := by
    intro y ob'' hy
    have hy' := (halive' y).symm.trans hy
    split at hy'
    · rename_i heq
      cases hy'
      exact ⟨ob, heq ▸ hob, rfl⟩
    · exact ⟨ob'', hy', rfl⟩
  have hmember : ∀ l y, t.refs.MemberOf l y → s.refs.MemberOf l y := by
    rintro l y ⟨ob'', hy, hin⟩
    obtain ⟨ob₀, hob₀, heq⟩ := hsub y ob'' hy
    exact ⟨ob₀, hob₀, heq ▸ hin⟩
  have hlinked : Linked x t := by
    refine hs.toLinked.of_sub hsub rfl le_rfl (fun l y hin => hs.made l y (hmember l y hin))
      hs.typed hs.freshValue fun y hy => ?_
    have hne : y ≠ o := by
      rintro rfl
      rw [hmem] at hy
      cases hy
    exact (Function.update_of_ne hne ..).trans hy
  refine ⟨t, by rw [hold, hrun]; rfl, ⟨⟨hlinked, ?_⟩, le_rfl, fun _ _ h => h,
    fun l y _ hin => hmember l y hin, fun _ _ _ _ => rfl, fun _ _ _ _ => rfl, fun _ _ _ => rfl,
    fun y => ?_⟩, rfl, fun y hy => ?_,
    fun h => (h.reference hrun : (s.refs.heap.setObject o ob').AllReferenced),
    fun l h => ⟨h.made, fun y hin => h.outside y (hmember l y hin)⟩⟩
  · exact (Balanced.reference hs.sound hmem hlive hroom).congr fun y => (hrefs y).symm
  · rw [hrefs]
    by_cases hy : y = o
    · rw [hy, Function.update_self]
    · rw [Function.update_of_ne hy]
      exact Nat.le_add_right ..
  · rw [show t.refs.heap.alive y = _ from halive' y]
    split
    · simp
    · exact hy

/-- The reference that the caller gives back may be the last one. -/
theorem WellFormed.exists_letGo (hs : WellFormed x s) (hout : 0 < s.refs.out o) :
    ∃ t, s.letGo o = some t ∧ Effect x s locs objs 0 t ∧
      t.refs.out = Function.update s.refs.out o (s.refs.out o - 1) ∧
      (s.refs.heap.AllReferenced → t.refs.heap.AllReferenced) ∧ ∀ l, Free s l → Free t l := by
  let out' := Function.update s.refs.out o (s.refs.out o - 1)
  have howed : Balanced s.refs.heap.objects fun y =>
      s.refs.heap.refps.count (some y) + out' y + [o].count y := by
    refine Balanced.congr hs.sound fun y => ?_
    unfold RefRun.references
    by_cases hy : y = o
    · subst hy
      simp only [out', Function.update_self, List.count_singleton_self]
      omega
    · simp only [out', Function.update_of_ne hy, List.count_singleton, beq_iff_eq]
      rw [if_neg (Ne.symm hy), Nat.add_zero]
  obtain ⟨heap, hrun, hbalanced⟩ := RefHeap.exists_release howed
  have hshrinks := RefHeap.Shrinks.release hrun
  let t : ValueHeap := { s with refs := ⟨heap, out'⟩ }
  have hmember : ∀ l y, t.refs.MemberOf l y → s.refs.MemberOf l y := by
    rintro l y ⟨ob, hob, hin⟩
    obtain ⟨ob', hob', heq⟩ := hshrinks.alive hob
    exact ⟨ob', hob', heq ▸ hin⟩
  have hmade : ∀ l, t.refs.Made l → s.refs.Made l := fun l hl hnone => hl (hshrinks.missing hnone)
  have hfind : ∀ l, t.refs.Made l → heap.refps.find l = s.refs.heap.refps.find l := by
    intro l hl
    obtain ⟨v, hv⟩ := Option.ne_none_iff_exists'.1 hl
    exact hv.trans (hshrinks.handles l v hv).symm
  have hpointee : ∀ l, t.refs.Made l → t.refs.pointee l = s.refs.pointee l := fun l hl =>
    congrArg Option.join (hfind l hl)
  have hlinked : Linked x t := by
    refine hs.toLinked.of_sub (fun y ob hob => hshrinks.alive hob) rfl le_rfl (fun l y hin => ?_)
      (fun l hl => ?_) (fun l hl hl' => hs.freshValue l hl (hmade l hl')) fun y hy => ?_
    · -- an element goes only with its container
      intro hnone
      obtain ⟨v, hv⟩ := made_iff.1 (hs.made l y (hmember l y hin))
      obtain ⟨y', ob, hob, hin', hdead⟩ := hshrinks.gone l v hv hnone
      obtain rfl := hs.home l y y' (hmember l y hin) ⟨ob, hob, hin'⟩
      obtain ⟨ob', hob', -⟩ := hin
      rw [show heap.alive y = some ob' from hob'] at hdead
      cases hdead
    · rw [hpointee l hl]
      exact hs.typed l (hmade l hl)
    · obtain ⟨r, d, hobjects⟩ := hshrinks.objects y
      rw [hy] at hobjects
      exact hobjects
  refine ⟨t, by rw [letGo, hrun]; rfl, ⟨⟨hlinked, hbalanced⟩, le_rfl, fun l _ hl => hmade l hl,
    fun l y _ hin => hmember l y hin, fun l _ _ hl => hpointee l hl, fun _ _ _ _ => rfl,
    fun _ _ _ => rfl, fun y => ?_⟩, rfl, fun h => hshrinks.allReferenced h, fun l h => ⟨?_, ?_⟩⟩
  · have hle : heap.refps.count (some y) ≤ s.refs.heap.refps.count (some y) :=
      SortedMap.count_le_of_find _ fun l v hv => hshrinks.handles l v hv
    have hout' : out' y ≤ s.refs.out y := by
      by_cases hy : y = o
      · simp only [out', hy, Function.update_self]
        omega
      · simp only [out', Function.update_of_ne hy]
        exact le_rfl
    have hsum : heap.refps.count (some y) + out' y ≤ s.refs.references y :=
      Nat.add_le_add hle hout'
    exact hsum
  · intro hnone
    obtain ⟨v, hv⟩ := made_iff.1 h.made
    obtain ⟨y, ob, hob, hin, -⟩ := hshrinks.gone l v hv hnone
    exact h.outside y ⟨ob, hob, hin⟩
  · exact fun y hin => h.outside y (hmember l y hin)

/-- A new object that only the caller refers to. -/
theorem WellFormed.newObject (hs : WellFormed x s) {c : Content} (helements : c.elements = .empty)
    (hvalid : c.Valid x) : WellFormed x (s.newObject c) := by
  have hcontents : ∀ o, (s.newObject c).contents o = if o = s.next then c else s.contents o :=
    fun o => Function.update_apply ..
  refine ⟨hs.toLinked.of_new helements hvalid hcontents rfl (fun o => RefHeap.alive_setObject)
    (fun o ho => Function.update_of_ne ho ..) (fun l => Iff.rfl) fun l hl =>
      hs.toLinked.typed_of_new hs.sound.exact hcontents hl, ?_⟩
  have hnew := hs.sound.exact.create (hs.freshObject s.next le_rfl) c.members
  have hrefs : ∀ y, (s.newObject c).refs.references y =
      s.refs.references y + if s.next = y then 1 else 0 := by
    intro y
    have hout : (s.newObject c).refs.references y = s.refs.heap.refps.count (some y) +
        Function.update s.refs.out s.next (s.refs.out s.next + 1) y := rfl
    rw [hout]
    unfold RefRun.references
    by_cases hy : y = s.next
    · rw [hy, Function.update_self, if_pos rfl]
      omega
    · rw [Function.update_of_ne hy, if_neg (Ne.symm hy)]
      omega
  refine Balanced.of_exact (hnew.congr fun y => (hrefs y).symm) fun y => ?_
  rw [hrefs]
  have hbound := Balanced.refs_lt hs.sound y
  split
  · rename_i heq
    have hnone := hs.freshObject s.next le_rfl
    have hzero : s.refs.references y = 0 := by
      by_contra hne
      exact hs.sound.known y (Nat.pos_of_ne_zero hne) (heq ▸ hnone)
    omega
  · omega

end ValueHeap

end Vin64.Xv
