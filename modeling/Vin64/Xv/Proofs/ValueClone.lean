import Vin64.Xv.Proofs.CloneTo

/-!
# Copying values

`ValueClone` clears the destination, gives it a new object and copies the data into that.
-/

namespace Vin64.Xv

open Vin64.Lib Vin64.Utils

namespace ValueHeap

variable {x : Header} {s t u : ValueHeap} {vpIn vpOut o : Nat}

/-! ## The whole copy -/

theorem valueClear_of_null (hs : Linked x s) {pv : Nat} (hmade : s.refs.Made pv)
    (hnull : s.slots pv = .null) : s.valueClear pv = some s := by
  rw [hs.valueClear_of_empty hmade (pointee_of_null hs hmade hnull), setSlot, ← hnull,
    Function.update_eq_self]

theorem Linked.valueSetType2_scalar (hs : Linked x s) {pv : Nat} (hmade : s.refs.Made pv)
    (hnull : s.slots pv = .null) {vt : ValueType} (vs : ValueSize) (hnew : newContent vt = none) :
    s.valueSetType2 pv vt vs = some (s.setSlot pv ⟨vt, vs, 0⟩) := by
  simp only [valueSetType2, slot_of_made hmade, hnull, Option.bind_eq_bind, Option.bind_some,
    valueClear_of_null hs hmade hnull]
  split
  · rename_i heq
    subst heq
    rfl
  · simp only [hnew]

theorem Linked.valueSetType2_complex (hs : Linked x s) {pv : Nat} (hmade : s.refs.Made pv)
    (hnull : s.slots pv = .null) {vt : ValueType} (vs : ValueSize) {c : Content}
    (hnew : newContent vt = some c) :
    s.valueSetType2 pv vt vs = some ((s.setSlot pv ⟨vt, vs, 0⟩).newComplex pv c) := by
  simp only [valueSetType2, slot_of_made hmade, hnull, Option.bind_eq_bind, Option.bind_some,
    valueClear_of_null hs hmade hnull]
  split
  · rename_i heq
    subst heq
    cases hnew
  · simp only [hnew]

/-- What a successful call went through. -/
theorem clear_of_valueClone {b : Bool} (hrun : s.valueClone x vpIn vpOut = some (b, t)) :
    ∃ u, s.valueClear vpOut = some u ∧ u.refs.Made vpIn := by
  obtain ⟨u, hclear, hrest⟩ := Option.bind_eq_some_iff.1 hrun
  obtain ⟨v, hv, -⟩ := Option.bind_eq_some_iff.1 hrest
  exact ⟨u, hclear, (made_of_slot hv).1⟩

/-- Scalars and unknown objects are copied as `ValueSet` does. -/
theorem Linked.valueClone_scalar (hu : Linked x u)
    (he : Exact u.refs.heap.objects u.refs.references) (hclear : s.valueClear vpOut = some u) (hout : u.refs.Made vpOut)
    (hnull : u.slots vpOut = .null) (hin : u.refs.Made vpIn)
    (hnew : newContent (u.slots vpIn).type = none) :
    ∃ t, s.valueClone x vpIn vpOut = some (true, t) ∧
      Points u vpOut (u.slots vpIn) (u.refs.pointee vpIn) t ∧
      ((∀ o, u.refs.pointee vpIn = some o → u.refs.references o + 1 < 4294967296) →
        Exact t.refs.heap.objects t.refs.references) := by
  have htyped := hu.typed vpIn hin
  have hempty := pointee_of_null hu hout hnull
  unfold valueClone
  simp only [hclear, Option.bind_eq_bind, Option.bind_some, slot_of_made hin,
    hu.valueSetType2_scalar hout hnull _ hnew, refs_setSlot]
  generalize u.slots vpIn = v at htyped hnew ⊢
  obtain ⟨vt, vs, anyval⟩ := v
  have hscalar : Points u vpOut ⟨vt, vs, anyval⟩ none
      ((u.setSlot vpOut ⟨vt, vs, 0⟩).setSlot vpOut ⟨vt, vs, anyval⟩) :=
    Points.trans_slot (points_setSlot (s := u.setSlot vpOut ⟨vt, vs, 0⟩) hempty _)
  cases hp : u.refs.pointee vpIn with
  | none =>
      rw [hp] at htyped
      cases vt with
      | dNull => exact ⟨_, rfl, hscalar, fun _ => he⟩
      | dInt => exact ⟨_, rfl, hscalar, fun _ => he⟩
      | dReal => exact ⟨_, rfl, hscalar, fun _ => he⟩
      | dUnknown =>
          obtain rfl : anyval = 0 := htyped.2 rfl
          exact ⟨_, rfl, points_setSlot hempty _, fun _ => he⟩
      | _ => cases hnew
  | some o =>
      rw [hp] at htyped
      have hcontent := htyped.2
      obtain rfl : anyval = 0 := htyped.1
      obtain ⟨ob, hob⟩ := alive_of_pointee he hp
      obtain ⟨t, hshare, hpoints, hexact⟩ :=
        points_share (s := u.setSlot vpOut ⟨vt, vs, 0⟩) hout hempty hob
      rw [slots_setSlot, if_pos rfl] at hpoints
      cases vt with
      | dUnknown =>
          refine ⟨t, ?_, hpoints.trans_slot, fun hroom => hexact he (hroom o rfl)⟩
          simp only [hshare, Option.map_some]
      | dNull => exact hcontent.elim nofun nofun
      | dInt => exact hcontent.elim nofun nofun
      | dReal => exact hcontent.elim nofun nofun
      | _ => cases hnew

/-- Making an object keeps the counts in their range. -/
theorem Creates.wellFormed {pv : Nat} {v : Slot} {c : Content} (hc : Creates s pv v c t)
    (hs : WellFormed x s) (hv : v.Holds (some c)) (helements : c.elements = .empty)
    (hvalid : c.Valid x) : WellFormed x t := by
  refine ⟨hc.linked hs.toLinked hs.sound.exact hv helements hvalid,
    Balanced.of_exact (hc.exact hs.toLinked hs.sound.exact) fun y => ?_⟩
  have hbound := Balanced.refs_lt hs.sound y
  rw [hc.references]
  split
  · rename_i heq
    have hzero : s.refs.references y = 0 := by
      by_contra hne
      exact Balanced.known hs.sound y (Nat.pos_of_ne_zero hne) (heq ▸ hs.freshObject _ le_rfl)
    omega
  · omega

/-- Values with an object are copied to a new one. -/
theorem WellFormed.valueClone_complex (hu : WellFormed x u) (hclear : s.valueClear vpOut = some u)
    (hout : u.refs.Made vpOut) (hnull : u.slots vpOut = .null) (hin : u.refs.Made vpIn)
    (hne : vpIn ≠ vpOut) {c : Content} (hnew : newContent (u.slots vpIn).type = some c) :
    ∃ o w, u.refs.pointee vpIn = some o ∧ (u.contents o).blank = c ∧
      Creates u vpOut (u.slots vpIn) c w ∧ WellFormed x w ∧
      (u.contents o = .buffer [] →
        s.valueClone x vpIn vpOut = (w.valueClear vpOut).map (false, ·)) ∧
      (u.contents o ≠ .buffer [] →
        ∃ t, s.valueClone x vpIn vpOut = some (true, t) ∧ w.cloneTo x o u.next = some (true, t) ∧
          CopyOf w o u.next t) := by
  have htyped := hu.typed vpIn hin
  have hempty := pointee_of_null hu.toLinked hout hnull
  cases hp : u.refs.pointee vpIn with
  | none =>
      rw [hp] at htyped
      have hnone := htyped.1
      rw [hnew] at hnone
      cases hnone
  | some o =>
      rw [hp] at htyped
      obtain ⟨hblank, helements, hknown⟩ := newContent_eq hnew
      have hc : (u.contents o).blank = c := by
        rcases htyped.2 with hcontent | hunknown
        · exact Option.some.inj (hcontent.symm.trans hnew)
        · rw [hunknown.1] at hnew
          cases hnew
      obtain ⟨ob, hob⟩ := alive_of_pointee hu.sound.exact hp
      have hlt := hu.lt_of_alive hob
      have hslot : (⟨(u.slots vpIn).type, (u.slots vpIn).bsiz, 0⟩ : Slot) = u.slots vpIn := by
        have hzero : (u.slots vpIn).anyval = 0 := htyped.1
        rw [← hzero]
      have hcr : Creates u vpOut (u.slots vpIn) c
          ((u.setSlot vpOut (u.slots vpIn)).newComplex vpOut c) :=
        creates_newComplex hout hempty _ c
      generalize hw : (u.setSlot vpOut (u.slots vpIn)).newComplex vpOut c = w at hcr
      have hwf := hcr.wellFormed hu ⟨htyped.1, .inl (by rw [hblank]; exact hnew)⟩ helements
        (newContent_valid hnew)
      have hobw : w.refs.heap.alive o = some ob := by
        rw [hcr.alive, if_neg (by omega)]
        exact hob
      have hpow : w.refs.heap.alive u.next = some ⟨1, c.members, true, false⟩ := by
        rw [hcr.alive, if_pos rfl]
      have hco : w.contents o = u.contents o := by rw [hcr.contents, if_neg (by omega)]
      have hcpo : w.contents u.next = (w.contents o).blank := by
        rw [hcr.contents, if_pos rfl, hco, hc]
      have hpin : w.refs.pointee vpIn = some o := by rw [hcr.pointee, if_neg hne, hp]
      have hpout : w.refs.pointee vpOut = some u.next := by rw [hcr.pointee, if_pos rfl]
      have hsettype : u.valueSetType2 vpOut (u.slots vpIn).type (u.slots vpIn).bsiz = some w := by
        rw [hu.valueSetType2_complex hout hnull _ hnew, hslot, hw]
      have hrun : s.valueClone x vpIn vpOut = (w.cloneTo x o u.next).bind fun r =>
          if r.1 then some (true, r.2) else (r.2.valueClear vpOut).map (false, ·) := by
        simp only [valueClone, hclear, slot_of_made hin, hsettype, hpin, hpout,
          Option.bind_eq_bind, Option.bind_some]
        cases w.cloneTo x o u.next with
        | none =>
            cases htype : (u.slots vpIn).type <;> rw [htype] at hnew <;> first | rfl | cases hnew
        | some r =>
            obtain ⟨b, t⟩ := r
            cases htype : (u.slots vpIn).type <;> rw [htype] at hnew <;>
              first
              | cases hnew; done
              | cases b <;> rfl
      refine ⟨o, w, rfl, hc, hcr, hwf, fun hbuffer => ?_, fun hfull => ?_⟩
      · have hfalse : w.cloneTo x o u.next = some (false, w) := by
          have hbase : w.contents u.next = .buffer [] := by
            rw [hcpo, hco, hbuffer]
            rfl
          simp only [ValueHeap.cloneTo, assignBuffer, content_of_alive hobw, content_of_alive hpow,
            hco, hbuffer, hbase, base, List.isEmpty_nil, Option.bind_eq_bind, Option.bind_some,
            if_true]
        rw [hrun, hfalse]
        rfl
      · have hknown' : w.contents o ≠ .unknown := by
          rw [hco]
          intro heq
          rw [heq] at hc
          exact hknown hc.symm
        obtain ⟨t, hcopy, ht⟩ := hwf.cloneTo hobw hpow hcpo hknown' (by rw [hco]; exact hfull)
        refine ⟨t, ?_, hcopy, ht⟩
        rw [hrun, hcopy]
        rfl

/-! ## What the copy shows -/

/-- Two values that are the same scalar, or hold the same object. -/
structure Twins (s : ValueHeap) (l m : Nat) : Prop where
  slots : s.slots l = s.slots m
  pointee : s.refs.pointee l = s.refs.pointee m

theorem Twins.child {l m : Nat} (htwins : Twins s l m) (key : Key) :
    s.view.child l key = s.view.child m key := view_child_eq htwins.pointee (fun _ _ => rfl) key

theorem Twins.label {l m : Nat} (htwins : Twins s l m) : s.view.label l = s.view.label m :=
  view_label_eq htwins.slots htwins.pointee fun _ _ => rfl

theorem Twins.sameAs {l m : Nat} (htwins : Twins s l m) : s.view.SameAs l s.view m :=
  KeyedGraph.sameAs_of_twins htwins.label htwins.child

/-- `vpOut` has the data of `vpIn` in an object that was not in `s`, and its elements hold the
same objects. -/
structure Cloned (s : ValueHeap) (vpIn vpOut : Nat) (t : ValueHeap) : Prop where
  label : t.view.label vpOut = t.view.label vpIn
  present : ∀ key l, t.view.child vpIn key = some l →
    ∃ e, t.view.child vpOut key = some e ∧ Twins t e l
  absent : ∀ key, t.view.child vpIn key = none → t.view.child vpOut key = none
  fresh : ∀ o, t.own vpOut = some o → s.next ≤ o

theorem Cloned.twin {key : Key} {e : Nat} (hc : Cloned s vpIn vpOut t)
    (hchild : t.view.child vpOut key = some e) :
    ∃ l, t.view.child vpIn key = some l ∧ Twins t e l := by
  cases hl : t.view.child vpIn key with
  | none =>
      rw [hc.absent key hl] at hchild
      cases hchild
  | some l =>
      obtain ⟨e', he', htwins⟩ := hc.present key l hl
      obtain rfl : e' = e := Option.some.inj (he'.symm.trans hchild)
      exact ⟨l, rfl, htwins⟩

theorem Cloned.sameAs (hc : Cloned s vpIn vpOut t) : t.view.SameAs vpOut t.view vpIn := by
  refine KeyedGraph.sameAs_of_children hc.label (fun key hkey => ?_) fun key e hkey => ?_
  · cases hl : t.view.child vpIn key with
    | none => rfl
    | some l =>
        obtain ⟨e, he, -⟩ := hc.present key l hl
        rw [hkey] at he
        cases he
  · obtain ⟨l, hl, htwins⟩ := hc.twin hkey
    exact ⟨l, hl, htwins.sameAs⟩

theorem CopyOf.cloned {po : Nat} (hc : CopyOf u o po t) (hu : WellFormed x u)
    (hne : o ≠ po) (hin : u.refs.pointee vpIn = some o) (hout : u.refs.pointee vpOut = some po)
    (hslots : u.slots vpOut = u.slots vpIn) (hfresh : s.next ≤ po) : Cloned s vpIn vpOut t := by
  have hpin : t.refs.pointee vpIn = some o := (hc.pointee _ (made_of_pointee hin)).trans hin
  have hpout : t.refs.pointee vpOut = some po := (hc.pointee _ (made_of_pointee hout)).trans hout
  have hco : t.contents o = u.contents o := hc.contents o hne
  have hchildIn : ∀ key, t.view.child vpIn key = (u.contents o).elements.find key := by
    intro key
    show (t.refs.pointee vpIn).bind _ = _
    rw [hpin, Option.bind_some, hco]
  have hchildOut : ∀ key, t.view.child vpOut key = (t.contents po).elements.find key := by
    intro key
    show (t.refs.pointee vpOut).bind _ = _
    rw [hpout, Option.bind_some]
  refine ⟨?_, fun key l hkey => ?_, fun key hkey => ?_, fun y hy => ?_⟩
  · show Shown.mk _ _ = Shown.mk _ _
    rw [hpin, hpout, Option.map_some, Option.map_some, hco, hc.surface,
      hc.slots _ (made_of_pointee hin), hc.slots _ (made_of_pointee hout), hslots]
  · rw [hchildIn] at hkey
    obtain ⟨ob, hob⟩ := alive_of_pointee hu.sound.exact hin
    have hl : u.refs.Made l := hu.made l o ((hu.memberOf_iff hob).2 ⟨key, hkey⟩)
    obtain ⟨e, he, hslot, hp⟩ := hc.present key l hkey
    exact ⟨e, by rw [hchildOut, he], hslot.trans (hc.slots l hl).symm,
      hp.trans (hc.pointee l hl).symm⟩
  · rw [hchildOut]
    rw [hchildIn] at hkey
    exact hc.absent key hkey
  · obtain ⟨-, hp⟩ := own_eq_some_iff.1 hy
    rw [hpout] at hp
    cases hp
    exact hfresh

/-- A scalar or an `IUnknown` has no elements and no object of its own. -/
theorem Points.cloned (hp : Points u vpOut (u.slots vpIn) (u.refs.pointee vpIn) t)
    (hu : WellFormed x u) (hin : u.refs.Made vpIn) (hne : vpIn ≠ vpOut)
    (hnew : newContent (u.slots vpIn).type = none) : Cloned s vpIn vpOut t := by
  have htwins : Twins t vpOut vpIn := by
    constructor
    · rw [hp.slots, if_pos rfl, hp.slots, if_neg hne]
    · rw [hp.pointee, if_pos rfl, hp.pointee, if_neg hne]
  have htyped := hu.typed vpIn hin
  have hnone : ∀ key, t.view.child vpIn key = none := by
    intro key
    show (t.refs.pointee vpIn).bind _ = none
    rw [hp.pointee, if_neg hne, hp.contents]
    cases ho : u.refs.pointee vpIn with
    | none => rfl
    | some o =>
        rw [ho] at htyped
        rcases htyped.2 with hcontent | hunknown
        · rw [hnew] at hcontent
          cases hcontent
        · rw [Option.bind_some, hunknown.2]
          rfl
  refine ⟨htwins.label, fun key l hl => ?_, fun key _ => (htwins.child key).trans (hnone key),
    fun o ho => ?_⟩
  · rw [hnone] at hl
    cases hl
  · obtain ⟨hknown, hpo⟩ := own_eq_some_iff.1 ho
    rw [htwins.slots, hp.slots, if_neg hne] at hknown
    rw [htwins.pointee, hp.pointee, if_neg hne,
      hu.pointee_of_scalar hin hnew hknown] at hpo
    cases hpo

/-- The values that there were after the destination was cleared, but for it, are as they were. -/
def Kept (u : ValueHeap) (vpOut : Nat) (t : ValueHeap) : Prop :=
  ∀ l, u.refs.Made l → l ≠ vpOut → t.refs.Made l ∧ t.slots l = u.slots l ∧
    t.refs.pointee l = u.refs.pointee l ∧ ∀ o, u.refs.pointee l = some o →
      t.contents o = u.contents o

/-- What the source held it still holds, if that was not the destination. -/
theorem Clears.unchanged (hc : Clears x s vpOut u) (hkept : Kept u vpOut t)
    (hin : u.refs.Made vpIn) (hfar : ¬ s.view.Reaches vpIn vpOut) : Unchanged s vpIn t := by
  intro i hi
  have hne : ∀ j, s.view.Reaches vpIn j → j ≠ vpOut := by
    rintro j hj rfl
    exact hfar hj
  have hpointee : ∀ j, u.refs.Made j → j ≠ vpOut → u.refs.pointee j = s.refs.pointee j := by
    intro j hj hj'
    rw [hc.pointee j hj, if_neg hj']
  have hmade : u.refs.Made i := by
    refine hi.invariant hin fun j key k hj hmade hchild => ?_
    have hchild' : u.view.child j key = s.view.child j key :=
      view_child_eq (hpointee j hmade (hne j hj)) (fun o _ => by rw [hc.contents]) key
    exact hc.wellFormed.made_child hc.wellFormed.sound.exact (hchild'.trans hchild)
  obtain ⟨hmade', hslot, hp, hcontents⟩ := hkept i hmade (hne i hi)
  rw [hpointee i hmade (hne i hi)] at hp hcontents
  rw [hc.slots, if_neg (hne i hi)] at hslot
  rw [hc.contents] at hcontents
  exact ⟨hmade', hslot, hp, hcontents⟩

theorem WellFormed.valueClone (hs : WellFormed x s) (hclear : s.valueClear vpOut = some u)
    (hin : u.refs.Made vpIn) (hne : vpIn ≠ vpOut)
    (hfull : (u.refs.pointee vpIn).map u.contents ≠ some (.buffer [])) :
    ∃ t, s.valueClone x vpIn vpOut = some (true, t) ∧ Cloned s vpIn vpOut t ∧ Kept u vpOut t := by
  have hc := hs.clears hclear
  have hu := hc.wellFormed
  have hout : u.refs.Made vpOut := (hc.made vpOut).2
    ⟨made_of_valueClear hclear, fun ⟨o, hin, hdoomed⟩ => hc.survives o hin hdoomed⟩
  have hnull : u.slots vpOut = .null := by rw [hc.slots, if_pos rfl]
  cases hnew : newContent (u.slots vpIn).type with
  | none =>
      obtain ⟨t, hrun, hp, -⟩ :=
        hu.valueClone_scalar hu.sound.exact hclear hout hnull hin hnew
      refine ⟨t, hrun, hp.cloned hu hin hne hnew, fun l hl hne' => ⟨(hp.made l).2 hl, ?_, ?_, ?_⟩⟩
      · rw [hp.slots, if_neg hne']
      · rw [hp.pointee, if_neg hne']
      · intro o _
        rw [hp.contents]
  | some c =>
      obtain ⟨o, w, hp, -, hcr, hw, -, hcopy⟩ :=
        hu.valueClone_complex hclear hout hnull hin hne hnew
      rw [hp] at hfull
      obtain ⟨t, hrun, -, ht⟩ := hcopy fun heq => hfull (congrArg some heq)
      obtain ⟨ob, hob⟩ := alive_of_pointee hu.sound.exact hp
      have hlt := hu.lt_of_alive hob
      refine ⟨t, hrun, ht.cloned hw (by omega) ?_ ?_ ?_ hc.next.ge,
        fun l hl hne' => ⟨ht.made l ((hcr.made l).2 hl), ?_, ?_, fun y hy => ?_⟩⟩
      · rw [hcr.pointee, if_neg hne, hp]
      · rw [hcr.pointee, if_pos rfl]
      · rw [hcr.slots, if_pos rfl, hcr.slots, if_neg hne]
      · rw [ht.slots l ((hcr.made l).2 hl), hcr.slots, if_neg hne']
      · rw [ht.pointee l ((hcr.made l).2 hl), hcr.pointee, if_neg hne']
      · obtain ⟨ob', hob'⟩ := alive_of_pointee hu.sound.exact hy
        have hlt' := hu.lt_of_alive hob'
        rw [ht.contents y (by omega), hcr.contents, if_neg (by omega)]

/-- An empty buffer is not copied. -/
theorem WellFormed.full_of_valueClone (hs : WellFormed x s) (hclear : s.valueClear vpOut = some u)
    (hin : u.refs.Made vpIn) (hne : vpIn ≠ vpOut)
    (hrun : s.valueClone x vpIn vpOut = some (true, t)) :
    (u.refs.pointee vpIn).map u.contents ≠ some (.buffer []) := by
  intro hempty
  obtain ⟨o, ho, hbuffer⟩ := Option.map_eq_some_iff.1 hempty
  have hc := hs.clears hclear
  have hout : u.refs.Made vpOut := (hc.made vpOut).2
    ⟨made_of_valueClear hclear, fun ⟨o, hin, hdoomed⟩ => hc.survives o hin hdoomed⟩
  have hnull : u.slots vpOut = .null := by rw [hc.slots, if_pos rfl]
  have htyped := hc.wellFormed.typed vpIn hin
  rw [ho, Option.map_some, hbuffer] at htyped
  have hnew : newContent (u.slots vpIn).type = some (.buffer []) :=
    htyped.2.resolve_right fun h => by cases h.2
  obtain ⟨o', w, ho', -, -, -, hfalse, -⟩ :=
    hc.wellFormed.valueClone_complex hclear hout hnull hin hne hnew
  obtain rfl : o = o' := Option.some.inj (ho.symm.trans ho')
  rw [hfalse hbuffer] at hrun
  obtain ⟨t', -, heq⟩ := Option.map_eq_some_iff.1 hrun
  cases heq

/-- `ValueClone` copies the value exactly where the condition says, and if the value does not hold
the destination, what it holds is as before the call. -/
theorem clones_iff (hs : WellFormed x s) (hin : s.refs.Made vpIn) (hout : s.refs.Made vpOut)
    (hne : vpIn ≠ vpOut) :
    (s.Clones x vpIn vpOut ↔ s.Clonable vpIn vpOut) ∧
      (s.Clonable vpIn vpOut → ¬ s.view.Reaches vpIn vpOut →
        ∃ t, s.valueClone x vpIn vpOut = some (true, t) ∧ t.view.SameAs vpIn s.view vpIn) := by
  have hclones : s.Clonable vpIn vpOut → ∃ u t, Clears x s vpOut u ∧ u.refs.Made vpIn ∧
      s.valueClone x vpIn vpOut = some (true, t) ∧ Cloned s vpIn vpOut t ∧ Kept u vpOut t := by
    rintro ⟨hfull, hsurvives, hspared⟩
    obtain ⟨u, hclear⟩ := (hs.valueClear_iff hout).2 hsurvives
    have hc := hs.clears hclear
    have hin' := (hc.made vpIn).2 ⟨hin, hspared⟩
    have hp : u.refs.pointee vpIn = s.refs.pointee vpIn := by
      rw [hc.pointee vpIn hin', if_neg hne]
    obtain ⟨t, hrun, hcloned, hkept⟩ := hs.valueClone hclear hin' hne
      (by rw [hp, hc.contents]; exact hfull)
    exact ⟨u, t, hc, hin', hrun, hcloned, hkept⟩
  refine ⟨⟨?_, fun h => ?_⟩, fun h hfar => ?_⟩
  · rintro ⟨t, hrun, -⟩
    obtain ⟨u, hclear, hin'⟩ := clear_of_valueClone hrun
    have hc := hs.clears hclear
    have hp : u.refs.pointee vpIn = s.refs.pointee vpIn := by
      rw [hc.pointee vpIn hin', if_neg hne]
    have hfull := hs.full_of_valueClone hclear hin' hne hrun
    rw [hp, hc.contents] at hfull
    exact ⟨hfull, hc.survives, ((hc.made vpIn).1 hin').2⟩
  · obtain ⟨u, t, -, -, hrun, hcloned, -⟩ := hclones h
    exact ⟨t, hrun, hcloned.sameAs⟩
  · obtain ⟨u, t, hc, hin', hrun, -, hkept⟩ := hclones h
    exact ⟨t, hrun, (hc.unchanged hkept hin' hfar).sameAs⟩

theorem sample_clones : (sample.Clones sampleHeader 3 4 ↔ sample.Clonable 3 4) ∧
    (sample.Clonable 3 4 → ¬ sample.view.Reaches 3 4 →
      ∃ t, sample.valueClone sampleHeader 3 4 = some (true, t) ∧
        t.view.SameAs 3 sample.view 3) :=
  clones_iff (sample_wellFormed sampleHeader) (sample_made.2 (by omega))
    (sample_made.2 (by omega)) (by decide)

/-- An empty buffer has no bytes to be assigned. -/
theorem sample_not_clones : ¬ sample.Clones sampleHeader 5 4 := by
  rintro ⟨t, hclone, -⟩
  have hfalse : (sample.valueClone sampleHeader 5 4).map Prod.fst = some false := by
    decide +kernel
  rw [hclone] at hfalse
  cases hfalse

end ValueHeap

end Vin64.Xv
