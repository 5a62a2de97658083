import Vin64.Xv.Proofs.ValueClone

/-!
# What an operation leaves alone

An operation changes the values it writes, the data of the object it is on, and what it makes.
Whatever else goes with a reference is gone as a whole.
-/

namespace Vin64.Xv

open Vin64.Lib Vin64.Utils

namespace ValueHeap

variable {x : Header} {s t u : ValueHeap} {pv o n m : Nat} {locs objs locs' objs' : Nat → Prop}

/-- The heap stays well formed, and of the values and objects that there were only those in `locs`
and `objs` change; an object gets at most `n` references. -/
structure Effect (x : Header) (s : ValueHeap) (locs objs : Nat → Prop) (n : Nat) (t : ValueHeap) :
    Prop where
  wellFormed : WellFormed x t
  next : s.next ≤ t.next
  made : ∀ l, l < s.next → t.refs.Made l → s.refs.Made l
  member : ∀ l y, l < s.next → t.refs.MemberOf l y → s.refs.MemberOf l y
  pointee : ∀ l, l < s.next → ¬ locs l → t.refs.Made l → t.refs.pointee l = s.refs.pointee l
  slots : ∀ l, l < s.next → ¬ locs l → t.refs.Made l → t.slots l = s.slots l
  contents : ∀ y, y < s.next → ¬ objs y → t.contents y = s.contents y
  references : ∀ y, t.refs.references y ≤ s.refs.references y + n

theorem Effect.refl (hs : WellFormed x s) : Effect x s locs objs n s where
  wellFormed := hs
  next := le_rfl
  made _ _ h := h
  member _ _ _ h := h
  pointee _ _ _ _ := rfl
  slots _ _ _ _ := rfl
  contents _ _ _ := rfl
  references _ := Nat.le_add_right ..

theorem Effect.trans (hst : Effect x s locs objs n t) (htu : Effect x t locs' objs' m u)
    (hlocs : ∀ l, l < s.next → locs' l → locs l) (hobjs : ∀ y, y < s.next → objs' y → objs y) :
    Effect x s locs objs (n + m) u where
  wellFormed := htu.wellFormed
  next := hst.next.trans htu.next
  made l hl hmade := hst.made l hl (htu.made l (hl.trans_le hst.next) hmade)
  member l y hl hin := hst.member l y hl (htu.member l y (hl.trans_le hst.next) hin)
  pointee l hl hnot hmade := by
    have hl' := hl.trans_le hst.next
    rw [htu.pointee l hl' (fun h => hnot (hlocs l hl h)) hmade]
    exact hst.pointee l hl hnot (htu.made l hl' hmade)
  slots l hl hnot hmade := by
    have hl' := hl.trans_le hst.next
    rw [htu.slots l hl' (fun h => hnot (hlocs l hl h)) hmade]
    exact hst.slots l hl hnot (htu.made l hl' hmade)
  contents y hy hnot := by
    rw [htu.contents y (hy.trans_le hst.next) fun h => hnot (hobjs y hy h)]
    exact hst.contents y hy hnot
  references y := by
    have hst' := hst.references y
    have htu' := htu.references y
    omega

theorem Effect.mono (hst : Effect x s locs objs n t) (hlocs : ∀ l, l < s.next → locs l → locs' l)
    (hobjs : ∀ y, y < s.next → objs y → objs' y) (hn : n ≤ m) : Effect x s locs' objs' m t where
  wellFormed := hst.wellFormed
  next := hst.next
  made := hst.made
  member := hst.member
  pointee l hl hnot := hst.pointee l hl fun h => hnot (hlocs l hl h)
  slots l hl hnot := hst.slots l hl fun h => hnot (hlocs l hl h)
  contents y hy hnot := hst.contents y hy fun h => hnot (hobjs y hy h)
  references y := (hst.references y).trans (by omega)

/-! ## The changes -/

theorem WellFormed.effect_valueClear (hs : WellFormed x s) (hrun : s.valueClear pv = some t) :
    Effect x s (· = pv) (fun _ => False) 0 t := by
  have hc := hs.clears hrun
  refine ⟨hc.wellFormed, hc.next.ge, fun l _ hl => ((hc.made l).1 hl).1, fun l y _ hin => ?_,
    fun l _ hne hl => ?_, fun l _ hne _ => ?_, fun y _ _ => by rw [hc.contents], hc.references⟩
  · obtain ⟨ob, hob, -⟩ := id hin
    have halive := ((hc.alive y).1 (by rw [hob]; simp)).1
    obtain ⟨ob', hob'⟩ := Option.ne_none_iff_exists'.1 halive
    obtain ⟨key, hkey⟩ := (hc.wellFormed.memberOf_iff hob).1 hin
    rw [hc.contents] at hkey
    exact (hs.memberOf_iff hob').2 ⟨key, hkey⟩
  · rw [hc.pointee l hl, if_neg hne]
  · rw [hc.slots, if_neg hne]

theorem WellFormed.newValue (hs : WellFormed x s) : WellFormed x s.newValue where
  toLinked := hs.toLinked.newValue
  sound := Balanced.congr hs.sound fun o => (hs.references_newValue o).symm

theorem WellFormed.effect_newValue (hs : WellFormed x s) :
    Effect x s (fun _ => False) (fun _ => False) 0 s.newValue := by
  refine ⟨hs.newValue, Nat.le_succ _, fun l hl hmade => ?_, fun _ _ _ h => h, fun l hl _ _ => ?_,
    fun l hl _ _ => ?_, fun _ _ _ => rfl, fun y => ?_⟩
  · rcases (made_newValue s l).1 hmade with heq | hmade
    · omega
    · exact hmade
  · rw [pointee_newValue, if_neg (by omega)]
  · rw [slots_newValue, if_neg (by omega)]
  · rw [hs.references_newValue]
    exact Nat.le_add_right ..

theorem WellFormed.effect_points {v : Slot} {p : Option Nat} (hs : WellFormed x s)
    (hp : Points s pv v p t) (hv : v.Holds (p.map s.contents))
    (he : Exact t.refs.heap.objects t.refs.references)
    (hroom : ∀ y, p = some y → s.refs.references y + 1 < 2147483648) :
    Effect x s (· = pv) (fun _ => False) 1 t := by
  refine ⟨⟨hp.linked hs.toLinked hv, Balanced.of_exact he fun y => ?_⟩, hp.next.ge,
    fun l _ hl => (hp.made l).1 hl, fun _ _ _ hin => hp.memberOf hin, fun l _ hne _ => ?_,
    fun l _ hne _ => ?_, fun y _ _ => by rw [hp.contents], fun y => ?_⟩
  · have hbound := Balanced.refs_lt hs.sound y
    rw [hp.references]
    split
    · rename_i heq
      exact hroom y heq
    · exact hbound
  · rw [hp.pointee, if_neg hne]
  · rw [hp.slots, if_neg hne]
  · rw [hp.references]
    split <;> omega

theorem Creates.effect {v : Slot} {c : Content} (hc : Creates s pv v c t) (hw : WellFormed x t)
    (helements : c.elements = .empty) : Effect x s (· = pv) (fun _ => False) 1 t := by
  refine ⟨hw, by rw [hc.next]; omega, fun l _ hl => (hc.made l).1 hl, fun l y _ hin => ?_,
    fun l _ hne _ => ?_, fun l _ hne _ => ?_, fun y hy _ => ?_, fun y => ?_⟩
  · obtain ⟨ob, hob, hin⟩ := hin
    rw [hc.alive] at hob
    split at hob
    · cases hob
      obtain ⟨key, hkey⟩ := Content.mem_members.1 hin
      rw [helements] at hkey
      cases hkey
    · exact ⟨ob, hob, hin⟩
  · rw [hc.pointee, if_neg hne]
  · rw [hc.slots, if_neg hne]
  · rw [hc.contents, if_neg (by omega)]
  · rw [hc.references]
    split <;> omega

theorem WellFormed.effect_setSlot (hs : WellFormed x s) {v : Slot}
    (hv : v.Holds ((s.refs.pointee pv).map s.contents)) :
    Effect x s (· = pv) (fun _ => False) 0 (s.setSlot pv v) := by
  refine ⟨⟨hs.toLinked.setSlot hv, hs.sound⟩, le_rfl, fun _ _ h => h, fun _ _ _ h => h,
    fun _ _ _ _ => rfl, fun l _ hne _ => ?_, fun _ _ _ => rfl, fun _ => le_rfl⟩
  rw [slots_setSlot, if_neg hne]

/-- New data without new elements. -/
theorem WellFormed.effect_setContent (hs : WellFormed x s) {ob : RefableImp}
    (hob : s.refs.heap.alive o = some ob) {c : Content} (hblank : c.blank = (s.contents o).blank)
    (hvalid : c.Valid x) (hnodup : c.members.Nodup)
    (hmembers : ∀ l ∈ c.members, s.refs.MemberOf l o) :
    Effect x s (fun _ => False) (· = o) 0 (s.setContent o c) := by
  refine ⟨⟨hs.toLinked.setContent hob hblank hvalid hnodup fun l hl =>
      ⟨hs.made l o (hmembers l hl), fun o' hin => hs.home l o' o hin (hmembers l hl)⟩, ?_⟩,
    by rw [next_setContent], fun l _ hl => (made_setContent s o c l).1 hl, fun l y _ hin => ?_,
    fun l _ _ _ => pointee_setContent s o c l, fun _ _ _ _ => by rw [slots_setContent],
    fun y _ hne => ?_, fun y => ?_⟩
  · refine Balanced.of_exact (exact_setContent hob c hs.sound.exact) fun y => ?_
    rw [references_setContent]
    exact Balanced.refs_lt hs.sound y
  · obtain ⟨ob', hob', hin⟩ := hin
    rw [alive_setContent hob] at hob'
    split at hob'
    · rename_i heq
      cases hob'
      exact heq ▸ hmembers l hin
    · exact ⟨ob', hob', hin⟩
  · rw [contents_setContent hob, if_neg hne]
  · rw [references_setContent]
    exact le_rfl

theorem WellFormed.effect_eraseValue (hs : WellFormed x s) (hempty : s.refs.pointee pv = none)
    (hfree : ∀ y, ¬ s.refs.MemberOf pv y) :
    Effect x s (fun _ => False) (fun _ => False) 0 (s.eraseValue pv) := by
  have hrefs := references_eraseValue hempty
  refine ⟨⟨hs.toLinked.eraseValue hfree, ?_⟩, le_rfl,
    fun l _ hl => ((made_eraseValue s pv l).1 hl).2, fun _ _ _ h => h, fun l _ _ hl => ?_,
    fun _ _ _ _ => rfl, fun _ _ _ => rfl, fun y => ?_⟩
  · rw [hrefs]
    exact hs.sound
  · exact pointee_eraseValue s ((made_eraseValue s pv l).1 hl).1
  · rw [hrefs]
    exact le_rfl

theorem WellFormed.effect_destroyValue (hs : WellFormed x s) (hrun : s.destroyValue pv = some t)
    (hfree : ∀ y, ¬ s.refs.MemberOf pv y) : Effect x s (· = pv) (fun _ => False) 0 t := by
  obtain ⟨u, hclear, hu⟩ := Option.bind_eq_some_iff.1 hrun
  cases hu
  have hc := hs.clears hclear
  have heffect := hs.effect_valueClear hclear
  have hmade := made_of_valueClear hclear
  have hout : u.refs.Made pv := (hc.made pv).2
    ⟨hmade, fun ⟨o, hin, _⟩ => hfree o hin⟩
  have hempty : u.refs.pointee pv = none := by rw [hc.pointee pv hout, if_pos rfl]
  refine heffect.trans (hc.wellFormed.effect_eraseValue hempty fun y hin => ?_)
    (fun _ _ h => h.elim) fun _ _ h => h.elim
  exact hfree y (heffect.member pv y (hs.lt_of_made hmade) hin)

/-! ## Operations on values -/

theorem WellFormed.effect_valueSet {b : Bool} {vpIn vpOut : Nat} (hs : WellFormed x s)
    (hrun : s.valueSet vpIn vpOut = some (b, t))
    (hroom : ∀ y, s.refs.pointee vpIn = some y → s.refs.references y + 1 < 2147483648) :
    Effect x s (· = vpOut) (fun _ => False) 1 t := by
  obtain ⟨u, hclear, hin⟩ := clear_of_valueSet hrun
  have hc := hs.clears hclear
  have heffect := hs.effect_valueClear hclear
  have hroom' : ∀ y, u.refs.pointee vpIn = some y → u.refs.references y + 1 < 2147483648 := by
    intro y hy
    rw [hc.pointee vpIn hin] at hy
    split at hy
    · cases hy
    · have hle := hc.references y
      have hlt := hroom y hy
      omega
  obtain ⟨t', hrun', hp, hexact⟩ := hs.valueSet hclear hin
  obtain ⟨rfl, rfl⟩ := Prod.mk.inj (Option.some.inj (hrun'.symm.trans hrun))
  have hpoints := hc.wellFormed.effect_points hp (hc.wellFormed.typed vpIn hin)
    (hexact fun y hy => by have hlt := hroom' y hy; omega) hroom'
  have htrans := heffect.trans hpoints (fun _ _ h => h) fun _ _ h => h
  rwa [Nat.zero_add] at htrans

theorem WellFormed.effect_assign {r : Nat} (hs : WellFormed x s) (hrun : s.assign r pv = some t)
    (hroom : ∀ y, s.refs.pointee r = some y → s.refs.references y + 1 < 2147483648) :
    Effect x s (· = pv) (fun _ => False) 1 t := by
  obtain ⟨⟨b, u⟩, hset, hrest⟩ := Option.bind_eq_some_iff.1 hrun
  cases b with
  | false => cases hrest
  | true =>
      cases hrest
      exact hs.effect_valueSet hset hroom

/-- A cleared value of a new type, with what `new` makes for that. -/
def withType (s : ValueHeap) (pv : Nat) (vt : ValueType) (vs : ValueSize) : ValueHeap :=
  match newContent vt with
  | none => s.setSlot pv ⟨vt, vs, 0⟩
  | some c => (s.setSlot pv ⟨vt, vs, 0⟩).newComplex pv c

theorem type_withType (s : ValueHeap) (pv : Nat) (vt : ValueType) (vs : ValueSize) :
    ((s.withType pv vt vs).slots pv).type = vt := by
  have hslot := congrArg Slot.type ((slots_setSlot s pv ⟨vt, vs, 0⟩ pv).trans (if_pos rfl))
  unfold withType
  cases newContent vt with
  | none => exact hslot
  | some c => exact hslot

theorem valueSetType2_cases {vt : ValueType} {vs : ValueSize}
    (hrun : s.valueSetType2 pv vt vs = some t) : s.refs.Made pv ∧
      ((s.slots pv).type = vt ∧ t = s.setSlot pv { s.slots pv with bsiz := vs } ∨
        ∃ u, s.valueClear pv = some u ∧ t = u.withType pv vt vs) := by
  obtain ⟨v, hv, hrest⟩ := Option.bind_eq_some_iff.1 hrun
  obtain ⟨hmade, rfl⟩ := made_of_slot hv
  refine ⟨hmade, ?_⟩
  split at hrest
  · cases hrest
    exact .inl ⟨‹_›, rfl⟩
  · obtain ⟨u, hclear, hrest⟩ := Option.bind_eq_some_iff.1 hrest
    refine .inr ⟨u, hclear, ?_⟩
    unfold withType
    cases hnew : newContent vt <;> simp only [hnew] at hrest <;> cases hrest <;> rfl

theorem valueSetType_cases {vt : ValueType} (hrun : s.valueSetType pv vt = some t) :
    (s.slots pv).type = vt ∧ t = s ∨
      ∃ u, s.valueClear pv = some u ∧ t = u.withType pv vt .s8 := by
  obtain ⟨v, hv, hrest⟩ := Option.bind_eq_some_iff.1 hrun
  obtain ⟨-, rfl⟩ := made_of_slot hv
  split at hrest
  · cases hrest
    exact .inl ⟨‹_›, rfl⟩
  · obtain ⟨u, hclear, hrest⟩ := Option.bind_eq_some_iff.1 hrest
    refine .inr ⟨u, hclear, ?_⟩
    unfold withType
    cases hnew : newContent vt <;> simp only [hnew] at hrest <;> cases hrest <;> rfl

theorem WellFormed.effect_withType (hs : WellFormed x s) (vt : ValueType) (vs : ValueSize)
    (hclear : s.valueClear pv = some u) :
    Effect x s (· = pv) (fun _ => False) 1 (u.withType pv vt vs) := by
  have hc := hs.clears hclear
  have heffect := hs.effect_valueClear hclear
  have hmade : u.refs.Made pv := (hc.made pv).2
    ⟨made_of_valueClear hclear, fun ⟨o, hin, hdoomed⟩ => hc.survives o hin hdoomed⟩
  have hempty : u.refs.pointee pv = none := by rw [hc.pointee pv hmade, if_pos rfl]
  unfold withType
  cases hnew : newContent vt with
  | none =>
      refine (heffect.trans (hc.wellFormed.effect_setSlot ?_) (fun _ _ h => h)
        fun _ _ h => h).mono (fun _ _ h => h) (fun _ _ h => h) (Nat.zero_le 1)
      rw [hempty]
      exact ⟨hnew, fun _ => rfl⟩
  | some c =>
      obtain ⟨hblank, helements, -⟩ := newContent_eq hnew
      have hcr := creates_newComplex hmade hempty ⟨vt, vs, 0⟩ c
      have hw := hcr.wellFormed hc.wellFormed ⟨rfl, .inl (by rw [hblank]; exact hnew)⟩ helements
        (newContent_valid hnew)
      have hboth := heffect.trans (hcr.effect hw helements) (fun _ _ h => h) fun _ _ h => h
      rwa [Nat.zero_add] at hboth

theorem WellFormed.effect_valueSetType2 {vt : ValueType} {vs : ValueSize} (hs : WellFormed x s)
    (hrun : s.valueSetType2 pv vt vs = some t) : Effect x s (· = pv) (fun _ => False) 1 t := by
  obtain ⟨hmade, ⟨-, rfl⟩ | ⟨u, hclear, rfl⟩⟩ := valueSetType2_cases hrun
  · exact (hs.effect_setSlot (Slot.Holds.setWidth (hs.typed pv hmade) vs)).mono (fun _ _ h => h)
      (fun _ _ h => h) (Nat.zero_le 1)
  · exact hs.effect_withType vt vs hclear

theorem WellFormed.effect_valueSetType {vt : ValueType} (hs : WellFormed x s)
    (hrun : s.valueSetType pv vt = some t) : Effect x s (· = pv) (fun _ => False) 1 t := by
  obtain ⟨-, rfl⟩ | ⟨u, hclear, rfl⟩ := valueSetType_cases hrun
  · exact .refl hs
  · exact hs.effect_withType vt .s8 hclear

/-! ## Operations on objects -/

theorem WellFormed.addElement (hs : WellFormed x s) {ob : RefableImp}
    (hob : s.refs.heap.alive o = some ob) {key : Key}
    (haccepts : (s.contents o).accepts x key = true) (hkey : key.cstr = key) :
    WellFormed x (s.addElement o key) where
  toLinked := hs.toLinked.addElement hob haccepts hkey
  sound := Balanced.of_exact (hs.exact_addElement hs.sound.exact hob key) fun y => by
    rw [hs.references_addElement]
    exact Balanced.refs_lt hs.sound y

theorem WellFormed.effect_addElement (hs : WellFormed x s) {ob : RefableImp}
    (hob : s.refs.heap.alive o = some ob) {key : Key}
    (haccepts : (s.contents o).accepts x key = true) (hkey : key.cstr = key) :
    Effect x s locs (· = o) 0 (s.addElement o key) := by
  refine ⟨hs.addElement hob haccepts hkey, by rw [next_addElement]; omega, fun l hl hmade => ?_,
    fun l y hl hin => ?_, fun l _ _ _ => hs.pointee_addElement o key l, fun l hl _ _ => ?_,
    fun y _ hne => ?_, fun y => ?_⟩
  · rcases (made_addElement s o key l).1 hmade with heq | hmade
    · omega
    · exact hmade
  · rcases hs.memberOf_addElement hob haccepts hin with heq | hin
    · omega
    · exact hin
  · rw [slots_addElement, if_neg (by omega)]
  · rw [contents_addElement hob, if_neg hne]
  · rw [hs.references_addElement]
    exact le_rfl

/-- `_elements[key]` makes the element if there is none. -/
theorem WellFormed.effect_element (hs : WellFormed x s) {ob : RefableImp}
    (hob : s.refs.heap.alive o = some ob) {key : Key}
    (haccepts : (s.contents o).accepts x key = true) (hkey : key.cstr = key) {e : Nat}
    (helement : s.element o key = (e, t)) :
    Effect x s (fun _ => False) (· = o) 0 t ∧
      ((s.contents o).elements.find key = some e ∨ s.next ≤ e) := by
  cases hfind : (s.contents o).elements.find key with
  | none =>
      rw [element_of_new hfind] at helement
      cases helement
      exact ⟨hs.effect_addElement hob haccepts hkey, .inr le_rfl⟩
  | some e' =>
      rw [element_of_find hfind] at helement
      cases helement
      exact ⟨.refl hs, .inl rfl⟩

/-- The temporary value that `set` copies `item` to. -/
theorem WellFormed.effect_temporary {item : Nat} (hs : WellFormed x s)
    (hassign : s.newValue.assign item s.next = some u)
    (hroom : ∀ y, s.refs.references y + 2 < 2147483648) :
    Effect x s (fun _ => False) (fun _ => False) 1 u ∧
      Points s.newValue s.next (s.newValue.slots item) (s.newValue.refs.pointee item) u := by
  obtain ⟨⟨b, v⟩, hset, -⟩ := Option.bind_eq_some_iff.1 hassign
  obtain ⟨v', hclear, hitem⟩ := clear_of_valueSet hset
  have htmp : s.newValue.refs.Made s.next := (made_newValue s _).2 (.inl rfl)
  have hnull : s.newValue.slots s.next = .null := by rw [slots_newValue, if_pos rfl]
  rw [valueClear_of_null hs.toLinked.newValue htmp hnull] at hclear
  cases hclear
  have hroom' : ∀ y, s.newValue.refs.references y + 1 < 2147483648 := by
    intro y
    rw [hs.references_newValue]
    have hy := hroom y
    omega
  obtain ⟨u', hassign', hu, -, heu⟩ := hs.toLinked.newValue.assign_to_null
    (hs.exact_newValue hs.sound.exact) htmp (pointee_of_null hs.toLinked.newValue htmp hnull)
    hnull hitem (fun y _ => by have hy := hroom' y; omega)
  obtain rfl : u' = u := Option.some.inj (hassign'.symm.trans hassign)
  have hpoints := hs.newValue.effect_points hu (hs.newValue.typed item hitem) heu
    fun y _ => hroom' y
  have hboth := hs.effect_newValue.trans hpoints (fun l hl heq => by omega) fun _ _ h => h
  exact ⟨hboth, hu⟩

theorem WellFormed.effect_setElement {b : Bool} {key : Key} {item : Nat} (hs : WellFormed x s)
    (hrun : s.setElement x o key item = some (b, t))
    (hroom : ∀ y, s.refs.references y + 2 < 2147483648) :
    Effect x s (fun l => (s.contents o).elements.find key.cstr = some l) (· = o) 2 t := by
  obtain ⟨c, hc, hrest⟩ := Option.bind_eq_some_iff.1 hrun
  obtain ⟨⟨ob, hob⟩, rfl⟩ := content_eq_some hc
  split at hrest
  · rename_i haccepts
    obtain ⟨a', hassign, hrest⟩ := Option.bind_eq_some_iff.1 hrest
    obtain ⟨htmp, ha⟩ := hs.effect_temporary hassign hroom
    obtain ⟨ob', hob'⟩ := Option.ne_none_iff_exists'.1 (ha.kept o (by
      show s.refs.heap.alive o ≠ none
      rw [hob]
      simp))
    have hco : a'.contents o = s.contents o := by rw [ha.contents, contents_newValue]
    have hanext : a'.next = s.next + 1 := ha.next
    cases helement : a'.element o key.cstr with
    | mk e c =>
        simp only [helement] at hrest
        obtain ⟨d, hset', hrest⟩ := Option.bind_eq_some_iff.1 hrest
        obtain ⟨f, hdestroy, hrest⟩ := Option.bind_eq_some_iff.1 hrest
        cases hrest
        obtain ⟨h3, hwhere⟩ := htmp.wellFormed.effect_element hob' (hco ▸ haccepts)
          (Key.cstr_cstr key) helement
        have h4 := h3.wellFormed.effect_assign hset' fun y hy => by
          have hp : c.refs.pointee s.next = a'.refs.pointee s.next :=
            h3.pointee _ (by omega) id (made_of_pointee hy)
          rw [hp] at hy
          have hle := h3.references y
          have hpoints := ha.references y
          have hbound := hroom y
          rw [hs.references_newValue] at hpoints
          split at hpoints <;> omega
        have h5 := h4.wellFormed.effect_destroyValue hdestroy fun y hin => by
          have hin' := ha.memberOf (h3.member _ y (by omega)
            (h4.member _ y ((show s.next < a'.next by omega).trans_le h3.next) hin))
          exact hs.freshValue s.next le_rfl (hs.made _ y hin')
        have h12 : Effect x s (fun l => (s.contents o).elements.find key.cstr = some l) (· = o)
            1 a' :=
          htmp.mono (fun _ _ h => h.elim) (fun _ _ h => h.elim) le_rfl
        have h13 := h12.trans h3 (fun _ _ h => h.elim) fun _ _ h => h
        have h14 := h13.trans h4 (fun l hl heq => by
          rw [heq]
          refine hwhere.elim (fun hfind => hco ▸ hfind) fun hge => ?_
          have hnext := h12.next
          omega) fun _ _ h => h.elim
        exact (h14.trans h5 (fun l hl heq => by omega) fun _ _ h => h.elim).mono
          (fun _ _ h => h) (fun _ _ h => h) (by omega)
  · cases hrest
    exact .refl hs

theorem setContent_eraseValue (s : ValueHeap) (pv o : Nat) (c : Content) :
    (s.eraseValue pv).setContent o c = (s.setContent o c).eraseValue pv := by
  have hsame : (s.eraseValue pv).refs.heap.objects o = s.refs.heap.objects o := rfl
  unfold setContent
  rw [hsame]
  cases s.refs.heap.objects o <;> rfl

/-- The element is cleared, leaves the container and goes. -/
theorem WellFormed.effect_eraseElement {b : Bool} {key : Key} (hs : WellFormed x s)
    (hrun : s.eraseElement o key = some (b, t)) :
    Effect x s (fun l => (s.contents o).elements.find key = some l) (· = o) 0 t := by
  obtain ⟨c, hc, hrest⟩ := Option.bind_eq_some_iff.1 hrun
  obtain ⟨⟨ob, hob⟩, rfl⟩ := content_eq_some hc
  cases hfind : (s.contents o).elements.find key with
  | none =>
      simp only [hfind] at hrest
      cases hrest
      exact .refl hs
  | some e =>
      simp only [hfind] at hrest
      obtain ⟨u', hdestroy, hrest⟩ := Option.bind_eq_some_iff.1 hrest
      obtain ⟨u, hclear, hu⟩ := Option.bind_eq_some_iff.1 hdestroy
      cases hu
      cases hrest
      have hcl := hs.clears hclear
      have hmember : s.refs.MemberOf e o := (hs.memberOf_iff hob).2 ⟨key, hfind⟩
      have helt := hs.lt_of_made (hs.made e o hmember)
      obtain ⟨ob', hob'⟩ := Option.ne_none_iff_exists'.1
        ((hcl.alive o).2 ⟨by rw [hob]; simp, fun hdoomed => hcl.survives o hmember hdoomed⟩)
      have hco : u.contents o = s.contents o := by rw [hcl.contents]
      have hvalid := hcl.wellFormed.valid o ob' hob'
      have haccepts := (hvalid.keys key e (hco ▸ hfind)).1
      have helements := Content.elements_setElements haccepts ((s.contents o).elements.erase key)
      have hnodup : (u.contents o).members.Nodup := by
        rw [← hcl.wellFormed.members o ob' hob']
        exact hcl.wellFormed.distinct o ob' hob'
      have hdistinct := Content.nodup_members.1 hnodup
      rw [hco] at haccepts helements hdistinct hvalid
      have hsub : ∀ j l,
          ((s.contents o).setElements ((s.contents o).elements.erase key)).elements.find j = some l →
            j ≠ key ∧ (s.contents o).elements.find j = some l := by
        intro j l hj
        rw [helements, SortedMap.find_erase] at hj
        split at hj
        · cases hj
        · exact ⟨‹_›, hj⟩
      have hset := hcl.wellFormed.effect_setContent hob'
        (c := (s.contents o).setElements ((s.contents o).elements.erase key))
        (by rw [Content.blank_setElements, hco])
        (hvalid.setElements fun j l hj => hvalid.keys j l (hsub j l hj).2)
        (Content.nodup_members.2 fun j k l hj hk =>
          hdistinct j k l (hsub j l hj).2 (hsub k l hk).2)
        (fun l hl => by
          obtain ⟨j, hj⟩ := Content.mem_members.1 hl
          exact (hcl.wellFormed.memberOf_iff hob').2 ⟨j, hco ▸ (hsub j l hj).2⟩)
      have hclear' : Effect x s (· = e) (· = o) 0 u :=
        (hs.effect_valueClear hclear).mono (fun _ _ h => h) (fun _ _ h => h.elim) le_rfl
      have hboth := hclear'.trans hset (fun _ _ h => h.elim) fun _ _ h => h
      rw [setContent_eraseValue]
      have hempty : (u.setContent o ((s.contents o).setElements
          ((s.contents o).elements.erase key))).refs.pointee e = none := by
        rw [pointee_setContent, hcl.pointee, if_pos rfl]
        exact (hcl.made e).2 ⟨made_of_valueClear hclear,
          fun ⟨y, hin, hdoomed⟩ => hcl.survives y hin hdoomed⟩
      have hfree : ∀ y, ¬ (u.setContent o ((s.contents o).setElements
          ((s.contents o).elements.erase key))).refs.MemberOf e y := by
        -- nothing has the element any more
        intro y hin
        obtain ⟨oby, hoby, hin⟩ := hin
        rw [alive_setContent hob'] at hoby
        split at hoby
        · cases hoby
          obtain ⟨j, hj⟩ := Content.mem_members.1 hin
          obtain ⟨hne, hj'⟩ := hsub j e hj
          exact hne (hdistinct j key e hj' hfind)
        · rename_i hne
          have hin' := (hs.effect_valueClear hclear).member e y helt ⟨oby, hoby, hin⟩
          exact hne (hs.home e y o hin' hmember)
      exact (hboth.trans (hset.wellFormed.effect_eraseValue hempty hfree) (fun _ _ h => h.elim)
        fun _ _ h => h.elim).mono (fun l _ heq => by rw [heq]) (fun _ _ h => h) le_rfl

theorem WellFormed.effect_eraseElements {keys : List Key} (hs : WellFormed x s)
    (hrun : s.eraseElements o keys = some t) :
    Effect x s (fun l => s.refs.MemberOf l o) (· = o) 0 t := by
  induction keys generalizing s with
  | nil =>
      cases hrun
      exact .refl hs
  | cons key keys ih =>
      obtain ⟨⟨b, u⟩, herase, hrest⟩ := Option.bind_eq_some_iff.1 hrun
      obtain ⟨c, hc, -⟩ := Option.bind_eq_some_iff.1 herase
      obtain ⟨⟨ob, hob⟩, -⟩ := content_eq_some hc
      have hfirst : Effect x s (fun l => s.refs.MemberOf l o) (· = o) 0 u :=
        (hs.effect_eraseElement herase).mono
          (fun l _ hl => (hs.memberOf_iff hob).2 ⟨key, hl⟩) (fun _ _ h => h) le_rfl
      exact hfirst.trans (m := 0) (ih hfirst.wellFormed hrest)
        (fun l hl hin => hfirst.member l o hl hin) fun _ _ h => h

/-- New data of an object without elements. -/
theorem WellFormed.effect_setData (hs : WellFormed x s) {ob : RefableImp}
    (hob : s.refs.heap.alive o = some ob) {c : Content} (hblank : c.blank = (s.contents o).blank)
    (hvalid : c.Valid x) (helements : c.elements = .empty) :
    Effect x s locs (· = o) 0 (s.setContent o c) := by
  have hnil : c.members = [] := by
    rw [Content.members, helements]
    rfl
  refine (hs.effect_setContent hob hblank hvalid (by rw [hnil]; exact .nil) fun l hl => ?_).mono
    (fun _ _ h => h.elim) (fun _ _ h => h) le_rfl
  rw [hnil] at hl
  cases hl

theorem WellFormed.effect_clear (hs : WellFormed x s) (hrun : s.clear o = some t) :
    Effect x s (fun l => s.refs.MemberOf l o) (· = o) 0 t := by
  obtain ⟨c, hc, hrest⟩ := Option.bind_eq_some_iff.1 hrun
  obtain ⟨⟨ob, hob⟩, heq⟩ := content_eq_some hc
  cases c with
  | stringA str =>
      cases hrest
      exact hs.effect_setData hob (by rw [← heq]; rfl) (Content.valid_stringA rfl) rfl
  | stringW str =>
      cases hrest
      exact hs.effect_setData hob (by rw [← heq]; rfl) (Content.valid_stringW rfl) rfl
  | buffer bytes =>
      cases hrest
      exact hs.effect_setData hob (by rw [← heq]; rfl) (Content.valid_buffer []) rfl
  | array elements => exact hs.effect_eraseElements hrest
  | object elements => exact hs.effect_eraseElements hrest
  | unknown => cases hrest

theorem WellFormed.effect_assignA {b : Bool} {str : Option (List Byte)} (hs : WellFormed x s)
    (hrun : s.assignA o str = some (b, t)) : Effect x s locs (· = o) 0 t := by
  obtain ⟨c, hc, hrest⟩ := Option.bind_eq_some_iff.1 hrun
  obtain ⟨⟨ob, hob⟩, heq⟩ := content_eq_some hc
  cases c with
  | stringA str' =>
      cases hrest
      exact hs.effect_setData hob (by rw [← heq]; rfl)
        (Content.valid_stringA (cstr_cstr _)) rfl
  | _ => cases hrest

theorem WellFormed.effect_assignW {b : Bool} {str : Option (List (BitVec 16))}
    (hs : WellFormed x s) (hrun : s.assignW o str = some (b, t)) :
    Effect x s locs (· = o) 0 t := by
  obtain ⟨c, hc, hrest⟩ := Option.bind_eq_some_iff.1 hrun
  obtain ⟨⟨ob, hob⟩, heq⟩ := content_eq_some hc
  cases c with
  | stringW str' =>
      cases hrest
      exact hs.effect_setData hob (by rw [← heq]; rfl)
        (Content.valid_stringW (cstr_cstr _)) rfl
  | _ => cases hrest

theorem WellFormed.effect_assignBuffer {b : Bool} {p : Option (List Byte)} (hs : WellFormed x s)
    (hrun : s.assignBuffer o p = some (b, t)) : Effect x s locs (· = o) 0 t := by
  obtain ⟨c, hc, hrest⟩ := Option.bind_eq_some_iff.1 hrun
  obtain ⟨⟨ob, hob⟩, heq⟩ := content_eq_some hc
  cases c with
  | buffer bytes =>
      cases p with
      | none =>
          cases hrest
          exact .refl hs
      | some bytes' =>
          cases hrest
          exact hs.effect_setData hob (by rw [← heq]; rfl) (Content.valid_buffer _) rfl
  | _ => cases hrest

theorem WellFormed.effect_resize {b : Bool} {size : Nat} (hs : WellFormed x s)
    (hrun : s.resize o size = some (b, t)) : Effect x s locs (· = o) 0 t := by
  obtain ⟨c, hc, hrest⟩ := Option.bind_eq_some_iff.1 hrun
  obtain ⟨⟨ob, hob⟩, heq⟩ := content_eq_some hc
  cases c with
  | buffer bytes =>
      cases hrest
      exact hs.effect_setData hob (by rw [← heq]; rfl) (Content.valid_buffer _) rfl
  | _ => cases hrest

/-! ## Copies -/

theorem WellFormed.effect_setElements {b : Bool} {elements : List (Key × Nat)}
    (hs : WellFormed x s) (hrun : s.setElements x o elements = some (b, t))
    (hroom : ∀ y, s.refs.references y + 2 * elements.length < 2147483648) :
    Effect x s (fun l => s.refs.MemberOf l o) (· = o) (2 * elements.length) t := by
  induction elements generalizing s with
  | nil =>
      cases hrun
      exact .refl hs
  | cons e elements ih =>
      obtain ⟨key, item⟩ := e
      obtain ⟨⟨b', u⟩, hset, hrest⟩ := Option.bind_eq_some_iff.1 hrun
      obtain ⟨c, hc, -⟩ := Option.bind_eq_some_iff.1 hset
      obtain ⟨⟨ob, hob⟩, -⟩ := content_eq_some hc
      have hlen : ((key, item) :: elements).length = elements.length + 1 := rfl
      have hfirst : Effect x s (fun l => s.refs.MemberOf l o) (· = o) 2 u :=
        (hs.effect_setElement hset fun y => by have hy := hroom y; omega).mono
          (fun l _ hl => (hs.memberOf_iff hob).2 ⟨key.cstr, hl⟩) (fun _ _ h => h) le_rfl
      cases b' with
      | false =>
          cases hrest
          exact hfirst.mono (fun _ _ h => h) (fun _ _ h => h) (by omega)
      | true =>
          have hrest' := ih hfirst.wellFormed hrest fun y => by
            have hy := hroom y
            have hle := hfirst.references y
            omega
          exact (hfirst.trans hrest' (fun l hl hin => hfirst.member l o hl hin)
            fun _ _ h => h).mono (fun _ _ h => h) (fun _ _ h => h) (by omega)

theorem WellFormed.effect_cloneTo {b : Bool} {po : Nat} (hs : WellFormed x s)
    (hrun : s.cloneTo x o po = some (b, t))
    (hroom : ∀ y, s.refs.references y + 2 * (s.contents o).members.length < 2147483648) :
    Effect x s (fun l => s.refs.MemberOf l po) (· = po) (2 * (s.contents o).members.length) t := by
  obtain ⟨c, hc, hrest⟩ := Option.bind_eq_some_iff.1 hrun
  obtain ⟨-, heq⟩ := content_eq_some hc
  have hloop : ∀ elements : SortedMap Key Nat, (s.contents o).elements = elements →
      (s.clear po).bind (fun s => s.setElements x po elements.entries) = some (b, t) →
      Effect x s (fun l => s.refs.MemberOf l po) (· = po)
        (2 * (s.contents o).members.length) t := by
    intro elements helements hrun
    obtain ⟨u, hclear, hset⟩ := Option.bind_eq_some_iff.1 hrun
    have hfirst := hs.effect_clear hclear
    have hlen : (s.contents o).members.length = elements.entries.length := by
      rw [Content.members, helements, List.length_map]
    have hrest := hfirst.wellFormed.effect_setElements hset fun y => by
      have hy := hroom y
      have hle := hfirst.references y
      omega
    exact (hfirst.trans hrest (fun l hl hin => hfirst.member l po hl hin) fun _ _ h => h).mono
      (fun _ _ h => h) (fun _ _ h => h) (by omega)
  cases c with
  | stringA str =>
      exact (hs.effect_assignA hrest).mono (fun _ _ h => h) (fun _ _ h => h) (Nat.zero_le _)
  | stringW str =>
      exact (hs.effect_assignW hrest).mono (fun _ _ h => h) (fun _ _ h => h) (Nat.zero_le _)
  | buffer bytes =>
      exact (hs.effect_assignBuffer hrest).mono (fun _ _ h => h) (fun _ _ h => h) (Nat.zero_le _)
  | array elements => exact hloop elements (by rw [← heq]; rfl) hrest
  | object elements => exact hloop elements (by rw [← heq]; rfl) hrest
  | unknown => cases hrest

/-- The new object takes one reference more. -/
theorem WellFormed.effect_valueClone {b : Bool} {vpIn vpOut : Nat} (hs : WellFormed x s)
    (hrun : s.valueClone x vpIn vpOut = some (b, t)) (hroom : s.Roomy (.clone vpIn vpOut)) :
    Effect x s (· = vpOut) (fun _ => False) (s.takes (.clone vpIn vpOut)) t := by
  obtain ⟨u, hclear, hin⟩ := clear_of_valueClone hrun
  have hc := hs.clears hclear
  have hu := hc.wellFormed
  have heffect := hs.effect_valueClear hclear
  have hout : u.refs.Made vpOut := (hc.made vpOut).2
    ⟨made_of_valueClear hclear, fun ⟨o, hin, hdoomed⟩ => hc.survives o hin hdoomed⟩
  have hnull : u.slots vpOut = .null := by rw [hc.slots, if_pos rfl]
  have hpos : 1 ≤ s.takes (.clone vpIn vpOut) := Nat.le_add_left ..
  have hroom' : ∀ y, u.refs.references y + s.takes (.clone vpIn vpOut) < 2147483648 := by
    intro y
    have hle := hc.references y
    have hy := hroom y
    omega
  cases hnew : newContent (u.slots vpIn).type with
  | none =>
      obtain ⟨t', hrun', hp, hexact⟩ :=
        hu.toLinked.valueClone_scalar hu.sound.exact hclear hout hnull hin hnew
      obtain ⟨rfl, rfl⟩ := Prod.mk.inj (Option.some.inj (hrun'.symm.trans hrun))
      have hpoints := hu.effect_points hp (hu.typed vpIn hin)
        (hexact fun y _ => by have hy := hroom' y; omega) fun y _ => by
          have hy := hroom' y
          omega
      exact (heffect.trans hpoints (fun _ _ h => h) fun _ _ h => h).mono (fun _ _ h => h)
        (fun _ _ h => h) (by omega)
  | some c =>
      have hne : vpIn ≠ vpOut := by
        rintro rfl
        rw [hnull] at hnew
        cases hnew
      obtain ⟨o, w, hp, -, hcr, hw, hbuffer, hfull⟩ :=
        hu.valueClone_complex hclear hout hnull hin hne hnew
      obtain ⟨-, helements, -⟩ := newContent_eq hnew
      have hmake := heffect.trans (hcr.effect hw helements) (fun _ _ h => h) fun _ _ h => h
      by_cases hempty : u.contents o = .buffer []
      · rw [hbuffer hempty] at hrun
        obtain ⟨t', hclear', heq⟩ := Option.map_eq_some_iff.1 hrun
        obtain ⟨rfl, rfl⟩ := Prod.mk.inj heq
        exact (hmake.trans (hw.effect_valueClear hclear') (fun _ _ h => h) fun _ _ h => h).mono
          (fun _ _ h => h) (fun _ _ h => h) (by omega)
      · obtain ⟨t', hrun', hcopy, -⟩ := hfull hempty
        obtain ⟨rfl, rfl⟩ := Prod.mk.inj (Option.some.inj (hrun'.symm.trans hrun))
        obtain ⟨ob, hob⟩ := alive_of_pointee hu.sound.exact hp
        have holt := hu.lt_of_alive hob
        have hlen : s.takes (.clone vpIn vpOut) = 2 * (w.contents o).members.length + 1 := by
          have hps : s.refs.pointee vpIn = some o := by
            rw [hc.pointee vpIn hin, if_neg hne] at hp
            exact hp
          have hco : w.contents o = s.contents o := by
            rw [hcr.contents, if_neg (by omega), hc.contents]
          rw [takes, hps, hco]
          rfl
        have hclone := hw.effect_cloneTo hcopy fun y => by
          have hy := hroom' y
          have hle := hcr.references y
          split at hle <;> omega
        refine (hmake.trans hclone (fun l _ hin => ?_) fun y hy heq => ?_).mono (fun _ _ h => h)
          (fun _ _ h => h) (by omega)
        · -- the new object has no elements
          obtain ⟨ob', hob', hin⟩ := hin
          rw [hcr.alive, if_pos rfl] at hob'
          cases hob'
          obtain ⟨key, hkey⟩ := Content.mem_members.1 hin
          rw [helements] at hkey
          cases hkey
        · have hnext := hc.next
          omega

/-! ## Every operation -/

theorem WellFormed.effect_ref {key : Key} {e : Nat} (hs : WellFormed x s)
    (hrun : s.ref x o key = some (e, t)) : Effect x s (fun _ => False) (· = o) 0 t := by
  obtain ⟨c, hc, hrest⟩ := Option.bind_eq_some_iff.1 hrun
  obtain ⟨⟨ob, hob⟩, rfl⟩ := content_eq_some hc
  split at hrest
  · rename_i haccepts
    exact (hs.effect_element hob haccepts (Key.cstr_cstr key) (Option.some.inj hrest)).1
  · cases hrest

theorem WellFormed.effect_getElement {b : Bool} {key : Key} {item : Nat} (hs : WellFormed x s)
    (hrun : s.getElement o key item = some (b, t))
    (hroom : ∀ y, s.refs.references y + 1 < 2147483648) :
    Effect x s (· = item) (fun _ => False) 1 t := by
  obtain ⟨c, hc, hrest⟩ := Option.bind_eq_some_iff.1 hrun
  split at hrest
  · cases hrest
    exact .refl hs
  · exact hs.effect_valueSet hrest fun y _ => hroom y

theorem type_of_valueSetType2 {vt : ValueType} {vs : ValueSize}
    (hrun : s.valueSetType2 pv vt vs = some t) : (t.slots pv).type = vt := by
  obtain ⟨-, ⟨htype, rfl⟩ | ⟨u, -, rfl⟩⟩ := valueSetType2_cases hrun
  · rw [slots_setSlot, if_pos rfl, htype]
  · exact type_withType u pv vt vs

theorem type_of_valueSetType {vt : ValueType} (hrun : s.valueSetType pv vt = some t) :
    (t.slots pv).type = vt := by
  obtain ⟨htype, rfl⟩ | ⟨u, -, rfl⟩ := valueSetType_cases hrun
  · exact htype
  · exact type_withType u pv vt .s8

/-- The data of a scalar. -/
theorem Effect.setScalar {v : Slot} {k : Nat} (heffect : Effect x s (· = pv) objs k t)
    (htype : (t.slots pv).type = v.type) (hnew : newContent v.type = none)
    (hknown : v.type ≠ .dUnknown) : Effect x s (· = pv) objs k (t.setSlot pv v) := by
  have hempty : t.refs.pointee pv = none := by
    by_cases hmade : t.refs.Made pv
    · exact heffect.wellFormed.pointee_of_scalar hmade (htype ▸ hnew) (htype ▸ hknown)
    · exact pointee_of_not_made hmade
  refine heffect.trans (m := 0) ((heffect.wellFormed.effect_setSlot ?_).mono (fun _ _ h => h)
    (fun _ _ h => h.elim) le_rfl) (fun _ _ h => h) fun _ _ h => h
  rw [hempty]
  exact ⟨hnew, fun heq => absurd heq hknown⟩

/-- The step is confined to the values it writes and the object it is on. -/
theorem WellFormed.step_effect {op : ValueOp} (hs : WellFormed x s) (hlegal : s.Legal op)
    (hroom : s.Roomy op) (hstep : s.Step x op t) :
    Effect x s (· ∈ s.writes op) (fun y => op.object = some y) (s.takes op + 1) t := by
  have hvalue : ∀ {pv' k : Nat}, op.value = some pv' → s.writes op = op.value.toList →
      Effect x s (· = pv') (fun _ => False) k t → k ≤ s.takes op + 1 →
      Effect x s (· ∈ s.writes op) (fun y => op.object = some y) (s.takes op + 1) t := by
    intro pv' k hon hwrites heffect hk
    refine heffect.mono (fun l _ hl => ?_) (fun _ _ h => h.elim) hk
    rw [hwrites, hon, hl]
    exact List.mem_singleton_self _
  have hobject : ∀ {o' k : Nat} {locs : Nat → Prop}, op.object = some o' →
      (∀ l, locs l → l ∈ s.writes op) → Effect x s locs (· = o') k t → k ≤ s.takes op + 1 →
      Effect x s (· ∈ s.writes op) (fun y => op.object = some y) (s.takes op + 1) t := by
    intro o' k locs hon hwrites heffect hk
    refine heffect.mono (fun l _ hl => hwrites l hl) (fun y _ hy => ?_) hk
    rw [hon, hy]
  cases op with
  | construct =>
      cases hstep
      exact hs.effect_newValue.mono (fun _ _ h => h.elim) (fun _ _ h => h.elim) (Nat.zero_le _)
  | destruct pv => exact hvalue rfl rfl (hs.effect_destroyValue hstep hlegal) (Nat.zero_le _)
  | clearValue pv => exact hvalue rfl rfl (hs.effect_valueClear hstep) (Nat.zero_le _)
  | setType pv vt => exact hvalue rfl rfl (hs.effect_valueSetType hstep) le_rfl
  | setType2 pv vt vs => exact hvalue rfl rfl (hs.effect_valueSetType2 hstep) le_rfl
  | setInteger pv vs integer =>
      obtain ⟨u, hset, rfl⟩ := Option.map_eq_some_iff.1 hstep
      exact hvalue rfl rfl
        ((hs.effect_valueSetType2 hset).setScalar (type_of_valueSetType2 hset) rfl nofun) le_rfl
  | setReal pv real =>
      obtain ⟨u, hset, rfl⟩ := Option.map_eq_some_iff.1 hstep
      have htype := type_of_valueSetType hset
      exact hvalue rfl rfl ((hs.effect_valueSetType hset).setScalar
        (v := { u.slots pv with anyval := real }) rfl (by rw [htype]; rfl) (by rw [htype]; nofun))
        le_rfl
  | set vpIn vpOut =>
      obtain ⟨⟨b, u⟩, hset, rfl⟩ := Option.map_eq_some_iff.1 hstep
      exact hvalue rfl rfl (hs.effect_valueSet hset fun y _ => hroom y) (Nat.le_succ _)
  | clone vpIn vpOut =>
      obtain ⟨⟨b, u⟩, hclone, rfl⟩ := Option.map_eq_some_iff.1 hstep
      exact hvalue rfl rfl (hs.effect_valueClone hclone hroom) (Nat.le_succ _)
  | ref o key =>
      obtain ⟨⟨e, u⟩, href, rfl⟩ := Option.map_eq_some_iff.1 hstep
      exact hobject rfl (fun _ h => False.elim h) (hs.effect_ref href) (Nat.zero_le _)
  | setElement o key item =>
      obtain ⟨⟨b, u⟩, hset, rfl⟩ := Option.map_eq_some_iff.1 hstep
      exact hobject rfl (fun l hl => Option.mem_toList.2 hl) (hs.effect_setElement hset hroom)
        (Nat.le_succ _)
  | getElement o key item =>
      obtain ⟨⟨b, u⟩, hget, rfl⟩ := Option.map_eq_some_iff.1 hstep
      exact hvalue rfl rfl (hs.effect_getElement hget hroom) (Nat.le_succ _)
  | erase o key =>
      obtain ⟨⟨b, u⟩, herase, rfl⟩ := Option.map_eq_some_iff.1 hstep
      exact hobject rfl (fun l hl => Option.mem_toList.2 hl) (hs.effect_eraseElement herase)
        (Nat.zero_le _)
  | clear o =>
      refine hobject rfl (fun l hl => ?_) (hs.effect_clear hstep) (Nat.zero_le _)
      obtain ⟨ob, hob, hin⟩ := hl
      rw [hs.members o ob hob] at hin
      exact hin
  | assignA o str =>
      obtain ⟨⟨b, u⟩, hassign, rfl⟩ := Option.map_eq_some_iff.1 hstep
      exact hobject rfl (fun _ h => False.elim h) (hs.effect_assignA hassign) (Nat.zero_le _)
  | assignW o str =>
      obtain ⟨⟨b, u⟩, hassign, rfl⟩ := Option.map_eq_some_iff.1 hstep
      exact hobject rfl (fun _ h => False.elim h) (hs.effect_assignW hassign) (Nat.zero_le _)
  | assignBuffer o p =>
      obtain ⟨⟨b, u⟩, hassign, rfl⟩ := Option.map_eq_some_iff.1 hstep
      exact hobject rfl (fun _ h => False.elim h) (hs.effect_assignBuffer hassign) (Nat.zero_le _)
  | resize o size =>
      obtain ⟨⟨b, u⟩, hresize, rfl⟩ := Option.map_eq_some_iff.1 hstep
      exact hobject rfl (fun _ h => False.elim h) (hs.effect_resize hresize) (Nat.zero_le _)

/-- A heap without values. -/
theorem wellFormed_start : WellFormed x start where
  typed l hl := absurd rfl hl
  members o ob hob := by cases hob
  made l o hin := by
    obtain ⟨ob, hob, -⟩ := hin
    cases hob
  home l o o' hin _ := by
    obtain ⟨ob, hob, -⟩ := hin
    cases hob
  distinct o ob hob := by cases hob
  valid o ob hob := by cases hob
  freshValue l _ hl := hl rfl
  freshObject o _ := rfl
  sound := ⟨nofun, nofun, nofun, nofun, fun o ho => absurd ho (Nat.lt_irrefl 0)⟩

/-- Every heap that the operations make is well formed. -/
theorem wellFormed_of_run (hrun : Run x start t) : WellFormed x t := by
  induction hrun with
  | refl => exact wellFormed_start
  | tail _ hstep ih =>
      obtain ⟨op, hlegal, hroom, hstep⟩ := hstep
      exact (ih.step_effect hlegal hroom hstep).wellFormed

end ValueHeap

end Vin64.Xv
