import Mathlib.Data.List.TakeWhile
import Vin64.Xv.Proofs.Heap

/-!
# Objects and elements of a heap of values

An object comes with a pointer to it and changes its data as a whole; a value goes when nothing
has it as an element.
-/

namespace Vin64.Xv

open Vin64.Lib Vin64.Utils

variable {x : Header}

namespace Content

variable {l : Nat}

theorem eq_unknown_of_blank {c : Content} (hblank : c.blank = .unknown) :
    c = .unknown := by
  cases c <;> first | rfl | cases hblank

theorem mem_members {c : Content} :
    l ∈ c.members ↔ ∃ key, c.elements.find key = some l := by
  constructor
  · intro hin
    obtain ⟨e, he, rfl⟩ := List.mem_map.1 hin
    exact ⟨e.1, SortedMap.find_eq_some_iff.2 he⟩
  · rintro ⟨key, hkey⟩
    exact List.mem_map.2 ⟨_, SortedMap.find_eq_some_iff.1 hkey, rfl⟩

theorem nodup_members {c : Content} :
    c.members.Nodup ↔ ∀ j k l, c.elements.find j = some l → c.elements.find k = some l → j = k := by
  rw [Content.members, List.nodup_map_iff_inj_on c.elements.entries_nodup]
  constructor
  · intro h j k l hj hk
    have hjl := SortedMap.find_eq_some_iff.1 hj
    have hkl := SortedMap.find_eq_some_iff.1 hk
    exact congrArg Prod.fst (h (j, l) hjl (k, l) hkl rfl)
  · rintro h ⟨j, l⟩ hj ⟨k, m⟩ hk heq
    obtain rfl : l = m := heq
    rw [h j k l (SortedMap.find_eq_some_iff.2 hj) (SortedMap.find_eq_some_iff.2 hk)]

@[simp] theorem blank_setElements (c : Content) (elements : SortedMap Key Nat) :
    (c.setElements elements).blank = c.blank := by
  cases c <;> rfl

/-- Only containers take keys. -/
theorem elements_setElements {c : Content} {key : Key} (hkey : c.accepts x key = true)
    (elements : SortedMap Key Nat) : (c.setElements elements).elements = elements := by
  cases c <;> first | rfl | cases hkey

theorem accepts_setElements (c : Content) (elements : SortedMap Key Nat) (key : Key) :
    (c.setElements elements).accepts x key = c.accepts x key := by
  cases c with
  | array _ => cases key <;> rfl
  | object _ => cases key <;> rfl
  | _ => rfl

@[simp] theorem blank_blank (c : Content) : c.blank.blank = c.blank := by
  cases c <;> rfl

theorem accepts_of_blank {c d : Content} (hblank : d.blank = c.blank) (key : Key) :
    d.accepts x key = c.accepts x key := by
  cases c <;> cases d <;> first | cases key <;> rfl | cases hblank

theorem Valid.setElements {c : Content} (hc : c.Valid x) {elements : SortedMap Key Nat}
    (hkeys : ∀ key e, (c.setElements elements).elements.find key = some e →
      c.accepts x key = true ∧ key.cstr = key) : (c.setElements elements).Valid x where
  stringA str heq := by
    cases c with
    | stringA str' => exact hc.stringA str heq
    | _ => cases heq
  stringW str heq := by
    cases c with
    | stringW str' => exact hc.stringW str heq
    | _ => cases heq
  keys key e hkey := by
    rw [Content.accepts_setElements]
    exact hkeys key e hkey

theorem valid_stringA {str : List Byte} (hstr : cstr str = str) :
    (stringA str).Valid x where
  stringA str' heq := by
    cases heq
    exact hstr
  stringW str' heq := by cases heq
  keys key e hkey := by cases hkey

theorem valid_stringW {str : List (BitVec 16)} (hstr : cstr str = str) :
    (stringW str).Valid x where
  stringA str' heq := by cases heq
  stringW str' heq := by
    cases heq
    exact hstr
  keys key e hkey := by cases hkey

theorem valid_buffer (bytes : List Byte) : (buffer bytes).Valid x where
  stringA str' heq := by cases heq
  stringW str' heq := by cases heq
  keys key e hkey := by cases hkey

end Content

theorem Slot.Holds.of_blank {v : Slot} {c d : Content} (hv : v.Holds (some c))
    (hblank : d.blank = c.blank) : v.Holds (some d) := by
  refine ⟨hv.1, hv.2.imp (fun h => hblank ▸ h) fun h => ⟨h.1, ?_⟩⟩
  rw [h.2] at hblank
  exact Content.eq_unknown_of_blank hblank

theorem Slot.Holds.setWidth {v : Slot} {c : Option Content} (hv : v.Holds c) (vs : ValueSize) :
    ({ v with bsiz := vs } : Slot).Holds c := by
  cases c <;> exact hv

@[simp] theorem cstr_cstr {n : Nat} (str : List (BitVec n)) : cstr (cstr str) = cstr str :=
  List.takeWhile_idem ..

@[simp] theorem Key.cstr_cstr (key : Key) : key.cstr.cstr = key.cstr := by
  cases key with
  | index idx => rfl
  | name str => exact congrArg Key.name (Xv.cstr_cstr str)

theorem newContent_eq {vt : ValueType} {c : Content} (hnew : newContent vt = some c) :
    c.blank = c ∧ c.elements = .empty ∧ c ≠ .unknown := by
  cases vt <;> cases hnew <;> exact ⟨rfl, rfl, nofun⟩

theorem newContent_valid {vt : ValueType} {c : Content} (hnew : newContent vt = some c) :
    c.Valid x := by
  refine ⟨fun str heq => ?_, fun str heq => ?_, fun key e hkey => ?_⟩
  · subst heq
    cases vt <;> cases hnew <;> rfl
  · subst heq
    cases vt <;> cases hnew
    rfl
  · rw [(newContent_eq hnew).2.1] at hkey
    cases hkey

namespace ValueHeap

variable {s t : ValueHeap} {pv l o : Nat}

/-! ## An object comes -/

/-- A value without a pointer becomes `v` with a pointer to a new object. -/
structure Creates (s : ValueHeap) (pv : Nat) (v : Slot) (c : Content) (t : ValueHeap) : Prop where
  made : ∀ l, t.refs.Made l ↔ s.refs.Made l
  pointee : ∀ l, t.refs.pointee l = if l = pv then some s.next else s.refs.pointee l
  slots : ∀ l, t.slots l = if l = pv then v else s.slots l
  contents : ∀ o, t.contents o = if o = s.next then c else s.contents o
  next : t.next = s.next + 1
  alive : ∀ o, t.refs.heap.alive o =
    if o = s.next then some ⟨1, c.members, true, false⟩ else s.refs.heap.alive o
  objects : ∀ o, o ≠ s.next → t.refs.heap.objects o = s.refs.heap.objects o
  references : ∀ o, t.refs.references o = s.refs.references o + if s.next = o then 1 else 0

theorem creates_newComplex (hmade : s.refs.Made pv) (hempty : s.refs.pointee pv = none) (v : Slot)
    (c : Content) : Creates s pv v c ((s.setSlot pv v).newComplex pv c) where
  made l := (made_setPointer (s.setSlot pv v) pv _ l).trans
    ⟨fun h => h.elim (fun heq => heq ▸ hmade) id, .inr⟩
  pointee := pointee_setPointer (s.setSlot pv v) pv _
  slots := slots_setSlot s pv v
  contents o := Function.update_apply ..
  next := rfl
  alive o := RefHeap.alive_setObject
  objects o ho := Function.update_of_ne ho ..
  references o := by
    have hrefs := references_setPointer (s := s.setSlot pv v) hempty (some s.next) o
    simp only [Option.some.injEq] at hrefs
    exact hrefs

theorem Creates.exact {v : Slot} {c : Content} (hc : Creates s pv v c t) (hs : Linked x s)
    (he : Exact s.refs.heap.objects s.refs.references) :
    Exact t.refs.heap.objects t.refs.references := by
  have hobjects : t.refs.heap.objects =
      Function.update s.refs.heap.objects s.next (some ⟨1, c.members, true, false⟩) := by
    funext o
    by_cases ho : o = s.next
    · subst ho
      have halive := hc.alive s.next
      rw [if_pos rfl] at halive
      rw [Function.update_self, (RefHeap.alive_eq_some_iff.1 halive).1]
    · rw [Function.update_of_ne ho, hc.objects o ho]
  rw [hobjects, funext hc.references]
  exact he.create (hs.freshObject s.next le_rfl) c.members

/-- What a value holds is older than the object that comes. -/
theorem Linked.typed_of_new {c : Content} (hs : Linked x s)
    (he : Exact s.refs.heap.objects s.refs.references)
    (hcontents : ∀ o, t.contents o = if o = s.next then c else s.contents o)
    (hl : s.refs.Made l) : (s.slots l).Holds ((s.refs.pointee l).map t.contents) := by
  have htyped := hs.typed l hl
  cases hp : s.refs.pointee l with
  | none =>
      rw [hp] at htyped
      exact htyped
  | some o =>
      obtain ⟨ob, hob⟩ := alive_of_pointee he hp
      have hlt := hs.lt_of_alive hob
      rw [hp] at htyped
      rw [Option.map_some, hcontents, if_neg (by omega)]
      exact htyped

/-- An object without elements comes. -/
theorem Linked.of_new {c : Content} (hs : Linked x s) (helements : c.elements = .empty)
    (hvalid : c.Valid x) (hcontents : ∀ o, t.contents o = if o = s.next then c else s.contents o)
    (hnext : t.next = s.next + 1)
    (halive : ∀ o, t.refs.heap.alive o =
      if o = s.next then some ⟨1, c.members, true, false⟩ else s.refs.heap.alive o)
    (hobjects : ∀ o, o ≠ s.next → t.refs.heap.objects o = s.refs.heap.objects o)
    (hmade : ∀ l, t.refs.Made l ↔ s.refs.Made l)
    (htyped : ∀ l, s.refs.Made l → (t.slots l).Holds ((t.refs.pointee l).map t.contents)) :
    Linked x t := by
  have hnil : c.members = [] := by
    rw [Content.members, helements]
    rfl
  have hmember : ∀ l o, t.refs.MemberOf l o → s.refs.MemberOf l o := by
    rintro l o ⟨ob, hob, hin⟩
    rw [halive] at hob
    split at hob
    · cases hob
      rw [hnil] at hin
      cases hin
    · exact ⟨ob, hob, hin⟩
  refine ⟨fun l hl => htyped l ((hmade l).1 hl), fun o ob hob => ?_, fun l o hin => ?_,
    fun l o o' h h' => ?_, fun o ob hob => ?_, fun o ob hob => ?_, fun l hl hl' => ?_,
    fun o ho => ?_⟩
  · rw [hcontents]
    rw [halive] at hob
    split at hob
    · rename_i ho
      cases hob
      rw [if_pos ho]
    · rename_i ho
      rw [if_neg ho]
      exact hs.members o ob hob
  · exact (hmade l).2 (hs.made l o (hmember l o hin))
  · exact hs.home l o o' (hmember l o h) (hmember l o' h')
  · rw [halive] at hob
    split at hob
    · cases hob
      rw [hnil]
      exact .nil
    · exact hs.distinct o ob hob
  · rw [hcontents]
    rw [halive] at hob
    split at hob
    · rename_i ho
      rw [if_pos ho]
      exact hvalid
    · rename_i ho
      rw [if_neg ho]
      exact hs.valid o ob hob
  · rw [hnext] at hl
    exact hs.freshValue l (by omega) ((hmade l).1 hl')
  · rw [hnext] at ho
    rw [hobjects o (by omega)]
    exact hs.freshObject o (by omega)

theorem Creates.linked {v : Slot} {c : Content} (hc : Creates s pv v c t) (hs : Linked x s)
    (he : Exact s.refs.heap.objects s.refs.references) (hv : v.Holds (some c))
    (helements : c.elements = .empty) (hvalid : c.Valid x) : Linked x t := by
  refine hs.of_new helements hvalid hc.contents hc.next hc.alive hc.objects hc.made fun l hl => ?_
  rw [hc.slots, hc.pointee]
  split
  · rw [Option.map_some, hc.contents, if_pos rfl]
    exact hv
  · exact hs.typed_of_new he hc.contents hl

/-! ## An object changes its data -/

theorem refps_setContent (s : ValueHeap) (o : Nat) (c : Content) :
    (s.setContent o c).refs.heap.refps = s.refs.heap.refps := by
  unfold setContent
  split <;> rfl

theorem out_setContent (s : ValueHeap) (o : Nat) (c : Content) :
    (s.setContent o c).refs.out = s.refs.out := by
  unfold setContent
  split <;> rfl

@[simp] theorem slots_setContent (s : ValueHeap) (o : Nat) (c : Content) :
    (s.setContent o c).slots = s.slots := by
  unfold setContent
  split <;> rfl

@[simp] theorem next_setContent (s : ValueHeap) (o : Nat) (c : Content) :
    (s.setContent o c).next = s.next := by
  unfold setContent
  split <;> rfl

theorem made_setContent (s : ValueHeap) (o : Nat) (c : Content) (l : Nat) :
    (s.setContent o c).refs.Made l ↔ s.refs.Made l := by
  unfold RefRun.Made
  rw [refps_setContent]

theorem pointee_setContent (s : ValueHeap) (o : Nat) (c : Content) (l : Nat) :
    (s.setContent o c).refs.pointee l = s.refs.pointee l := by
  unfold RefRun.pointee
  rw [refps_setContent]

theorem references_setContent (s : ValueHeap) (o : Nat) (c : Content) :
    (s.setContent o c).refs.references = s.refs.references := by
  funext y
  unfold RefRun.references
  rw [refps_setContent, out_setContent]

theorem contents_setContent {ob : RefableImp} (hob : s.refs.heap.alive o = some ob) (c : Content)
    (y : Nat) : (s.setContent o c).contents y = if y = o then c else s.contents y := by
  unfold setContent
  simp only [(RefHeap.alive_eq_some_iff.1 hob).1]
  exact Function.update_apply ..

theorem objects_setContent {ob : RefableImp} (hob : s.refs.heap.alive o = some ob) (c : Content) :
    (s.setContent o c).refs.heap.objects =
      Function.update s.refs.heap.objects o (some { ob with members := c.members }) := by
  unfold setContent
  simp only [(RefHeap.alive_eq_some_iff.1 hob).1]
  rfl

theorem alive_setContent {ob : RefableImp} (hob : s.refs.heap.alive o = some ob) (c : Content)
    (y : Nat) : (s.setContent o c).refs.heap.alive y =
      if y = o then some { ob with members := c.members } else s.refs.heap.alive y := by
  obtain ⟨hmem, hdead⟩ := RefHeap.alive_eq_some_iff.1 hob
  have hlive : ({ ob with members := c.members } : RefableImp).destroyed = false := hdead
  unfold setContent
  simp only [hmem]
  exact RefHeap.alive_setObject_live hlive s.refs.heap o y

theorem exact_setContent {ob : RefableImp} (hob : s.refs.heap.alive o = some ob) (c : Content)
    (he : Exact s.refs.heap.objects s.refs.references) :
    Exact (s.setContent o c).refs.heap.objects (s.setContent o c).refs.references := by
  have hmem := (RefHeap.alive_eq_some_iff.1 hob).1
  rw [objects_setContent hob, references_setContent]
  refine ⟨fun y ob' => ?_, fun y ob' => ?_, fun y ob' => ?_, fun y => ?_⟩ <;>
    by_cases hy : y = o <;> simp only [hy, Function.update_self, ne_eq, not_false_eq_true,
      Function.update_of_ne]
  · rintro ⟨⟩
    exact he.counted o ob hmem
  · exact he.counted y ob'
  · rintro ⟨⟩
    exact he.destroyed o ob hmem
  · exact he.destroyed y ob'
  · rintro ⟨⟩
    exact he.referenced o ob hmem
  · exact he.referenced y ob'
  · simp
  · exact he.known y

theorem Linked.setContent (hs : Linked x s) {ob : RefableImp}
    (hob : s.refs.heap.alive o = some ob) {c : Content} (hblank : c.blank = (s.contents o).blank)
    (hvalid : c.Valid x) (hnodup : c.members.Nodup)
    (hmembers : ∀ l ∈ c.members, s.refs.Made l ∧ ∀ o', s.refs.MemberOf l o' → o' = o) :
    Linked x (s.setContent o c) := by
  have hmember : ∀ l o', (s.setContent o c).refs.MemberOf l o' →
      o' = o ∧ l ∈ c.members ∨ o' ≠ o ∧ s.refs.MemberOf l o' := by
    rintro l o' ⟨ob', hob', hin⟩
    rw [alive_setContent hob] at hob'
    split at hob'
    · rename_i heq
      cases hob'
      exact .inl ⟨heq, hin⟩
    · rename_i hne
      exact .inr ⟨hne, ob', hob', hin⟩
  refine ⟨fun l hl => ?_, fun y ob' hy => ?_, fun l o' hin => ?_, fun l o' o'' h h' => ?_,
    fun y ob' hy => ?_, fun y ob' hy => ?_, fun l hl hmade => ?_, fun y hy => ?_⟩
  · rw [slots_setContent, pointee_setContent]
    have htyped := hs.typed l ((made_setContent s o c l).1 hl)
    cases hp : s.refs.pointee l with
    | none =>
        rw [hp] at htyped
        exact htyped
    | some y =>
        rw [hp] at htyped
        rw [Option.map_some, contents_setContent hob]
        split
        · rename_i heq
          subst heq
          exact Slot.Holds.of_blank htyped hblank
        · exact htyped
  · rw [contents_setContent hob]
    rw [alive_setContent hob] at hy
    split at hy
    · rename_i heq
      cases hy
      rw [if_pos heq]
    · rename_i hne
      rw [if_neg hne]
      exact hs.members y ob' hy
  · rw [made_setContent]
    rcases hmember l o' hin with ⟨-, hin⟩ | ⟨-, hin⟩
    · exact (hmembers l hin).1
    · exact hs.made l o' hin
  · rcases hmember l o' h with ⟨heq, hin⟩ | ⟨hne, hin⟩
    · rcases hmember l o'' h' with ⟨heq', -⟩ | ⟨hne', hin'⟩
      · rw [heq, heq']
      · exact absurd ((hmembers l hin).2 o'' hin') hne'
    · rcases hmember l o'' h' with ⟨heq', hin'⟩ | ⟨hne', hin'⟩
      · exact absurd ((hmembers l hin').2 o' hin) hne
      · exact hs.home l o' o'' hin hin'
  · rw [alive_setContent hob] at hy
    split at hy
    · cases hy
      exact hnodup
    · exact hs.distinct y ob' hy
  · rw [contents_setContent hob]
    rw [alive_setContent hob] at hy
    split at hy
    · rename_i heq
      rw [if_pos heq]
      exact hvalid
    · rename_i hne
      rw [if_neg hne]
      exact hs.valid y ob' hy
  · exact hs.freshValue l (by simpa using hl) ((made_setContent s o c l).1 hmade)
  · have hnone := hs.freshObject y (by simpa using hy)
    rw [objects_setContent hob]
    by_cases heq : y = o
    · rw [heq, (RefHeap.alive_eq_some_iff.1 hob).1] at hnone
      cases hnone
    · rw [Function.update_of_ne heq]
      exact hnone

/-! ## The elements of an object -/

/-- The container with a new element, which is null. -/
def addElement (s : ValueHeap) (o : Nat) (key : Key) : ValueHeap :=
  s.newValue.setContent o ((s.contents o).setElements ((s.contents o).elements.assign key s.next))

theorem element_of_find {key : Key} {e : Nat} (hfind : (s.contents o).elements.find key = some e) :
    s.element o key = (e, s) := by
  rw [element, hfind]

theorem element_of_new {key : Key} (hfind : (s.contents o).elements.find key = none) :
    s.element o key = (s.next, s.addElement o key) := by
  rw [element, hfind]
  rfl

theorem Linked.addElement (hs : Linked x s) {ob : RefableImp}
    (hob : s.refs.heap.alive o = some ob) {key : Key}
    (haccepts : (s.contents o).accepts x key = true) (hkey : key.cstr = key) :
    Linked x (s.addElement o key) := by
  have helements :=
    Content.elements_setElements haccepts ((s.contents o).elements.assign key s.next)
  have hold : ∀ k l, (s.contents o).elements.find k = some l →
      s.refs.MemberOf l o ∧ l < s.next := by
    intro k l hk
    have hmember : s.refs.MemberOf l o := (hs.memberOf_iff hob).2 ⟨k, hk⟩
    exact ⟨hmember, hs.lt_of_made (hs.made l o hmember)⟩
  have hob' : s.newValue.refs.heap.alive o = some ob := hob
  refine hs.newValue.setContent hob' (Content.blank_setElements ..) ?_ ?_ ?_
  · refine (hs.valid o ob hob).setElements fun k e hk => ?_
    rw [helements, SortedMap.find_assign] at hk
    split at hk
    · rename_i heq
      rw [heq]
      exact ⟨haccepts, hkey⟩
    · exact (hs.valid o ob hob).keys k e hk
  · rw [Content.nodup_members, helements]
    intro j k l hj hk
    rw [SortedMap.find_assign] at hj hk
    split at hj
    · split at hk
      · rename_i hj' hk'
        rw [hj', hk']
      · obtain rfl : s.next = l := Option.some.inj hj
        exact absurd (hold k _ hk).2 (Nat.lt_irrefl _)
    · split at hk
      · obtain rfl : s.next = l := Option.some.inj hk
        exact absurd (hold j _ hj).2 (Nat.lt_irrefl _)
      · have hnodup : (s.contents o).members.Nodup := by
          rw [← hs.members o ob hob]
          exact hs.distinct o ob hob
        exact Content.nodup_members.1 hnodup j k l hj hk
  · intro l hl
    obtain ⟨k, hk⟩ := Content.mem_members.1 hl
    rw [helements, SortedMap.find_assign] at hk
    rw [made_newValue]
    split at hk
    · obtain rfl : s.next = l := Option.some.inj hk
      refine ⟨.inl rfl, fun o' hin => ?_⟩
      exact absurd (hs.made _ o' hin) (hs.freshValue _ le_rfl)
    · obtain ⟨hmember, -⟩ := hold k l hk
      exact ⟨.inr (hs.made l o hmember), fun o' hin => hs.home l o' o hin hmember⟩

theorem Linked.exact_addElement (hs : Linked x s)
    (he : Exact s.refs.heap.objects s.refs.references) {ob : RefableImp}
    (hob : s.refs.heap.alive o = some ob) (key : Key) :
    Exact (s.addElement o key).refs.heap.objects (s.addElement o key).refs.references :=
  exact_setContent (s := s.newValue) hob _ (hs.exact_newValue he)

theorem Linked.memberOf_addElement (hs : Linked x s) {ob : RefableImp}
    (hob : s.refs.heap.alive o = some ob) {key : Key}
    (haccepts : (s.contents o).accepts x key = true) {o' : Nat}
    (hin : (s.addElement o key).refs.MemberOf l o') :
    l = s.next ∨ s.refs.MemberOf l o' := by
  obtain ⟨ob', hob', hin⟩ := hin
  have halive := alive_setContent (s := s.newValue) hob
    ((s.contents o).setElements ((s.contents o).elements.assign key s.next)) o'
  rw [ValueHeap.addElement, halive] at hob'
  split at hob'
  · rename_i heq
    cases hob'
    obtain ⟨k, hk⟩ := Content.mem_members.1 hin
    rw [Content.elements_setElements haccepts, SortedMap.find_assign] at hk
    split at hk
    · exact .inl (Option.some.inj hk).symm
    · exact .inr (heq ▸ (hs.memberOf_iff hob).2 ⟨k, hk⟩)
  · exact .inr ⟨ob', hob', hin⟩

theorem made_addElement (s : ValueHeap) (o : Nat) (key : Key) (l : Nat) :
    (s.addElement o key).refs.Made l ↔ l = s.next ∨ s.refs.Made l :=
  (made_setContent ..).trans (made_newValue s l)

theorem Linked.pointee_addElement (hs : Linked x s) (o : Nat) (key : Key) (l : Nat) :
    (s.addElement o key).refs.pointee l = s.refs.pointee l := by
  rw [ValueHeap.addElement, pointee_setContent, pointee_newValue]
  split
  · rename_i heq
    rw [heq, hs.pointee_next]
  · rfl

theorem slots_addElement (s : ValueHeap) (o : Nat) (key : Key) (l : Nat) :
    (s.addElement o key).slots l = if l = s.next then .null else s.slots l := by
  rw [ValueHeap.addElement, slots_setContent, slots_newValue]

theorem contents_addElement {ob : RefableImp} (hob : s.refs.heap.alive o = some ob) (key : Key)
    (y : Nat) : (s.addElement o key).contents y = if y = o then
      (s.contents o).setElements ((s.contents o).elements.assign key s.next) else s.contents y :=
  contents_setContent (s := s.newValue) hob _ y

theorem next_addElement (s : ValueHeap) (o : Nat) (key : Key) :
    (s.addElement o key).next = s.next + 1 := next_setContent ..

theorem Linked.references_addElement (hs : Linked x s) (o : Nat) (key : Key) (y : Nat) :
    (s.addElement o key).refs.references y = s.refs.references y := by
  rw [ValueHeap.addElement, references_setContent, hs.references_newValue]

theorem alive_addElement {ob : RefableImp} (hob : s.refs.heap.alive o = some ob) (key : Key)
    {y : Nat} (hy : s.refs.heap.alive y ≠ none) :
    (s.addElement o key).refs.heap.alive y ≠ none := by
  have halive := alive_setContent (s := s.newValue) hob
    ((s.contents o).setElements ((s.contents o).elements.assign key s.next)) y
  rw [ValueHeap.addElement, halive]
  split
  · simp
  · exact hy

/-! ## A value goes -/

theorem made_eraseValue (s : ValueHeap) (pv l : Nat) :
    (s.eraseValue pv).refs.Made l ↔ l ≠ pv ∧ s.refs.Made l := by
  show (s.refs.heap.refps.erase pv).find l ≠ none ↔ _
  rw [SortedMap.find_erase]
  split
  · rename_i heq
    simp [heq]
  · rename_i hne
    simp only [hne, ne_eq, not_false_eq_true, true_and]
    rfl

theorem pointee_eraseValue (s : ValueHeap) {pv l : Nat} (hne : l ≠ pv) :
    (s.eraseValue pv).refs.pointee l = s.refs.pointee l := by
  show ((s.refs.heap.refps.erase pv).find l).join = _
  rw [SortedMap.find_erase_of_ne hne]
  rfl

theorem references_eraseValue (hempty : s.refs.pointee pv = none) :
    (s.eraseValue pv).refs.references = s.refs.references := by
  funext o
  have hcount := SortedMap.count_eq_erase_add s.refs.heap.refps pv (some o)
  have hne : s.refs.heap.refps.find pv ≠ some (some o) := by
    intro h
    rw [RefRun.pointee, h] at hempty
    cases hempty
  rw [if_neg hne] at hcount
  show (s.refs.heap.refps.erase pv).count (some o) + s.refs.out o = _
  unfold RefRun.references
  omega

theorem Linked.eraseValue (hs : Linked x s) (hfree : ∀ o, ¬ s.refs.MemberOf pv o) :
    Linked x (s.eraseValue pv) := by
  refine hs.of_sub (fun o ob hob => ⟨ob, hob, rfl⟩) rfl le_rfl (fun l o hin => ?_)
    (fun l hl => ?_) (fun l hl hmade => ?_) fun _ h => h
  · refine (made_eraseValue s pv l).2 ⟨?_, hs.made l o hin⟩
    rintro rfl
    exact hfree o hin
  · obtain ⟨hne, hmade⟩ := (made_eraseValue s pv l).1 hl
    rw [pointee_eraseValue s hne]
    exact hs.typed l hmade
  · exact hs.freshValue l hl ((made_eraseValue s pv l).1 hmade).2

end ValueHeap

end Vin64.Xv
