import Vin64.Xv.Proofs.ValueSet

/-!
# Copying objects

`cloneTo` copies the data of an object into a new one; the loop over the elements of a container
sets a new element for each one.
-/

namespace Vin64.Xv

open Vin64.Lib Vin64.Utils

namespace ValueHeap

variable {x : Header} {s t u : ValueHeap} {vpIn vpOut o : Nat}

/-! ## One element -/

/-- Assigning to a null value releases nothing. -/
theorem Linked.assign_to_null (hs : Linked x s) (he : Exact s.refs.heap.objects s.refs.references)
    {r pv : Nat} (hpv : s.refs.Made pv) (hempty : s.refs.pointee pv = none)
    (hnull : s.slots pv = .null) (hr : s.refs.Made r)
    (hroom : ∀ o, s.refs.pointee r = some o → s.refs.references o + 1 < 4294967296) :
    ∃ t, s.assign r pv = some t ∧ Points s pv (s.slots r) (s.refs.pointee r) t ∧ Linked x t ∧
      Exact t.refs.heap.objects t.refs.references := by
  have hclear : s.valueClear pv = some s := by
    rw [hs.valueClear_of_empty hpv hempty, ValueHeap.setSlot, ← hnull, Function.update_eq_self]
  obtain ⟨t, hrun, hp, hexact⟩ := hs.valueSet_of_clear he hclear hpv hempty hr
  exact ⟨t, assign_of_valueSet hrun, hp, hp.linked hs (hs.typed r hr), hexact hroom⟩

/-- A new element of `o` that is what `item` is. -/
structure Adds (x : Header) (s : ValueHeap) (o : Nat) (key : Key) (item : Nat) (t : ValueHeap) :
    Prop where
  linked : Linked x t
  exact : Exact t.refs.heap.objects t.refs.references
  next : t.next = s.next + 2
  made : ∀ l, l < s.next → (t.refs.Made l ↔ s.refs.Made l)
  pointee : ∀ l, l < s.next → t.refs.pointee l = s.refs.pointee l
  slots : ∀ l, l < s.next → t.slots l = s.slots l
  contents : ∀ y, t.contents y = if y = o then
    (s.contents o).setElements ((s.contents o).elements.assign key (s.next + 1)) else s.contents y
  newPointee : t.refs.pointee (s.next + 1) = s.refs.pointee item
  newSlot : t.slots (s.next + 1) = s.slots item
  kept : ∀ y, s.refs.heap.alive y ≠ none → t.refs.heap.alive y ≠ none
  references : ∀ y, t.refs.references y =
    s.refs.references y + if s.refs.pointee item = some y then 1 else 0

/-- The temporary value goes, and its object has another reference. -/
theorem Linked.destroyValue_shared (hs : Linked x s)
    (he : Exact s.refs.heap.objects s.refs.references) {pv : Nat} (hpv : s.refs.Made pv)
    (hmore : ∀ o, s.refs.pointee pv = some o → 2 ≤ s.refs.references o)
    (hfree : ∀ o, ¬ s.refs.MemberOf pv o) :
    ∃ u, s.destroyValue pv = some (u.eraseValue pv) ∧ Repoints s pv .null none u ∧
      Linked x (u.eraseValue pv) ∧
      (∀ y, (u.eraseValue pv).refs.references y =
        s.refs.references y - if s.refs.pointee pv = some y then 1 else 0) ∧
      Exact (u.eraseValue pv).refs.heap.objects (u.eraseValue pv).refs.references := by
  obtain ⟨u, hclear, hu, hrefs, heu⟩ : ∃ u, s.valueClear pv = some u ∧ Repoints s pv .null none u ∧
      (∀ y, u.refs.references y =
        s.refs.references y - if s.refs.pointee pv = some y then 1 else 0) ∧
      Exact u.refs.heap.objects u.refs.references := by
    cases hp : s.refs.pointee pv with
    | none =>
        exact ⟨s.setSlot pv .null, hs.valueClear_of_empty hpv hp,
          (points_setSlot hp .null).toRepoints, fun y => by simp, he⟩
    | some o =>
        obtain ⟨u, hclear, hu, hrefs, heu⟩ := hs.valueClear_shared he hp (hmore o hp)
        refine ⟨u, hclear, hu, fun y => ?_, heu⟩
        simp only [hrefs, Option.some.injEq]
  have hempty : u.refs.pointee pv = none := by rw [hu.pointee, if_pos rfl]
  have hsame := references_eraseValue hempty
  have hlinked : Linked x u := hu.linked hs ⟨rfl, nofun⟩
  refine ⟨u, ?_, hu, hlinked.eraseValue fun o hin => ?_, fun y => ?_, ?_⟩
  · simp only [destroyValue, hclear, Option.bind_eq_bind, Option.bind_some]
  · exact hfree o (hu.memberOf hin)
  · rw [hsame, hrefs]
  · rw [hsame]
    exact heu

/-- A value at a new address, which is what `r` is. -/
structure NewCopy (x : Header) (s : ValueHeap) (r : Nat) (t : ValueHeap) : Prop where
  linked : Linked x t
  exact : Exact t.refs.heap.objects t.refs.references
  next : t.next = s.next + 1
  made : ∀ l, t.refs.Made l ↔ l = s.next ∨ s.refs.Made l
  pointee : ∀ l, t.refs.pointee l = if l = s.next then s.refs.pointee r else s.refs.pointee l
  slots : ∀ l, t.slots l = if l = s.next then s.slots r else s.slots l
  kept : ∀ y, s.refs.heap.alive y ≠ none → t.refs.heap.alive y ≠ none
  references : ∀ y, t.refs.references y =
    s.refs.references y + if s.refs.pointee r = some y then 1 else 0

/-- The temporary value of `set`. -/
theorem Linked.copyNew (hs : Linked x s) (he : Exact s.refs.heap.objects s.refs.references)
    {r : Nat} (hr : s.refs.Made r)
    (hroom : ∀ y, s.refs.pointee r = some y → s.refs.references y + 1 < 4294967296) :
    ∃ t, s.newValue.assign r s.next = some t ∧ NewCopy x s r t ∧ t.contents = s.contents ∧
      ∀ l y, t.refs.MemberOf l y → s.refs.MemberOf l y := by
  have hlt := hs.lt_of_made hr
  have hpointee : ∀ l, s.newValue.refs.pointee l = s.refs.pointee l := by
    intro l
    rw [pointee_newValue]
    split
    · rename_i heq
      rw [heq, hs.pointee_next]
    · rfl
  have hslot : s.newValue.slots r = s.slots r := by rw [slots_newValue, if_neg (by omega)]
  obtain ⟨t, hassign, ht, hl, hexact⟩ := hs.newValue.assign_to_null (hs.exact_newValue he)
    ((made_newValue s _).2 (.inl rfl)) ((hpointee _).trans hs.pointee_next)
    (by rw [slots_newValue, if_pos rfl]) ((made_newValue s r).2 (.inr hr)) fun y hy => by
      rw [hs.references_newValue]
      exact hroom y ((hpointee r).symm.trans hy)
  refine ⟨t, hassign, ⟨hl, hexact, ht.next, fun l => (ht.made l).trans (made_newValue s l),
    fun l => ?_, fun l => ?_, ht.kept, fun y => ?_⟩, ht.contents, fun l y => ht.memberOf⟩
  · rw [ht.pointee, hpointee, hpointee]
  · rw [ht.slots, hslot]
    split
    · rfl
    · rename_i hne
      rw [slots_newValue, if_neg hne]
  · rw [ht.references, hpointee, hs.references_newValue]

/-- The new element that `r` is assigned to. -/
theorem Linked.copyElement (hs : Linked x s) (he : Exact s.refs.heap.objects s.refs.references)
    {ob : RefableImp} (hob : s.refs.heap.alive o = some ob) {key : Key} {r : Nat}
    (haccepts : (s.contents o).accepts x key = true) (hkey : key.cstr = key)
    (hr : s.refs.Made r)
    (hroom : ∀ y, s.refs.pointee r = some y → s.refs.references y + 1 < 4294967296) :
    ∃ t, (s.addElement o key).assign r s.next = some t ∧ NewCopy x s r t ∧
      t.contents = (s.addElement o key).contents ∧
      ∀ l y, t.refs.MemberOf l y → l = s.next ∨ s.refs.MemberOf l y := by
  have hlt := hs.lt_of_made hr
  have hpointee : ∀ l, (s.addElement o key).refs.pointee l = s.refs.pointee l :=
    hs.pointee_addElement o key
  have hslot : (s.addElement o key).slots r = s.slots r := by
    rw [slots_addElement, if_neg (by omega)]
  obtain ⟨t, hassign, ht, hl, hexact⟩ := (hs.addElement hob haccepts hkey).assign_to_null
    (hs.exact_addElement he hob key) ((made_addElement s o key _).2 (.inl rfl))
    ((hpointee _).trans hs.pointee_next) (by rw [slots_addElement, if_pos rfl])
    ((made_addElement s o key r).2 (.inr hr)) fun y hy => by
      rw [hs.references_addElement]
      exact hroom y ((hpointee r).symm.trans hy)
  refine ⟨t, hassign, ⟨hl, hexact, by rw [ht.next, next_addElement],
    fun l => (ht.made l).trans (made_addElement s o key l), fun l => ?_, fun l => ?_,
    fun y hy => ht.kept y (alive_addElement hob key hy), fun y => ?_⟩, ht.contents,
    fun l y hin => hs.memberOf_addElement hob haccepts (ht.memberOf hin)⟩
  · rw [ht.pointee, hpointee, hpointee]
  · rw [ht.slots, hslot]
    split
    · rfl
    · rename_i hne
      rw [slots_addElement, if_neg hne]
  · rw [ht.references, hpointee, hs.references_addElement]

/-- `set` of a key that is new to the container. -/
theorem Linked.setElement_new (hs : Linked x s) (he : Exact s.refs.heap.objects s.refs.references)
    {ob : RefableImp} (hob : s.refs.heap.alive o = some ob) {key : Key} {item : Nat}
    (haccepts : (s.contents o).accepts x key = true) (hkey : key.cstr = key)
    (hfind : (s.contents o).elements.find key = none) (hitem : s.refs.Made item)
    (hroom : ∀ y, s.refs.pointee item = some y → s.refs.references y + 2 < 4294967296) :
    ∃ t, s.setElement x o key item = some (true, t) ∧ Adds x s o key item t := by
  -- the temporary value
  obtain ⟨b, hassign, hb, hbcontents, hbmember⟩ :=
    hs.copyNew he hitem fun y hy => by have hy' := hroom y hy; omega
  have hbnext : b.next = s.next + 1 := hb.next
  have hbtmp : b.refs.pointee s.next = s.refs.pointee item := by rw [hb.pointee, if_pos rfl]
  have hbslot : b.slots s.next = s.slots item := by rw [hb.slots, if_pos rfl]
  obtain ⟨ob', hob'⟩ := Option.ne_none_iff_exists'.1 (hb.kept o (by rw [hob]; simp))
  -- the element
  obtain ⟨d, hassign', hd, hdcontents, hdmember⟩ := hb.linked.copyElement hb.exact hob'
    (show (b.contents o).accepts x key = true by rw [hbcontents]; exact haccepts) hkey
    ((hb.made s.next).2 (.inl rfl)) fun y hy => by
      have hy' : s.refs.pointee item = some y := hbtmp.symm.trans hy
      have hroom' := hroom y hy'
      rw [hb.references, if_pos hy']
      omega
  have hdtmp : d.refs.pointee s.next = s.refs.pointee item := by
    rw [hd.pointee, if_neg (by omega), hbtmp]
  have hdrefs : ∀ y, d.refs.references y = s.refs.references y +
      (if s.refs.pointee item = some y then 1 else 0) +
      if s.refs.pointee item = some y then 1 else 0 := by
    intro y
    rw [hd.references, hbtmp, hb.references]
  -- the temporary value goes
  obtain ⟨u, hdestroy, hu, hlu, hurefs, heu⟩ := hd.linked.destroyValue_shared hd.exact
    ((hd.made s.next).2 (.inr ((hb.made s.next).2 (.inl rfl))))
    (fun y hy => by
      rw [hdtmp] at hy
      rw [hdrefs, if_pos hy]
      omega)
    (fun y hin => by
      rcases hdmember _ y hin with heq | hin
      · omega
      · exact hs.freshValue s.next le_rfl (hs.made _ y (hbmember _ y hin)))
  refine ⟨u.eraseValue s.next, ?_, ?_⟩
  · have helement : b.element o key = (b.next, b.addElement o key) :=
      element_of_new (by rw [hbcontents]; exact hfind)
    simp only [ValueHeap.setElement, content_of_alive hob, hkey, haccepts, if_true, hassign,
      helement, hassign', hdestroy, Option.bind_eq_bind, Option.bind_some]
  · have hupointee : ∀ l, l ≠ s.next → (u.eraseValue s.next).refs.pointee l =
        if l = b.next then s.refs.pointee item else s.refs.pointee l := by
      intro l hl
      rw [pointee_eraseValue u hl, hu.pointee, if_neg hl, hd.pointee, hbtmp, hb.pointee, if_neg hl]
    have huslots : ∀ l, l ≠ s.next → (u.eraseValue s.next).slots l =
        if l = b.next then s.slots item else s.slots l := by
      intro l hl
      show u.slots l = _
      rw [hu.slots, if_neg hl, hd.slots, hbslot, hb.slots, if_neg hl]
    refine ⟨hlu, heu, ?_, fun l hl => ?_, fun l hl => ?_, fun l hl => ?_, fun y => ?_, ?_, ?_,
      fun y hy => ?_, fun y => ?_⟩
    · show u.next = _
      rw [hu.next, hd.next, hbnext]
    · rw [made_eraseValue, hu.made, hd.made, hb.made]
      constructor
      · rintro ⟨-, heq | heq | hmade⟩
        · omega
        · omega
        · exact hmade
      · exact fun hmade => ⟨by omega, .inr (.inr hmade)⟩
    · rw [hupointee l (by omega), if_neg (by omega)]
    · rw [huslots l (by omega), if_neg (by omega)]
    · show u.contents y = _
      rw [hu.contents, hdcontents, contents_addElement hob', hbcontents, hbnext]
    · rw [← hbnext, hupointee b.next (by omega), if_pos rfl]
    · rw [← hbnext, huslots b.next (by omega), if_pos rfl]
    · exact hu.kept y (hd.kept y (hb.kept y hy))
    · rw [hurefs, hdrefs, hdtmp]
      omega

/-! ## All elements -/

/-- The elements of `o` that the loop has copied into `po`, which was empty in `s`. -/
structure Copied (x : Header) (s : ValueHeap) (po : Nat) (copied : List (Key × Nat))
    (t : ValueHeap) : Prop where
  linked : Linked x t
  exact : Exact t.refs.heap.objects t.refs.references
  next : s.next ≤ t.next
  made : ∀ l, l < s.next → (t.refs.Made l ↔ s.refs.Made l)
  pointee : ∀ l, l < s.next → t.refs.pointee l = s.refs.pointee l
  slots : ∀ l, l < s.next → t.slots l = s.slots l
  contents : ∀ y, y ≠ po → t.contents y = s.contents y
  blank : (t.contents po).blank = (s.contents po).blank
  kept : ∀ y, s.refs.heap.alive y ≠ none → t.refs.heap.alive y ≠ none
  present : ∀ key l, (key, l) ∈ copied → ∃ e, (t.contents po).elements.find key = some e ∧
    t.slots e = s.slots l ∧ t.refs.pointee e = s.refs.pointee l
  absent : ∀ key, key ∉ copied.map Prod.fst → (t.contents po).elements.find key = none
  references : ∀ y, t.refs.references y =
    s.refs.references y + copied.countP fun e => s.refs.pointee e.2 = some y

theorem Copied.step {po item : Nat} {k : Key} {copied : List (Key × Nat)}
    (hc : Copied x s po copied t) (hpo : s.refs.heap.alive po ≠ none) (hs : Linked x s)
    (haccepts : (s.contents po).accepts x k = true) (hkey : k.cstr = k)
    (hnew : k ∉ copied.map Prod.fst) (hitem : s.refs.Made item)
    (hroom : ∀ y, s.refs.references y +
      (copied ++ [(k, item)]).countP (fun e => s.refs.pointee e.2 = some y) + 1 < 4294967296) :
    ∃ u, t.setElement x po k item = some (true, u) ∧ Copied x s po (copied ++ [(k, item)]) u := by
  have hlt := hs.lt_of_made hitem
  obtain ⟨ob, hob⟩ := Option.ne_none_iff_exists'.1 (hc.kept po hpo)
  have hcount : ∀ y, (copied ++ [(k, item)]).countP (fun e => s.refs.pointee e.2 = some y) =
      copied.countP (fun e => s.refs.pointee e.2 = some y) +
        if s.refs.pointee item = some y then 1 else 0 := by
    intro y
    rw [List.countP_append, List.countP_singleton]
    simp only [decide_eq_true_eq]
  have haccepts' : (t.contents po).accepts x k = true := by
    rw [Content.accepts_of_blank hc.blank]
    exact haccepts
  obtain ⟨u, hrun, ha⟩ := hc.linked.setElement_new hc.exact hob haccepts' hkey (hc.absent k hnew)
    ((hc.made item hlt).2 hitem) (fun y hy => by
      have hroom' := hroom y
      rw [hc.pointee item hlt] at hy
      rw [hcount, if_pos hy] at hroom'
      rw [hc.references]
      omega)
  have helements : (u.contents po).elements = (t.contents po).elements.assign k (t.next + 1) := by
    rw [ha.contents, if_pos rfl, Content.elements_setElements haccepts']
  have hnext := hc.next
  refine ⟨u, hrun, ha.linked, ha.exact, by rw [ha.next]; omega, fun l hl => ?_, fun l hl => ?_,
    fun l hl => ?_, fun y hy => ?_, ?_, fun y hy => ha.kept y (hc.kept y hy), fun j l hjl => ?_,
    fun j hj => ?_, fun y => ?_⟩
  · exact (ha.made l (by omega)).trans (hc.made l hl)
  · exact (ha.pointee l (by omega)).trans (hc.pointee l hl)
  · exact (ha.slots l (by omega)).trans (hc.slots l hl)
  · rw [ha.contents, if_neg hy, hc.contents y hy]
  · rw [ha.contents, if_pos rfl, Content.blank_setElements, hc.blank]
  · rw [helements, SortedMap.find_assign]
    rcases List.mem_append.1 hjl with hin | hin
    · have hne : j ≠ k := by
        rintro rfl
        exact hnew (List.mem_map.2 ⟨_, hin, rfl⟩)
      obtain ⟨e, he, hslot, hp⟩ := hc.present j l hin
      have helt := hc.linked.lt_of_made
        (hc.linked.made e po ((hc.linked.memberOf_iff hob).2 ⟨j, he⟩))
      refine ⟨e, by rw [if_neg hne]; exact he, ?_, ?_⟩
      · rw [ha.slots e helt, hslot]
      · rw [ha.pointee e helt, hp]
    · obtain ⟨rfl, rfl⟩ := Prod.mk.inj (List.mem_singleton.1 hin)
      refine ⟨t.next + 1, if_pos rfl, ?_, ?_⟩
      · rw [ha.newSlot, hc.slots l hlt]
      · rw [ha.newPointee, hc.pointee l hlt]
  · rw [List.map_append, List.mem_append, not_or] at hj
    have hne : j ≠ k := by
      rintro rfl
      exact hj.2 (List.mem_singleton_self _)
    rw [helements, SortedMap.find_assign_of_ne _ hne]
    exact hc.absent j hj.1
  · rw [ha.references, hc.references, hcount, hc.pointee item hlt, Nat.add_assoc]

/-- The loop sets every element. -/
theorem Copied.loop {po : Nat} (rest : List (Key × Nat)) {copied : List (Key × Nat)}
    (hc : Copied x s po copied t) (hpo : s.refs.heap.alive po ≠ none) (hs : Linked x s)
    (hkeys : ∀ e ∈ rest, (s.contents po).accepts x e.1 = true ∧ e.1.cstr = e.1)
    (hnodup : ((copied ++ rest).map Prod.fst).Nodup) (hitems : ∀ e ∈ rest, s.refs.Made e.2)
    (hroom : ∀ y, s.refs.references y +
      (copied ++ rest).countP (fun e => s.refs.pointee e.2 = some y) + 1 < 4294967296) :
    ∃ u, t.setElements x po rest = some (true, u) ∧ Copied x s po (copied ++ rest) u := by
  induction rest generalizing copied t with
  | nil =>
      rw [List.append_nil]
      exact ⟨t, rfl, hc⟩
  | cons e rest ih =>
      obtain ⟨k, item⟩ := e
      have hsplit : copied ++ (k, item) :: rest = copied ++ [(k, item)] ++ rest := by simp
      have hkey : (s.contents po).accepts x k = true ∧ k.cstr = k :=
        hkeys (k, item) (List.mem_cons_self ..)
      have hnew : k ∉ copied.map Prod.fst := by
        intro hin
        rw [List.map_append, List.nodup_append] at hnodup
        exact hnodup.2.2 k hin k (by simp) rfl
      have hitem : s.refs.Made item := hitems (k, item) (List.mem_cons_self ..)
      obtain ⟨u, hrun, hu⟩ := hc.step hpo hs hkey.1 hkey.2 hnew hitem (fun y => by
          have hroom' := hroom y
          rw [hsplit, List.countP_append] at hroom'
          omega)
      obtain ⟨u', hrun', hu'⟩ := ih hu (fun e he => hkeys e (List.mem_cons_of_mem _ he))
        (hsplit ▸ hnodup) (fun e he => hitems e (List.mem_cons_of_mem _ he)) (hsplit ▸ hroom)
      refine ⟨u', ?_, hsplit ▸ hu'⟩
      simp only [ValueHeap.setElements, hrun, Option.bind_eq_bind, Option.bind_some]
      exact hrun'

/-- Each value that points to an object is one of the references to it. -/
theorem countP_pointee_le {ls : List Nat} (hnodup : ls.Nodup) (hmade : ∀ l ∈ ls, s.refs.Made l)
    (y : Nat) : ls.countP (fun l => s.refs.pointee l = some y) ≤ s.refs.references y := by
  let entry : Nat → Nat × Option Nat := fun l => (l, s.refs.pointee l)
  have hinj : Function.Injective entry := fun l m h => congrArg Prod.fst h
  have hsub : ls.map entry ⊆ s.refs.heap.refps.entries := by
    intro e he
    obtain ⟨l, hl, rfl⟩ := List.mem_map.1 he
    exact SortedMap.find_eq_some_iff.1 (find_eq_pointee (hmade l hl))
  have hle := (List.subperm_of_subset (hnodup.map hinj) hsub).countP_le fun e => e.2 = some y
  rw [List.countP_map] at hle
  unfold RefRun.references SortedMap.count
  have hsame : ls.countP (fun l => decide (s.refs.pointee l = some y)) =
      ls.countP ((fun e : Nat × Option Nat => decide (e.2 = some y)) ∘ entry) := rfl
  omega

/-! ## The data of an object -/

/-- `po` has the data of `o`, with elements of its own; the values that there were are kept. -/
structure CopyOf (s : ValueHeap) (o po : Nat) (t : ValueHeap) : Prop where
  made : ∀ l, s.refs.Made l → t.refs.Made l
  pointee : ∀ l, s.refs.Made l → t.refs.pointee l = s.refs.pointee l
  slots : ∀ l, s.refs.Made l → t.slots l = s.slots l
  contents : ∀ y, y ≠ po → t.contents y = s.contents y
  surface : (t.contents po).surface po = (s.contents o).surface o
  present : ∀ key l, (s.contents o).elements.find key = some l →
    ∃ e, (t.contents po).elements.find key = some e ∧
      t.slots e = s.slots l ∧ t.refs.pointee e = s.refs.pointee l
  absent : ∀ key, (s.contents o).elements.find key = none →
    (t.contents po).elements.find key = none

theorem copyOf_setContent {po : Nat} {ob : RefableImp} (hpo : s.refs.heap.alive po = some ob)
    {c : Content} (hsurface : c.surface po = (s.contents o).surface o)
    (hc : c.elements = .empty) (ho : (s.contents o).elements = .empty) :
    CopyOf s o po (s.setContent po c) where
  made l hl := (made_setContent s po c l).2 hl
  pointee l _ := pointee_setContent s po c l
  slots l _ := by rw [slots_setContent]
  contents y hy := by rw [contents_setContent hpo, if_neg hy]
  surface := by rw [contents_setContent hpo, if_pos rfl, hsurface]
  present key l hl := by
    rw [ho] at hl
    cases hl
  absent key _ := by
    rw [contents_setContent hpo, if_pos rfl, hc]
    rfl

/-- The loop of `cloneTo`, from an object without elements. -/
theorem WellFormed.setElements_new (hs : WellFormed x s) {po : Nat} {ob : RefableImp}
    (hob : s.refs.heap.alive o = some ob) (hpo : s.refs.heap.alive po ≠ none)
    (hnew : s.contents po = (s.contents o).blank)
    (hempty : (s.contents o).blank.elements = .empty)
    (hsurface : ∀ c : Content, c.blank = (s.contents o).blank →
      c.surface po = (s.contents o).surface o) :
    ∃ t, s.setElements x po (s.contents o).elements.entries = some (true, t) ∧
      CopyOf s o po t := by
  have hmembers := hs.members o ob hob
  have hnodup : (s.contents o).members.Nodup := hmembers ▸ hs.distinct o ob hob
  have hmade : ∀ l ∈ (s.contents o).members, s.refs.Made l := fun l hl =>
    hs.made l o ⟨ob, hob, hmembers ▸ hl⟩
  have hkeys : ((s.contents o).elements.entries.map Prod.fst).Nodup :=
    List.pairwise_map.2 ((s.contents o).elements.sorted.imp fun hlt => hlt.ne)
  have hstart : Copied x s po [] s := by
    refine ⟨hs.toLinked, hs.sound.exact, le_rfl, fun _ _ => Iff.rfl, fun _ _ => rfl,
      fun _ _ => rfl, fun _ _ => rfl, rfl, fun _ h => h, nofun, fun key _ => ?_, fun _ => rfl⟩
    rw [hnew, hempty]
    rfl
  obtain ⟨t, hrun, hc⟩ := hstart.loop (s.contents o).elements.entries hpo hs.toLinked
    (fun e he => by
      have hkey := (hs.valid o ob hob).keys e.1 e.2 (SortedMap.find_eq_some_iff.2 he)
      rw [hnew, Content.accepts_of_blank (Content.blank_blank _)]
      exact hkey)
    hkeys (fun e he => hmade e.2 (List.mem_map.2 ⟨e, he, rfl⟩))
    (fun y => by
      have hcount := countP_pointee_le hnodup hmade y
      have hbound := Balanced.refs_lt hs.sound y
      rw [Content.members, List.countP_map] at hcount
      have hsame : ([] ++ (s.contents o).elements.entries).countP
          (fun e : Key × Nat => decide (s.refs.pointee e.2 = some y)) =
          (s.contents o).elements.entries.countP
            ((fun l => decide (s.refs.pointee l = some y)) ∘ Prod.snd) := rfl
      omega)
  refine ⟨t, hrun, fun l hl => (hc.made l (hs.lt_of_made hl)).2 hl,
    fun l hl => hc.pointee l (hs.lt_of_made hl),
    fun l hl => hc.slots l (hs.lt_of_made hl), hc.contents, hsurface _ ?_, fun key l hl => ?_,
    fun key hkey => hc.absent key fun hin => ?_⟩
  · rw [hc.blank, hnew, Content.blank_blank]
  · exact hc.present key l (SortedMap.find_eq_some_iff.1 hl)
  · obtain ⟨e, he, heq⟩ := List.mem_map.1 hin
    have hfound := SortedMap.find_eq_some_iff.2 he
    rw [heq, hkey] at hfound
    cases hfound

/-- `cloneTo` copies everything but an empty buffer. -/
theorem WellFormed.cloneTo (hs : WellFormed x s) {po : Nat} {ob ob' : RefableImp}
    (hob : s.refs.heap.alive o = some ob) (hpo : s.refs.heap.alive po = some ob')
    (hnew : s.contents po = (s.contents o).blank) (hknown : s.contents o ≠ .unknown)
    (hfull : s.contents o ≠ .buffer []) :
    ∃ t, s.cloneTo x o po = some (true, t) ∧ CopyOf s o po t := by
  have hpo' : s.refs.heap.alive po ≠ none := by
    rw [hpo]
    simp
  have hloop := hs.setElements_new hob hpo' hnew
  have hvalid := hs.valid o ob hob
  cases hc : s.contents o with
  | stringA str =>
      rw [hc] at hnew
      refine ⟨s.setContent po (.stringA str), ?_, copyOf_setContent hpo ?_ rfl ?_⟩
      · simp only [ValueHeap.cloneTo, assignA, content_of_alive hob, content_of_alive hpo, hc, hnew,
          Content.blank, Option.bind_eq_bind, Option.bind_some, Option.getD_some,
          hvalid.stringA str hc]
      · rw [hc]
        rfl
      · rw [hc]
        rfl
  | stringW str =>
      rw [hc] at hnew
      refine ⟨s.setContent po (.stringW str), ?_, copyOf_setContent hpo ?_ rfl ?_⟩
      · simp only [ValueHeap.cloneTo, assignW, content_of_alive hob, content_of_alive hpo, hc, hnew,
          Content.blank, Option.bind_eq_bind, Option.bind_some, Option.getD_some,
          hvalid.stringW str hc]
      · rw [hc]
        rfl
      · rw [hc]
        rfl
  | buffer bytes =>
      rw [hc] at hnew hfull
      have hbytes : bytes.isEmpty = false := by
        cases bytes with
        | nil => exact absurd rfl hfull
        | cons b bytes => rfl
      refine ⟨s.setContent po (.buffer bytes), ?_, copyOf_setContent hpo ?_ rfl ?_⟩
      · simp only [ValueHeap.cloneTo, assignBuffer, base, content_of_alive hob,
          content_of_alive hpo, hc, hnew, hbytes, Content.blank, Option.bind_eq_bind,
          Option.bind_some, Bool.false_eq_true, if_false]
      · rw [hc]
        rfl
      · rw [hc]
        rfl
  | array elements =>
      rw [hc] at hloop hnew
      obtain ⟨t, hrun, hcopy⟩ := hloop rfl fun c hblank => by
        cases c <;> first | rfl | cases hblank
      refine ⟨t, ?_, hcopy⟩
      simp only [ValueHeap.cloneTo, clear, content_of_alive hob, content_of_alive hpo, hc, hnew,
        Content.blank, Option.bind_eq_bind, Option.bind_some]
      exact hrun
  | object elements =>
      rw [hc] at hloop hnew
      obtain ⟨t, hrun, hcopy⟩ := hloop rfl fun c hblank => by
        cases c <;> first | rfl | cases hblank
      refine ⟨t, ?_, hcopy⟩
      simp only [ValueHeap.cloneTo, clear, content_of_alive hob, content_of_alive hpo, hc, hnew,
        Content.blank, Option.bind_eq_bind, Option.bind_some]
      exact hrun
  | unknown => exact absurd hc hknown

end ValueHeap

end Vin64.Xv
