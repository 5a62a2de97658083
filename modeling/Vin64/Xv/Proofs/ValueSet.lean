import Vin64.Xv.Proofs.HeapObjects

/-!
# Assigning values

`ValueSet` clears the destination before it reads the source.
-/

namespace Vin64.Xv

open Vin64.Lib Vin64.Utils

namespace ValueHeap

variable {x : Header} {s t u : ValueHeap} {vpIn vpOut : Nat}

/-- What a successful call went through. -/
theorem clear_of_valueSet {b : Bool} (hrun : s.valueSet vpIn vpOut = some (b, t)) :
    ∃ u, s.valueClear vpOut = some u ∧ u.refs.Made vpIn := by
  obtain ⟨u, hclear, hrest⟩ := Option.bind_eq_some_iff.1 hrun
  obtain ⟨v, hv, -⟩ := Option.bind_eq_some_iff.1 hrest
  exact ⟨u, hclear, (made_of_slot hv).1⟩

/-- `ValueSet` returns true whenever it gets to the source. -/
theorem WellFormed.valueSet (hs : WellFormed x s) (hclear : s.valueClear vpOut = some u)
    (hin : u.refs.Made vpIn) :
    ∃ t, s.valueSet vpIn vpOut = some (true, t) ∧
      Points u vpOut (u.slots vpIn) (u.refs.pointee vpIn) t ∧
      ((∀ o, u.refs.pointee vpIn = some o → u.refs.references o + 1 < 4294967296) →
        Exact t.refs.heap.objects t.refs.references) := by
  have hc := hs.clears hclear
  have hmade := made_of_valueClear hclear
  have hout : u.refs.Made vpOut :=
    (hc.made vpOut).2 ⟨hmade, fun ⟨o, hin, hdoomed⟩ => hc.survives o hin hdoomed⟩
  have hempty : u.refs.pointee vpOut = none := by rw [hc.pointee vpOut hout, if_pos rfl]
  exact hc.wellFormed.toLinked.valueSet_of_clear hc.wellFormed.sound.exact hclear hout hempty hin

theorem view_child_eq {l m : Nat} (hp : t.refs.pointee l = s.refs.pointee m)
    (hcontents : ∀ o, s.refs.pointee m = some o → t.contents o = s.contents o) (key : Key) :
    t.view.child l key = s.view.child m key := by
  show ((t.refs.pointee l).bind _) = (s.refs.pointee m).bind _
  rw [hp]
  cases ho : s.refs.pointee m with
  | none => rfl
  | some o => rw [Option.bind_some, Option.bind_some, hcontents o ho]

theorem view_label_eq {l m : Nat} (hslot : t.slots l = s.slots m)
    (hp : t.refs.pointee l = s.refs.pointee m)
    (hcontents : ∀ o, s.refs.pointee m = some o → t.contents o = s.contents o) :
    t.view.label l = s.view.label m := by
  show Shown.mk _ _ = Shown.mk _ _
  rw [hslot, hp]
  cases ho : s.refs.pointee m with
  | none => rfl
  | some o => rw [Option.map_some, Option.map_some, hcontents o ho]

theorem own_eq_some_iff {pv o : Nat} :
    s.own pv = some o ↔ (s.slots pv).type ≠ .dUnknown ∧ s.refs.pointee pv = some o := by
  unfold own
  split
  · rename_i h
    simp [h]
  · rename_i h
    simp [h]

/-- What the value at `pv` holds is as it was. -/
def Unchanged (s : ValueHeap) (pv : Nat) (t : ValueHeap) : Prop :=
  ∀ l, s.view.Reaches pv l → t.refs.Made l ∧ t.slots l = s.slots l ∧
    t.refs.pointee l = s.refs.pointee l ∧ ∀ o, s.refs.pointee l = some o →
      t.contents o = s.contents o

theorem Unchanged.agree {pv l : Nat} (h : Unchanged s pv t) (hl : s.view.Reaches pv l) :
    KeyedGraph.Agree t.view s.view l := by
  obtain ⟨-, hslot, hp, hcontents⟩ := h l hl
  exact ⟨view_label_eq hslot hp hcontents, view_child_eq hp hcontents⟩

theorem Unchanged.sameAs {pv : Nat} (h : Unchanged s pv t) : t.view.SameAs pv s.view pv :=
  KeyedGraph.sameAs_of_agree fun _ hl => h.agree hl

theorem Unchanged.reaches_iff {pv l : Nat} (h : Unchanged s pv t) :
    t.view.Reaches pv l ↔ s.view.Reaches pv l :=
  KeyedGraph.reaches_iff_of_agree fun _ hl => h.agree hl

/-- The source, seen from the destination. -/
theorem Clears.redirects (hc : Clears x s vpOut u) (hne : vpIn ≠ vpOut) (hin : u.refs.Made vpIn)
    (hp : Points u vpOut (u.slots vpIn) (u.refs.pointee vpIn) t) :
    KeyedGraph.Redirects s.view t.view vpIn vpOut u.refs.Made := by
  have hpointee : ∀ l, u.refs.Made l → l ≠ vpOut → u.refs.pointee l = s.refs.pointee l := by
    intro l hl hne
    rw [hc.pointee l hl, if_neg hne]
  have hslots : ∀ l, l ≠ vpOut → u.slots l = s.slots l := by
    intro l hne
    rw [hc.slots l, if_neg hne]
  have hcontents : ∀ o, t.contents o = s.contents o := fun o => by rw [hp.contents, hc.contents]
  have hout : t.refs.pointee vpOut = s.refs.pointee vpIn := by
    rw [hp.pointee, if_pos rfl, hpointee vpIn hin hne]
  refine ⟨view_label_eq ?_ hout fun o _ => hcontents o, view_child_eq hout fun o _ => hcontents o,
    hin, fun i key j hi hne' hchild => ?_, fun i hi hne' => ?_⟩
  · rw [hp.slots, if_pos rfl, hslots vpIn hne]
  · have hchild' : u.view.child i key = s.view.child i key :=
      view_child_eq (hpointee i hi hne') (fun o _ => by rw [hc.contents]) key
    exact hc.wellFormed.made_child hc.wellFormed.sound.exact (hchild'.trans hchild)
  · have hpi : t.refs.pointee i = s.refs.pointee i := by
      rw [hp.pointee, if_neg hne', hpointee i hi hne']
    refine ⟨view_label_eq ?_ hpi fun o _ => hcontents o, view_child_eq hpi fun o _ => hcontents o⟩
    rw [hp.slots, if_neg hne', hslots i hne']

theorem assign_of_valueSet (hrun : s.valueSet vpIn vpOut = some (true, t)) :
    s.assign vpIn vpOut = some t := by
  simp only [assign, hrun, Option.bind_eq_bind, Option.bind_some]

theorem pointee_of_null {l : Nat} (hs : Linked x s) (hmade : s.refs.Made l)
    (hnull : s.slots l = .null) : s.refs.pointee l = none :=
  hs.pointee_of_scalar hmade (by rw [hnull]; rfl) (by rw [hnull]; nofun)

/-- A value without a pointer shows only its label. -/
theorem sameAs_of_empty {l m : Nat} (hslot : t.slots l = s.slots m)
    (hl : t.refs.pointee l = none) (hm : s.refs.pointee m = none) :
    t.view.SameAs l s.view m := by
  have hp : t.refs.pointee l = s.refs.pointee m := by rw [hl, hm]
  have hnone : ∀ o, s.refs.pointee m = some o → t.contents o = s.contents o := by
    intro o ho
    rw [hm] at ho
    cases ho
  refine KeyedGraph.sameAs_of_children (view_label_eq hslot hp hnone) (fun key hkey => ?_)
    (fun key e hkey => ?_)
  · rw [← view_child_eq hp hnone key, hkey]
  · rw [view_child_eq hp hnone key, show s.view.child m key = none by
      show (s.refs.pointee m).bind _ = none
      rw [hm]
      rfl] at hkey
    cases hkey

/-- A value assigned to itself is null afterwards. -/
theorem WellFormed.assigns_self_iff (hs : WellFormed x s) (hmade : s.refs.Made vpIn) :
    s.Assigns vpIn vpIn ↔ s.slots vpIn = .null := by
  constructor
  · rintro ⟨t, hrun, -, hsame⟩
    obtain ⟨u, hclear, hin⟩ := clear_of_valueSet hrun
    have hc := hs.clears hclear
    obtain ⟨t', hrun', hp, -⟩ := hs.valueSet hclear hin
    obtain rfl : t' = t := congrArg Prod.snd (Option.some.inj (hrun'.symm.trans hrun))
    have hlabel := Option.some.inj (hsame [])
    have hslot : t'.slots vpIn = s.slots vpIn := congrArg Shown.slot hlabel
    rw [← hslot, hp.slots, if_pos rfl, hc.slots, if_pos rfl]
  · intro hnull
    have hempty := pointee_of_null hs.toLinked hmade hnull
    have hclear := hs.valueClear_of_empty hmade hempty
    have hmade' : (s.setSlot vpIn .null).refs.Made vpIn := hmade
    obtain ⟨t, hrun, hp, -⟩ := hs.valueSet hclear hmade'
    refine ⟨t, hrun, assign_of_valueSet hrun, sameAs_of_empty ?_ ?_ hempty⟩
    · rw [hp.slots, if_pos rfl, slots_setSlot, if_pos rfl, hnull]
    · rw [hp.pointee, if_pos rfl]
      exact hempty

/-- `ValueSet` leaves what the source was exactly where the condition says. -/
theorem assigns_iff (hs : WellFormed x s) (hin : s.refs.Made vpIn) (hout : s.refs.Made vpOut) :
    s.Assigns vpIn vpOut ↔ s.Assignable vpIn vpOut := by
  unfold Assignable
  split
  · rename_i heq
    subst heq
    exact hs.assigns_self_iff hin
  · rename_i hne
    constructor
    · rintro ⟨t, hrun, -, hsame⟩
      obtain ⟨u, hclear, hin'⟩ := clear_of_valueSet hrun
      have hc := hs.clears hclear
      obtain ⟨t', hrun', hp, -⟩ := hs.valueSet hclear hin'
      obtain rfl : t' = t := congrArg Prod.snd (Option.some.inj (hrun'.symm.trans hrun))
      refine ⟨hc.survives, ((hc.made vpIn).1 hin').2, ?_⟩
      exact ((hc.redirects hne hin' hp).sameAs_iff hne).1 hsame
    · rintro ⟨hsurvives, hspared, hshown⟩
      obtain ⟨u, hclear⟩ := (hs.valueClear_iff hout).2 hsurvives
      have hc := hs.clears hclear
      have hin' := (hc.made vpIn).2 ⟨hin, hspared⟩
      obtain ⟨t, hrun, hp, -⟩ := hs.valueSet hclear hin'
      refine ⟨t, hrun, assign_of_valueSet hrun, ?_⟩
      exact ((hc.redirects hne hin' hp).sameAs_iff hne).2 hshown

/-- The value at 3 is an array with a string, the one at 4 is null and the one at 5 is an empty
buffer. -/
def sample : ValueHeap where
  refs := ⟨⟨fun
    | 0 => some ⟨1, [1], true, false⟩
    | 2 | 6 => some ⟨1, [], true, false⟩
    | _ => none, ⟨[(1, some 2), (3, some 0), (4, none), (5, some 6)], by decide⟩⟩, fun _ => 0⟩
  slots
    | 1 => ⟨.dLocalStr, .s8, 0⟩
    | 3 => ⟨.dArray, .s8, 0⟩
    | 5 => ⟨.dBuffer, .s8, 0⟩
    | _ => .null
  contents
    | 0 => .array ⟨[(.index 0, 1)], List.pairwise_singleton ..⟩
    | 2 => .stringA [97]
    | 6 => .buffer []
    | _ => .unknown
  next := 7

theorem sample_made {l : Nat} :
    sample.refs.Made l ↔ l = 1 ∨ l = 3 ∨ l = 4 ∨ l = 5 := by
  rw [made_iff]
  simp only [SortedMap.find_eq_some_iff]
  simp [sample, exists_or]

theorem sample_objects {o : Nat} {ob : RefableImp}
    (hob : sample.refs.heap.objects o = some ob) :
    (o = 0 ∨ o = 2 ∨ o = 6) ∧ ob = ⟨1, (sample.contents o).members, true, false⟩ := by
  match o, hob with
  | 0, rfl | 2, rfl | 6, rfl => exact ⟨by omega, rfl⟩

theorem sample_memberOf {l o : Nat} : sample.refs.MemberOf l o ↔ l = 1 ∧ o = 0 := by
  constructor
  · rintro ⟨ob, hob, hin⟩
    obtain ⟨ho, rfl⟩ := sample_objects (RefHeap.alive_eq_some_iff.1 hob).1
    rcases ho with rfl | rfl | rfl
    · exact ⟨List.mem_singleton.1 hin, rfl⟩
    · cases hin
    · cases hin
  · rintro ⟨rfl, rfl⟩
    exact ⟨_, rfl, List.mem_singleton_self _⟩

theorem sample_wellFormed (x : Header) : WellFormed x sample where
  typed l hl := by
    rcases sample_made.1 hl with rfl | rfl | rfl | rfl
    · exact ⟨rfl, .inl rfl⟩
    · exact ⟨rfl, .inl rfl⟩
    · exact ⟨rfl, nofun⟩
    · exact ⟨rfl, .inl rfl⟩
  members o ob hob := by
    rw [(sample_objects (RefHeap.alive_eq_some_iff.1 hob).1).2]
  made l o hin := by
    rw [(sample_memberOf.1 hin).1, sample_made]
    omega
  home l o o' hin hin' := by rw [(sample_memberOf.1 hin).2, (sample_memberOf.1 hin').2]
  distinct o ob hob := by
    obtain ⟨ho, rfl⟩ := sample_objects (RefHeap.alive_eq_some_iff.1 hob).1
    rcases ho with rfl | rfl | rfl <;> decide
  valid o ob hob := by
    obtain ⟨ho, rfl⟩ := sample_objects (RefHeap.alive_eq_some_iff.1 hob).1
    rcases ho with rfl | rfl | rfl
    · refine ⟨nofun, nofun, fun key e hkey => ?_⟩
      have hentry := SortedMap.find_eq_some_iff.1 hkey
      obtain ⟨rfl, -⟩ := Prod.mk.inj (List.mem_singleton.1 hentry)
      exact ⟨rfl, rfl⟩
    · exact Content.valid_stringA rfl
    · exact Content.valid_buffer []
  freshValue l hl hmade := by
    rw [sample_made] at hmade
    have hge : 7 ≤ l := hl
    omega
  freshObject o ho := by
    have hge : 7 ≤ o := ho
    cases hob : sample.refs.heap.objects o with
    | none => rfl
    | some ob =>
        have hmem := (sample_objects hob).1
        omega
  sound := by
    refine ⟨fun o ob hob => ?_, fun o ob hob => ?_, fun o ob hob => ?_, fun o ob hob _ => ?_,
      fun o ho hnone => ?_⟩
    · obtain ⟨ho, rfl⟩ := sample_objects hob
      rcases ho with rfl | rfl | rfl <;> decide
    · rw [(sample_objects hob).2]
      show (1 : BitVec 32).toNat < 2147483648
      decide
    · rw [(sample_objects hob).2]
      simp
    · rw [(sample_objects hob).2]
    · obtain ⟨e, he, heq⟩ := List.countP_pos_iff.1 ho
      have hp : e.2 = some o := by simpa using heq
      have hmem : e ∈ [(1, some 2), (3, some 0), (4, none), (5, some 6)] := he
      simp only [List.mem_cons, List.not_mem_nil, or_false] at hmem
      rcases hmem with rfl | rfl | rfl | rfl <;> cases hp <;> cases hnone

def sampleHeader : Header := ⟨fun _ => none, fun _ => none, 256, .x64⟩

theorem sample_assigns : sample.Assigns 3 4 ↔ sample.Assignable 3 4 :=
  assigns_iff (sample_wellFormed sampleHeader) (sample_made.2 (by omega))
    (sample_made.2 (by omega))

/-- An array is lost when it is assigned to itself, and its element is not there to be assigned
to it. -/
theorem sample_not_assigns : ¬ sample.Assigns 3 3 ∧ ¬ sample.Assigns 1 3 := by
  constructor
  · rintro ⟨t, hset, -, hsame⟩
    have hseen : (sample.valueSet 3 3).map (fun r => r.2.view.seen 3 []) =
        some (some ⟨.null, none⟩) := by decide +kernel
    rw [hset, Option.map_some, Option.some.injEq] at hseen
    have hbefore : sample.view.seen 3 [] = some ⟨⟨.dArray, .s8, 0⟩, some .array⟩ := by decide
    rw [hsame [], hbefore] at hseen
    cases hseen
  · rintro ⟨t, hset, -⟩
    have hnone : (sample.valueSet 1 3).isNone = true := by decide +kernel
    rw [hset] at hnone
    cases hnone

end ValueHeap

end Vin64.Xv
