import Vin64.Xv.Proofs.HeapSteps

/-!
# Clones and the values they come from

A clone has an object of its own, and its elements hold the objects that the elements of the
value hold.  So the operations on the one, on its object and on its elements write nothing that
the other holds, and what they do is not seen there.
-/

namespace Vin64.Xv

open Vin64.Lib Vin64.Utils

namespace ValueHeap

variable {x : Header} {s t u : ValueHeap} {pv out n : Nat} {locs objs : Nat → Prop}
  {own : Option Nat} {op : ValueOp}

/-! ## One step -/

/-- What an effect does not reach stays, as long as the value is there. -/
theorem Effect.unchanged (heffect : Effect x s locs objs n t) (hs : WellFormed x s)
    (hpv : s.refs.Made pv) (hmade : t.refs.Made pv)
    (hfar : ∀ l, s.view.Reaches pv l → ¬ locs l ∧ ∀ o, s.refs.pointee l = some o → ¬ objs o) :
    Unchanged s pv t := by
  have hkept : ∀ l, s.view.Reaches pv l → t.refs.Made l → t.slots l = s.slots l ∧
      t.refs.pointee l = s.refs.pointee l ∧
        ∀ o, s.refs.pointee l = some o → t.contents o = s.contents o := by
    intro l hl hlmade
    have hlt := hs.lt_of_made (hs.toLinked.made_of_reaches hs.sound.exact hl hpv)
    refine ⟨heffect.slots l hlt (hfar l hl).1 hlmade, heffect.pointee l hlt (hfar l hl).1 hlmade,
      fun o ho => ?_⟩
    obtain ⟨ob, hob⟩ := alive_of_pointee hs.sound.exact ho
    exact heffect.contents o (hs.lt_of_alive hob) ((hfar l hl).2 o ho)
  have hall : ∀ l, s.view.Reaches pv l → t.refs.Made l := by
    intro l hl
    refine hl.invariant hmade fun i key j hi himade hchild => ?_
    obtain ⟨-, hp, hcontents⟩ := hkept i hi himade
    have hw := heffect.wellFormed
    exact hw.toLinked.made_child hw.sound.exact ((view_child_eq hp hcontents key).trans hchild)
  exact fun l hl => ⟨hall l hl, hkept l hl (hall l hl)⟩

theorem Unchanged.trans (hst : Unchanged s pv t) (htu : Unchanged t pv u) : Unchanged s pv u := by
  intro l hl
  obtain ⟨-, hslot, hp, hcontents⟩ := hst l hl
  obtain ⟨hmade, hslot', hp', hcontents'⟩ := htu l (hst.reaches_iff.2 hl)
  refine ⟨hmade, hslot'.trans hslot, hp'.trans hp, fun o ho => ?_⟩
  rw [hcontents' o (hp.trans ho), hcontents o ho]

theorem ValueOp.writes_of_value (s : ValueHeap) {l : Nat} (hop : op.value = some l) :
    s.writes op = [l] ∧ op.object = none := by
  cases op <;> cases hop <;> exact ⟨rfl, rfl⟩

/-- An operation on an object goes to one that is there, and writes elements of it. -/
theorem Linked.writes_of_object (hs : Linked x s) {o : Nat} (hop : op.object = some o)
    (hstep : s.Step x op t) : ∀ l ∈ s.writes op, s.refs.MemberOf l o := by
  have hmember : ∀ {ob : RefableImp}, s.refs.heap.alive o = some ob →
      ∀ l ∈ (s.contents o).members, s.refs.MemberOf l o := by
    intro ob hob l hl
    exact ⟨ob, hob, by rw [hs.members o ob hob]; exact hl⟩
  have helement : ∀ {key : Key} {ob : RefableImp}, s.refs.heap.alive o = some ob →
      ∀ l ∈ ((s.contents o).elements.find key).toList, s.refs.MemberOf l o := by
    intro key ob hob l hl
    exact hmember hob l (Content.mem_members.2 ⟨key, Option.mem_toList.1 hl⟩)
  cases op <;> cases hop
  case setElement key item =>
    obtain ⟨r, hrun, -⟩ := Option.map_eq_some_iff.1 hstep
    obtain ⟨c, hc, -⟩ := Option.bind_eq_some_iff.1 hrun
    obtain ⟨⟨ob, hob⟩, -⟩ := content_eq_some hc
    exact helement hob
  case erase key =>
    obtain ⟨r, hrun, -⟩ := Option.map_eq_some_iff.1 hstep
    obtain ⟨c, hc, -⟩ := Option.bind_eq_some_iff.1 hrun
    obtain ⟨⟨ob, hob⟩, -⟩ := content_eq_some hc
    exact helement hob
  case clear =>
    obtain ⟨c, hc, -⟩ := Option.bind_eq_some_iff.1 hstep
    obtain ⟨⟨ob, hob⟩, -⟩ := content_eq_some hc
    exact hmember hob
  all_goals exact nofun

/-! ## Values that hold nothing in common but the objects of elements -/

/-- What the value at `pv` holds is neither the value at `out`, nor is it on the object `own`. -/
structure Separate (s : ValueHeap) (pv out : Nat) (own : Option Nat) : Prop where
  far : ¬ s.view.Reaches pv out
  objects : ∀ l o, s.view.Reaches pv l → s.refs.pointee l = some o → own ≠ some o
  outside : ∀ o, own = some o → ¬ s.refs.MemberOf pv o

/-- Nor is it an element of that object. -/
theorem Separate.not_memberOf (hsep : Separate s pv out own) (hs : WellFormed x s) {l o : Nat}
    (hl : s.view.Reaches pv l) (ho : own = some o) : ¬ s.refs.MemberOf l o := by
  refine hl.invariant (P := fun l => ¬ s.refs.MemberOf l o) (hsep.outside o ho)
    fun i key j hi _ hchild hin => ?_
  obtain ⟨o', hp, hkey⟩ := Option.bind_eq_some_iff.1 hchild
  obtain ⟨ob, hob⟩ := alive_of_pointee hs.sound.exact hp
  obtain rfl := hs.home j o' o ((hs.memberOf_iff hob).2 ⟨key, hkey⟩) hin
  exact hsep.objects i o' hi hp ho

theorem Separate.apart (hsep : Separate s pv out own) (hs : WellFormed x s)
    (hon : s.On out own op) (hstep : s.Step x op t) : s.Apart pv op := by
  intro l hl
  rcases hon with hvalue | ⟨o, ho, hobject | ⟨e, hvalue, hin⟩⟩
  · obtain ⟨hwrites, hnone⟩ := ValueOp.writes_of_value s hvalue
    refine ⟨fun h => ?_, fun y _ => by rw [hnone]; nofun⟩
    rw [hwrites, List.mem_singleton] at h
    exact hsep.far (h ▸ hl)
  · refine ⟨fun h => hsep.not_memberOf hs hl ho (hs.writes_of_object hobject hstep l h),
      fun y hy => ?_⟩
    rw [hobject, ← ho]
    exact hsep.objects l y hl hy
  · obtain ⟨hwrites, hnone⟩ := ValueOp.writes_of_value s hvalue
    refine ⟨fun h => ?_, fun y _ => by rw [hnone]; nofun⟩
    rw [hwrites, List.mem_singleton] at h
    exact hsep.not_memberOf hs hl ho (h ▸ hin)

/-! ## Runs -/

/-- What has gone through a run, as long as the value is there. -/
structure Undisturbed (x : Header) (s : ValueHeap) (pv out : Nat) (own : Option Nat)
    (t : ValueHeap) : Prop where
  wellFormed : WellFormed x t
  next : s.next ≤ t.next
  back : t.refs.Made pv → s.refs.Made pv
  separate : t.refs.Made pv → Separate t pv out own
  unchanged : t.refs.Made pv → Unchanged s pv t

theorem Undisturbed.step (h : Undisturbed x s pv out own t) (hlt : pv < s.next)
    (hon : t.On out own op ∨ t.Apart pv op) (hlegal : t.Legal op) (hroom : t.Roomy op)
    (hstep : t.Step x op u) : Undisturbed x s pv out own u := by
  have heffect := h.wellFormed.step_effect hlegal hroom hstep
  have hlt' := hlt.trans_le h.next
  have hback := heffect.made pv hlt'
  have hunchanged : u.refs.Made pv → Unchanged t pv u := by
    intro hmade
    have hapart : t.Apart pv op :=
      hon.elim (fun hon => (h.separate (hback hmade)).apart h.wellFormed hon hstep) id
    exact heffect.unchanged h.wellFormed (hback hmade) hmade hapart
  refine ⟨heffect.wellFormed, h.next.trans heffect.next, fun hmade => h.back (hback hmade),
    fun hmade => ?_, fun hmade => (h.unchanged (hback hmade)).trans (hunchanged hmade)⟩
  have hsep := h.separate (hback hmade)
  refine ⟨fun hreach => hsep.far ((hunchanged hmade).reaches_iff.1 hreach), fun l o hl hp => ?_,
    fun o ho hin => hsep.outside o ho (heffect.member pv o hlt' hin)⟩
  have hl' := (hunchanged hmade).reaches_iff.1 hl
  exact hsep.objects l o hl' (((hunchanged hmade) l hl').2.2.1 ▸ hp)

theorem Separate.later (hsep : Separate s pv out own) (hs : WellFormed x s) (hlt : pv < s.next)
    (hrun : Later x out own pv s u) : Undisturbed x s pv out own u := by
  induction hrun with
  | refl =>
      refine ⟨hs, le_rfl, id, fun _ => hsep, fun hpv l hl => ⟨?_, rfl, rfl, fun _ _ => rfl⟩⟩
      exact hs.toLinked.made_of_reaches hs.sound.exact hl hpv
  | tail _ hstep ih =>
      obtain ⟨op, hon, hlegal, hroom, hstep⟩ := hstep
      exact ih.step hlt hon hlegal hroom hstep

/-! ## After a clone -/

section

variable {vpIn vpOut : Nat}

/-- What a clone leaves of the value that does not hold the destination. -/
theorem WellFormed.cloned (hs : WellFormed x s)
    (hrun : s.valueClone x vpIn vpOut = some (true, t)) (hfar : ¬ s.view.Reaches vpIn vpOut) :
    s.refs.Made vpIn ∧ s.refs.Made vpOut ∧ Cloned s vpIn vpOut t ∧ Unchanged s vpIn t := by
  have hne : vpIn ≠ vpOut := by
    rintro rfl
    exact hfar (.refl ..)
  obtain ⟨u, hclear, hin⟩ := clear_of_valueClone hrun
  have hc := hs.clears hclear
  have hfull := hs.full_of_valueClone hclear hin hne hrun
  obtain ⟨t', hrun', hcloned, hkept⟩ := hs.valueClone hclear hin hne hfull
  obtain ⟨-, rfl⟩ := Prod.mk.inj (Option.some.inj (hrun'.symm.trans hrun))
  exact ⟨((hc.made vpIn).1 hin).1, made_of_valueClear hclear, hcloned,
    hc.unchanged hkept hin hfar⟩

theorem Linked.own_of_child (hs : Linked x s) (he : Exact s.refs.heap.objects s.refs.references)
    {key : Key} {e : Nat} (hchild : s.view.child pv key = some e) :
    ∃ o, s.own pv = some o ∧ s.refs.MemberOf e o := by
  obtain ⟨o, hp, hkey⟩ := Option.bind_eq_some_iff.1 hchild
  obtain ⟨ob, hob⟩ := alive_of_pointee he hp
  refine ⟨o, own_eq_some_iff.2 ⟨fun htype => ?_, hp⟩, (hs.memberOf_iff hob).2 ⟨key, hkey⟩⟩
  -- an `IUnknown` has no elements
  have htyped := hs.typed pv (made_of_pointee hp)
  rw [hp] at htyped
  rcases htyped.2 with hcontent | hunknown
  · rw [htype] at hcontent
    cases hcontent
  · rw [hunknown.2] at hkey
    cases hkey

/-- What the clone holds: itself, its elements, and what their twins hold. -/
theorem Cloned.reaches (hc : Cloned s vpIn vpOut t) {i : Nat} (hi : t.view.Reaches vpOut i) :
    i = vpOut ∨ ∃ key e l, t.view.child vpOut key = some e ∧ t.view.child vpIn key = some l ∧
      Twins t e l ∧ (i = e ∨ t.view.Reaches l i) := by
  refine hi.invariant (P := fun i => i = vpOut ∨ ∃ key e l, t.view.child vpOut key = some e ∧
    t.view.child vpIn key = some l ∧ Twins t e l ∧ (i = e ∨ t.view.Reaches l i)) (.inl rfl)
    fun i k j _ hi hchild => .inr ?_
  rcases hi with rfl | ⟨key, e, l, he, hl, htwins, rfl | hreach⟩
  · obtain ⟨l, hl, htwins⟩ := hc.twin hchild
    exact ⟨k, j, l, hchild, hl, htwins, .inl rfl⟩
  · rw [htwins.child] at hchild
    exact ⟨key, i, l, he, hl, htwins, .inr ((KeyedGraph.Reaches.refl ..).step hchild)⟩
  · exact ⟨key, e, l, he, hl, htwins, .inr (hreach.step hchild)⟩

theorem Unchanged.holdsItself (h : Unchanged s pv t) (hself : t.HoldsItself pv) :
    s.HoldsItself pv := by
  obtain ⟨key, e, l, hchild, hreach, hp⟩ := hself
  have hpv := KeyedGraph.Reaches.refl s.view pv
  have hchild' : s.view.child pv key = some e := ((h.agree hpv).child key).symm.trans hchild
  have he : ∀ i, s.view.Reaches e i → s.view.Reaches pv i := fun i => (hpv.step hchild').trans
  have hl : s.view.Reaches e l :=
    (KeyedGraph.reaches_iff_of_agree fun i hi => h.agree (he i hi)).1 hreach
  refine ⟨key, e, l, hchild', hl, ?_⟩
  rw [← (h l (he l hl)).2.2.1, ← (h pv hpv).2.2.1, hp]

/-- The value does not see the operations on the clone. -/
theorem Cloned.separate (hc : Cloned s vpIn vpOut t) (hs : WellFormed x s)
    (heffect : Effect x s locs objs n t) (hin : s.refs.Made vpIn)
    (hfar : ¬ s.view.Reaches vpIn vpOut) (hunchanged : Unchanged s vpIn t) : Separate t vpIn vpOut (t.own vpOut) := by
  refine ⟨fun h => hfar (hunchanged.reaches_iff.1 h), fun l o hl hp ho => ?_, fun o ho hmem => ?_⟩
  · rw [(hunchanged l (hunchanged.reaches_iff.1 hl)).2.2.1] at hp
    obtain ⟨ob, hob⟩ := alive_of_pointee hs.sound.exact hp
    have hlt := hs.lt_of_alive hob
    have hge := hc.fresh o ho
    omega
  · obtain ⟨ob, hob, -⟩ := heffect.member vpIn o (hs.lt_of_made hin) hmem
    have hlt := hs.lt_of_alive hob
    have hge := hc.fresh o ho
    omega

/-- The clone does not see the operations on a value that does not hold itself. -/
theorem Cloned.separate_clone (hc : Cloned s vpIn vpOut t) (hs : WellFormed x s)
    (heffect : Effect x s locs objs n t) (hin : s.refs.Made vpIn)
    (hfar : ¬ s.view.Reaches vpIn vpOut) (hunchanged : Unchanged s vpIn t) (hself : ¬ s.HoldsItself vpIn) :
    Separate t vpOut vpIn (t.own vpIn) := by
  have hsep := hc.separate hs heffect hin hfar hunchanged
  have hw := heffect.wellFormed
  have hbelow : ∀ {key : Key} {l i : Nat}, t.view.child vpIn key = some l →
      t.view.Reaches l i → t.refs.pointee i ≠ t.refs.pointee vpIn := fun hl hi hp =>
    hself (hunchanged.holdsItself ⟨_, _, _, hl, hi, hp⟩)
  refine ⟨fun h => ?_, fun i o hi hp ho => ?_, fun o ho hmem => ?_⟩
  · rcases hc.reaches h with heq | ⟨key, e, l, he, hl, -, heq | hreach⟩
    · exact hfar (heq ▸ .refl ..)
    · -- the elements of the clone are new
      obtain ⟨o, ho, hmem⟩ := hw.toLinked.own_of_child hw.sound.exact he
      exact hsep.outside o ho (heq ▸ hmem)
    · exact hbelow hl hreach rfl
  · obtain ⟨-, hpin⟩ := own_eq_some_iff.1 ho
    rcases hc.reaches hi with rfl | ⟨key, e, l, he, hl, htwins, rfl | hreach⟩
    · have htype : t.slots i = t.slots vpIn := congrArg Shown.slot hc.label
      have hown : t.own i = some o := by
        rw [own_eq_some_iff, htype]
        exact ⟨(own_eq_some_iff.1 ho).1, hp⟩
      exact hsep.objects vpIn o (.refl ..) hpin hown
    · refine hbelow hl (.refl ..) ?_
      rw [← htwins.pointee, hp, hpin]
    · exact hbelow hl hreach (hp.trans hpin.symm)
  · -- the destination is not an element of the value
    obtain ⟨-, hpin⟩ := own_eq_some_iff.1 ho
    obtain ⟨ob, hob⟩ := alive_of_pointee hw.sound.exact hpin
    obtain ⟨key, hkey⟩ := (hw.memberOf_iff hob).1 hmem
    refine hsep.far ((KeyedGraph.Reaches.refl ..).step (k := key) ?_)
    show (t.refs.pointee vpIn).bind _ = _
    rw [hpin, Option.bind_some, hkey]

/-- The one does not see the operations on the other, and their elements share objects. -/
theorem clone_later (hs : WellFormed x s) (hroom : s.Roomy (.clone vpIn vpOut))
    (hrun : s.valueClone x vpIn vpOut = some (true, t)) (hfar : ¬ s.view.Reaches vpIn vpOut) :
    (∀ u, Later x vpOut (t.own vpOut) vpIn t u → u.refs.Made vpIn →
      u.view.SameAs vpIn s.view vpIn) ∧
    (¬ s.HoldsItself vpIn → ∀ u, Later x vpIn (t.own vpIn) vpOut t u → u.refs.Made vpOut →
      u.view.SameAs vpOut s.view vpIn) ∧
    (∀ key l, t.view.child vpIn key = some l → ∃ e, t.view.child vpOut key = some e ∧ e ≠ l ∧
      t.refs.pointee e = t.refs.pointee l) := by
  obtain ⟨hin, hout, hc, hunchanged⟩ := hs.cloned hrun hfar
  have heffect := hs.effect_valueClone hrun hroom
  have hw := heffect.wellFormed
  have hsep := hc.separate hs heffect hin hfar hunchanged
  refine ⟨fun u hlater hu => ?_, fun hself u hlater hu => ?_, fun key l hl => ?_⟩
  · have hend := hsep.later hw ((hs.lt_of_made hin).trans_le heffect.next) hlater
    exact (hend.unchanged hu).sameAs.trans hunchanged.sameAs
  · have hsep' := hc.separate_clone hs heffect hin hfar hunchanged hself
    have hend := hsep'.later hw ((hs.lt_of_made hout).trans_le heffect.next) hlater
    exact (hend.unchanged hu).sameAs.trans (hc.sameAs.trans hunchanged.sameAs)
  · obtain ⟨e, he, htwins⟩ := hc.present key l hl
    refine ⟨e, he, ?_, htwins.pointee⟩
    rintro rfl
    obtain ⟨o, ho, hmem⟩ := hw.toLinked.own_of_child hw.sound.exact he
    exact hsep.not_memberOf hw ((KeyedGraph.Reaches.refl ..).step hl) ho hmem

theorem sample_roomy : sample.Roomy (.clone 3 4) := by
  intro o
  have hcount : sample.refs.references o ≤ 4 := List.countP_le_length
  have htakes : sample.takes (.clone 3 4) = 3 := by decide
  omega

theorem sample_reaches {l : Nat} (hl : sample.view.Reaches 3 l) : l = 1 ∨ l = 3 := by
  refine hl.invariant (P := fun l => l = 1 ∨ l = 3) (.inr rfl) fun i key j _ hi hchild => ?_
  rcases hi with rfl | rfl
  · cases hchild
  · have hentry := SortedMap.find_eq_some_iff.1
      (show (sample.contents 0).elements.find key = some j from hchild)
    exact .inl (Prod.mk.inj (List.mem_singleton.1 hentry)).2

/-- After the clone, and after a change of the string that its element and the element of the
array hold. -/
theorem sample_runs : ∃ t u, sample.valueClone sampleHeader 3 4 = some (true, t) ∧
    t.view.walk 4 [.index 0] = some 9 ∧ t.refs.pointee 9 = some 2 ∧
    t.Step sampleHeader (.assignA 2 (some [98])) u ∧ u.refs.pointee 3 = some 0 ∧
    u.view.seen 3 [.index 0] ≠ t.view.seen 3 [.index 0] := by
  have hrun : ((sample.valueClone sampleHeader 3 4).bind fun r =>
      (r.2.step sampleHeader (.assignA 2 (some [98]))).map fun u =>
        (r.1, r.2.view.walk 4 [.index 0], r.2.refs.pointee 9, u.refs.pointee 3,
          decide (u.view.seen 3 [.index 0] ≠ r.2.view.seen 3 [.index 0]))) =
      some (true, some 9, some 2, some 0, true) := by decide +kernel
  obtain ⟨⟨b, t⟩, hclone, hstep⟩ := Option.bind_eq_some_iff.1 hrun
  obtain ⟨u, hu, heq⟩ := Option.map_eq_some_iff.1 hstep
  simp only [Prod.mk.injEq, decide_eq_true_eq] at heq
  obtain ⟨rfl, hwalk, hpointee, hkept, hseen⟩ := heq
  exact ⟨t, u, hclone, hwalk, hpointee, hu, hkept, hseen⟩

theorem sample_clone_later : ∃ t, sample.valueClone sampleHeader 3 4 = some (true, t) ∧
    (∀ u, Later sampleHeader 4 (t.own 4) 3 t u → u.refs.Made 3 → u.view.SameAs 3 sample.view 3) ∧
    (¬ sample.HoldsItself 3 → ∀ u, Later sampleHeader 3 (t.own 3) 4 t u → u.refs.Made 4 →
      u.view.SameAs 4 sample.view 3) ∧
    (∀ key l, t.view.child 3 key = some l → ∃ e, t.view.child 4 key = some e ∧ e ≠ l ∧
      t.refs.pointee e = t.refs.pointee l) := by
  obtain ⟨t, -, hrun, -⟩ := sample_runs
  refine ⟨t, hrun, clone_later (sample_wellFormed sampleHeader) sample_roomy hrun fun h => ?_⟩
  rcases sample_reaches h with heq | heq <;> cases heq

/-- The string in the array is the string in the clone. -/
theorem sample_not_independent : ∃ t, sample.valueClone sampleHeader 3 4 = some (true, t) ∧
    ¬ t.Independent sampleHeader 3 4 := by
  obtain ⟨t, u, hrun, hwalk, hpointee, hstep, hkept, hseen⟩ := sample_runs
  refine ⟨t, hrun, fun hind => hseen ?_⟩
  have heffect := (sample_wellFormed sampleHeader).effect_valueClone hrun sample_roomy
  refine hind (.assignA 2 (some [98])) 9 u ⟨_, hwalk⟩ ?_ trivial (fun o => ?_) hstep
    (made_of_pointee hkept) [.index 0]
  · exact .inr ⟨2, hpointee, .inl rfl⟩
  · exact Balanced.refs_lt heffect.wellFormed.sound o

end

end ValueHeap

end Vin64.Xv
