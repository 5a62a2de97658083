import Vin64.Kernel.Proofs.NoForce

/-!
# Erasing a child

`eraseChild` without a variable for the object unmounts the node, not its child; with one it
uses the object of the child without a test.
-/

namespace Vin64.Kernel.Kvfs

open Vin64.Lib Vin64.Vram

variable {fs fs' : Kvfs} {p : NodePath} {name : List Char} {child n : Node} {pp : Bool}

/-- The child is gone with all that is below it, its object is bound to no node and is handed
to a caller that asks for it; all else is as before. -/
structure Erased (fs fs' : Kvfs) (place : NodePath) (child : Node) (pp : Bool) : Prop where
  nodes : ∀ q, fs'.nodes q = if place <:+ q then none else fs.nodes q
  unbound : ∀ ob, child.mount = some ob → (fs'.objects ob).node = none
  targets : ∀ ob, (fs'.objects ob).target = (fs.objects ob).target
  others : ∀ ob, child.mount ≠ some ob → fs'.objects ob = fs.objects ob
  handed : ∀ ob, fs'.held ob = true ↔ fs.held ob = true ∨ pp = true ∧ child.mount = some ob

/-- An existing child is erased; a name without a child gives an error, with no change. -/
structure ErasesChild (fs : Kvfs) (p : NodePath) (name : Option (List Char)) (pp : Bool) :
    Prop where
  erases : ∀ dir child, name = some dir → fs.nodes (fold dir :: p) = some child →
    ∃ fs', fs.eraseChild p name pp = some (.ok fs') ∧ fs.Erased fs' (fold dir :: p) child pp
  fails : (∀ dir, name = some dir → fs.nodes (fold dir :: p) = none) →
    ∃ e, fs.eraseChild p name pp = some (.error e)

/-- A caller that asks for the object finds one, and without asking there is none to unbind on
the child, or on the node. -/
def Erasable (fs : Kvfs) (p : NodePath) (child : Node) (pp : Bool) : Prop :=
  (pp = true → child.mount ≠ none) ∧ (pp = false → fs.Vacant p ∧
    ∀ ob, child.mount = some ob → (fs.objects ob).node = none)

/-! ## The cases of the call -/

theorem eraseChild_fails (name : Option (List Char)) (pp : Bool)
    (h : ∀ dir, name = some dir → fs.nodes (fold dir :: p) = none) :
    ∃ e, fs.eraseChild p name pp = some (.error e) := by
  cases name with
  | none => exact ⟨_, rfl⟩
  | some dir =>
      refine ⟨.win32 ERROR_FILE_NOT_FOUND, ?_⟩
      unfold eraseChild
      simp only [h dir rfl]

/-- The caller asks for the object of a child that has none. -/
theorem eraseChild_faults (hchild : fs.nodes (fold name :: p) = some child)
    (hnone : child.mount = none) : fs.eraseChild p (some name) true = none := by
  unfold eraseChild
  simp only [hchild, hnone, if_true]

theorem eraseChild_hands {ob : Nat} (hchild : fs.nodes (fold name :: p) = some child)
    (hmount : child.mount = some ob) : fs.eraseChild p (some name) true =
      some (.ok (((fs.bindNode ob none).hold ob true).erase (fold name :: p))) := by
  unfold eraseChild
  simp only [hchild, hmount, if_true]

theorem eraseChild_vacant (hp : fs.nodes p = some n) (hchild : fs.nodes (fold name :: p) = some child)
    (hvacant : n.mount = none) :
    fs.eraseChild p (some name) false = some (.ok (fs.erase (fold name :: p))) := by
  unfold eraseChild unmount
  simp only [hchild, hp, hvacant, Bool.false_eq_true, if_false]

/-- Without a variable the object of the node itself is unmounted. -/
theorem eraseChild_unmounts {ob : Nat} (hp : fs.nodes p = some n)
    (hchild : fs.nodes (fold name :: p) = some child) (hmount : n.mount = some ob) :
    fs.eraseChild p (some name) false = some (.ok
      (((fs.bindNode ob none).setNode p { n with mount := none }).erase (fold name :: p))) := by
  unfold eraseChild unmount
  simp only [hchild, hp, hmount, Bool.false_eq_true, if_false]

theorem not_suffix_self (a : List Char) (p : NodePath) : ¬ a :: p <:+ p := by
  intro h
  have hlen := h.length_le
  rw [List.length_cons] at hlen
  omega

/-! ## When the child is erased -/

theorem erased_hands {ob : Nat} (hmount : child.mount = some ob) : fs.Erased
    (((fs.bindNode ob none).hold ob true).erase (fold name :: p)) (fold name :: p) child true where
  nodes := fun _ => rfl
  unbound := by
    intro o ho
    obtain rfl := Option.some.inj (hmount.symm.trans ho)
    show (Function.update fs.objects ob _ ob).node = none
    rw [Function.update_self]
  targets := by
    intro o
    show (Function.update fs.objects ob { fs.objects ob with node := none } o).target = _
    rw [Function.update_apply]
    split
    · rename_i ho
      rw [ho]
    · rfl
  others := by
    intro o ho
    have hne : o ≠ ob := fun heq => ho (heq ▸ hmount)
    exact Function.update_of_ne hne _ _
  handed := by
    intro o
    show Function.update fs.held ob true o = true ↔ _
    rw [Function.update_apply, hmount]
    split
    · rename_i ho
      simp [ho]
    · rename_i ho
      simp [Ne.symm ho]

theorem erased_vacant (hunbound : ∀ ob, child.mount = some ob → (fs.objects ob).node = none) :
    fs.Erased (fs.erase (fold name :: p)) (fold name :: p) child false where
  nodes := fun _ => rfl
  unbound := hunbound
  targets := fun _ => rfl
  others := fun _ _ => rfl
  handed := by simp [erase]

/-- `eraseChild` does what it should exactly when the child does not exist, or the caller asks
for an object that is mounted on the child, or does not ask, nothing is mounted on the node and
no object is bound by the child. -/
theorem erasesChild_iff (hp : (fs.nodes p).isSome) (name : Option (List Char)) :
    fs.ErasesChild p name pp ↔
      ∀ dir child, name = some dir → fs.nodes (fold dir :: p) = some child →
        fs.Erasable p child pp := by
  obtain ⟨n, hn⟩ := Option.isSome_iff_exists.1 hp
  constructor
  · intro h dir child hname hchild
    obtain rfl := hname
    obtain ⟨fs', hcall, herased⟩ := h.erases dir child rfl hchild
    refine ⟨fun hpp hnone => ?_, fun hpp => ?_⟩
    · rw [hpp, eraseChild_faults hchild hnone] at hcall
      cases hcall
    · subst hpp
      cases hmount : n.mount with
      | none =>
          rw [eraseChild_vacant hn hchild hmount] at hcall
          obtain rfl := Except.ok.inj (Option.some.inj hcall)
          refine ⟨fun ob hob => ?_, herased.unbound⟩
          obtain ⟨k, hk, hm⟩ := hob
          obtain rfl := Option.some.inj (hn.symm.trans hk)
          rw [hmount] at hm
          cases hm
      | some ob =>
          rw [eraseChild_unmounts hn hchild hmount] at hcall
          obtain rfl := Except.ok.inj (Option.some.inj hcall)
          -- the node itself has lost its object
          have hself := herased.nodes p
          rw [if_neg (not_suffix_self _ p), hn, nodes_erase, if_neg (not_suffix_self _ p),
            nodes_setNode, if_pos rfl] at hself
          have hlost := congrArg Node.mount (Option.some.inj hself)
          rw [hmount] at hlost
          cases hlost
  · intro h
    refine ⟨fun dir child hname hchild => ?_, eraseChild_fails name pp⟩
    obtain rfl := hname
    obtain ⟨hasked, hunasked⟩ := h dir child rfl hchild
    cases pp with
    | true =>
        obtain ⟨ob, hob⟩ := Option.ne_none_iff_exists'.1 (hasked rfl)
        exact ⟨_, eraseChild_hands hchild hob, erased_hands hob⟩
    | false =>
        obtain ⟨hvacant, hunbound⟩ := hunasked rfl
        have hnone : n.mount = none := by
          cases hmount : n.mount with
          | none => rfl
          | some ob => exact absurd ⟨n, hn, hmount⟩ (hvacant ob)
        exact ⟨_, eraseChild_vacant hn hchild hnone, erased_vacant hunbound⟩

/-- A device is mounted on a child of the root. -/
theorem exists_deviceTree : ∃ fs, Run Step (new fun _ => ⟨none, none⟩)
    [.mount [['a']] (some 1), .addChild [] (some ['a']), .create 1 none] fs ∧
    (∃ n, fs.nodes [] = some n ∧ n.mount = none) ∧ fs.Mounted [['a']] 1 ∧
      (fs.objects 1).node = some 1 := by
  have hcreate : ¬ (new fun _ => ⟨none, none⟩).Live 1 := by
    intro hlive
    rcases hlive with hheld | ⟨q, hmounted⟩
    · cases hheld
    · exact not_mounted_new _ q 1 hmounted
  refine ⟨_, ((Run.nil.snoc (.create none hcreate)).snoc (.addChild (some ['a']) rfl)).snoc
    (.mount ?_ rfl), ⟨_, rfl, rfl⟩, ⟨_, rfl, rfl⟩, rfl⟩
  intro o ho
  obtain rfl := Option.some.inj ho
  exact .inl rfl

theorem erasesChild_device : ∃ fs calls, Run Step (new fun _ => ⟨none, none⟩) calls fs ∧
    fs.Mounted [['a']] 1 ∧ fs.ErasesChild [] (some ['a']) true := by
  obtain ⟨fs, hrun, ⟨n, hn, -⟩, hmounted, -⟩ := exists_deviceTree
  have hroot : (fs.nodes []).isSome := Option.isSome_iff_exists.2 ⟨n, hn⟩
  refine ⟨fs, _, hrun, hmounted, (erasesChild_iff hroot _).2 fun dir child hname hchild => ?_⟩
  obtain rfl := Option.some.inj hname
  obtain ⟨k, hk, hm⟩ := hmounted
  obtain rfl := Option.some.inj (hk.symm.trans hchild)
  exact ⟨fun _ => by simp [hm], nofun⟩

/-- The child is erased, and the device is bound to it still; a child without an object is
not even erased when the caller asks for one. -/
theorem eraseChild_device_bound : ∃ fs calls, Run Step (new fun _ => ⟨none, none⟩) calls fs ∧
    fs.Mounted [['a']] 1 ∧ ¬ fs.ErasesChild [] (some ['a']) false ∧
    ((new fun _ => ⟨none, none⟩).addChild [] (some ['a'])).2.eraseChild [] (some ['a']) true = none := by
  obtain ⟨fs, hrun, ⟨n, hn, hnone⟩, hmounted, hbound⟩ := exists_deviceTree
  refine ⟨fs, _, hrun, hmounted, fun h => ?_, rfl⟩
  obtain ⟨k, hk, hm⟩ := hmounted
  obtain ⟨fs', hcall, herased⟩ := h.erases ['a'] k rfl hk
  have hlost := herased.unbound 1 hm
  rw [eraseChild_vacant hn (show fs.nodes (fold ['a'] :: []) = some k from hk) hnone] at hcall
  obtain rfl := Except.ok.inj (Option.some.inj hcall)
  have hkept : ((fs.erase (fold ['a'] :: [])).objects 1).node = some 1 := hbound
  rw [hkept] at hlost
  cases hlost

end Vin64.Kernel.Kvfs
