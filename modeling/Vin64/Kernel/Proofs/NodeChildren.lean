import Vin64.Kernel.Proofs.Children
import Vin64.Kernel.Proofs.Labels

/-!
# The children of the nodes of the tree

In the tree a child is found under the form of its name.  Whatever the calls, the children of
each node are an ordered set that calls of its own make.
-/

namespace Vin64.Kernel

open Vin64.Lib Vin64.Vram

namespace Kvfs

open Children

variable {fs fs' : Kvfs} {p : NodePath} {s : Children} {name : List Char}

/-! ## One node -/

theorem HasChildren.none_iff (h : fs.HasChildren p s) :
    fs.nodes (fold name :: p) = none ↔ s.getNode name = none := by
  have hname := h name
  constructor
  · intro hnone
    rw [hnone] at hname
    exact Option.map_eq_none_iff.1 hname.symm
  · intro hnone
    rw [hnone] at hname
    exact Option.map_eq_none_iff.1 hname

theorem HasChildren.child (h : fs.HasChildren p s) {n : Node}
    (hn : fs.nodes (fold name :: p) = some n) :
    ∃ it, s.getNode name = some it ∧ it.name = n.name ∧ it.mount = n.mount := by
  have hname := h name
  rw [hn] at hname
  obtain ⟨it, hit, heq⟩ := Option.map_eq_some_iff.1 hname.symm
  exact ⟨it, hit, congrArg Prod.fst heq, congrArg Prod.snd heq⟩

/-- The node of one name changes, and so does the child of this name. -/
theorem HasChildren.change {t : Children} (h : fs.HasChildren p s) (n : Option Node)
    (it : Option Child) (hnodes : ∀ dir, fs'.nodes (fold dir :: p) =
      if fold dir = fold name then n else fs.nodes (fold dir :: p))
    (ht : ∀ dir, t.getNode dir = if fold dir = fold name then it else s.getNode dir)
    (hsame : n.map (fun n => (n.name, n.mount)) = it.map fun e => (e.name, e.mount)) :
    fs'.HasChildren p t := by
  intro dir
  rw [hnodes, ht]
  by_cases hdir : fold dir = fold name
  · rw [if_pos hdir, if_pos hdir]
    exact hsame
  · rw [if_neg hdir, if_neg hdir]
    exact h dir

theorem nodes_setChild (fs : Kvfs) (name dir : List Char) (n : Node) :
    (fs.setNode (fold name :: p) n).nodes (fold dir :: p) =
      if fold dir = fold name then some n else fs.nodes (fold dir :: p) := by
  rw [nodes_setNode]
  simp only [List.cons.injEq, and_true]

theorem HasChildren.addChild (h : fs.HasChildren p s) (name : Option (List Char)) :
    (fs.addChild p name).2.HasChildren p (s.addChild name).2 := by
  cases name with
  | none => exact h
  | some name =>
      cases hget : s.getNode name with
      | some e =>
          have hsome : (fs.nodes (fold name :: p)).isSome := by
            rw [Option.isSome_iff_ne_none]
            intro hnone
            rw [h.none_iff.1 hnone] at hget
            cases hget
          rw [addChild_old hget]
          simp only [Kvfs.addChild, Kvfs.getNode, hsome, if_true]
          exact h
      | none =>
          have hnone := h.none_iff.2 hget
          refine h.change (some ⟨fs.next, name, (fs.nodes p).map Node.id, none⟩)
            (some (s.tmp name)) (fun dir => ?_) (fun dir => getNode_addChild_new hget) rfl
          simp only [Kvfs.addChild, Kvfs.getNode, hnone, Option.isSome_none, Bool.false_eq_true,
            if_false]
          exact nodes_setChild fs name dir _

theorem HasChildren.setMount {n : Node} {it : Child} (h : fs.HasChildren p s) (hnum : s.Numbered)
    (hit : s.getNode name = some it) (hname : it.name = n.name) (m : Option Nat)
    (hfs : fs'.nodes = (fs.setNode (fold name :: p) { n with mount := m }).nodes) :
    fs'.HasChildren p (s.setMount it m) := by
  refine h.change (some { n with mount := m }) (some { it with mount := m })
    (fun dir => ?_) (fun dir => getNode_setMount hnum hit m) ?_
  · rw [hfs]
    exact nodes_setChild fs name dir _
  · show some (n.name, m) = some (it.name, m)
    rw [hname]

theorem HasChildren.erase {it : Child} (h : fs.HasChildren p s) (hit : s.getNode name = some it)
    (hfs : fs'.nodes = (fs.erase (fold name :: p)).nodes) :
    fs'.HasChildren p { s with nodes := s.nodes.erase it } := by
  refine h.change none none (fun dir => ?_) (fun dir => getNode_erase hit) rfl
  rw [hfs, nodes_erase]
  have hsuffix : fold name :: p <:+ fold dir :: p ↔ fold dir = fold name := by
    constructor
    · intro hs
      exact (List.cons_eq_cons.1 (hs.eq_of_length rfl)).1.symm
    · intro heq
      rw [heq]
  by_cases hdir : fold dir = fold name
  · rw [if_pos (hsuffix.2 hdir), if_pos hdir]
  · rw [if_neg (fun hs => hdir (hsuffix.1 hs)), if_neg hdir]

theorem HasChildren.eraseChild {name : Option (List Char)} {r : Except HRESULT Kvfs}
    (h : fs.HasChildren p s) (hr : fs.eraseChild p name true = some r) :
    ∃ r', s.eraseChild name = some r' ∧
      (fs.after r).HasChildren p (s.after (r'.map Prod.snd)) := by
  cases name with
  | none =>
      obtain rfl := Option.some.inj hr
      exact ⟨_, rfl, h⟩
  | some name =>
      cases hn : fs.nodes (fold name :: p) with
      | none =>
          simp only [Kvfs.eraseChild, hn] at hr
          obtain rfl := Option.some.inj hr
          exact ⟨_, eraseChild_absent (h.none_iff.1 hn), h⟩
      | some child =>
          obtain ⟨it, hit, -, hmount⟩ := h.child hn
          cases hob : child.mount with
          | none =>
              simp only [Kvfs.eraseChild, hn, hob, if_true] at hr
              cases hr
          | some ob =>
              simp only [Kvfs.eraseChild, hn, hob, if_true] at hr
              obtain rfl := Option.some.inj hr
              exact ⟨_, eraseChild_found hit (hmount.trans hob), h.erase hit rfl⟩

theorem HasChildren.mount {ob : Option Nat} {r : Except HRESULT Kvfs} (h : fs.HasChildren p s)
    (hnum : s.Numbered) (hr : fs.mount (fold name :: p) ob = some r) :
    ∃ it, s.getNode name = some it ∧ (fs.after r).HasChildren p (s.after (s.mount it ob)) := by
  cases hn : fs.nodes (fold name :: p) with
  | none =>
      simp only [Kvfs.mount, hn] at hr
      cases hr
  | some n =>
      obtain ⟨it, hit, hname, hmount⟩ := h.child hn
      refine ⟨it, hit, ?_⟩
      simp only [Kvfs.mount, hn] at hr
      unfold Children.mount
      rw [hmount]
      cases ob with
      | none =>
          obtain rfl := Option.some.inj hr
          exact h
      | some ob =>
          cases hold : n.mount with
          | some old =>
              rw [hold] at hr
              obtain rfl := Option.some.inj hr
              exact h
          | none =>
              rw [hold] at hr
              obtain rfl := Option.some.inj hr
              exact h.setMount hnum hit hname (some ob) rfl

theorem HasChildren.unmount {r : Except HRESULT Kvfs} (h : fs.HasChildren p s)
    (hnum : s.Numbered) (hr : fs.unmount (fold name :: p) = some r) :
    ∃ it, s.getNode name = some it ∧ (fs.after r).HasChildren p (s.after (s.unmount it)) := by
  cases hn : fs.nodes (fold name :: p) with
  | none =>
      simp only [Kvfs.unmount, hn] at hr
      cases hr
  | some n =>
      obtain ⟨it, hit, hname, hmount⟩ := h.child hn
      refine ⟨it, hit, ?_⟩
      simp only [Kvfs.unmount, hn] at hr
      unfold Children.unmount
      rw [hmount]
      cases hold : n.mount with
      | none =>
          rw [hold] at hr
          obtain rfl := Option.some.inj hr
          exact h
      | some ob =>
          rw [hold] at hr
          obtain rfl := Option.some.inj hr
          exact h.setMount hnum hit hname none rfl

/-- The children stay where their nodes do. -/
theorem HasChildren.of_same (h : fs.HasChildren p s)
    (hsame : ∀ dir, fs'.nodes (fold dir :: p) = fs.nodes (fold dir :: p)) :
    fs'.HasChildren p s := by
  intro name
  rw [hsame]
  exact h name

/-! ## All nodes -/

/-- The children of every node are what some calls make of the children of a new one. -/
structure Ordered (fs : Kvfs) : Prop where
  keyed : fs.Keyed
  children : ∀ p, ∃ calls s, Run Children.Step Children.new calls s ∧ fs.HasChildren p s

theorem new_ordered (objects : Nat → KoMountable) : (new objects).Ordered where
  keyed := new_keyed objects
  children := fun _ => ⟨[], Children.new, .nil, fun _ => rfl⟩

theorem Ordered.of_nodes (h : fs.Ordered) (hnodes : fs'.nodes = fs.nodes) : fs'.Ordered where
  keyed := fun a q n hn => h.keyed a q n (hnodes ▸ hn)
  children := by
    intro p
    obtain ⟨calls, s, hrun, hs⟩ := h.children p
    exact ⟨calls, s, hrun, hs.of_same fun _ => by rw [hnodes]⟩

theorem Ordered.addChild (h : fs.Ordered) (q : NodePath) (name : Option (List Char)) :
    (fs.addChild q name).2.Ordered := by
  have hnodes : ∀ a p, p ≠ q → (fs.addChild q name).2.nodes (a :: p) = fs.nodes (a :: p) := by
    intro a p hp
    unfold Kvfs.addChild
    split
    · rfl
    · split
      · rfl
      · exact Function.update_of_ne (fun heq => hp (List.cons_eq_cons.1 heq).2) _ _
  constructor
  · intro a p n hn
    unfold Kvfs.addChild at hn
    split at hn
    · exact h.keyed a p n hn
    · split at hn
      · exact h.keyed a p n hn
      · rw [nodes_setNode] at hn
        split at hn
        · rename_i name _ _ heq
          obtain ⟨rfl, rfl⟩ := List.cons_eq_cons.1 heq
          rw [← Option.some.inj hn]
        · exact h.keyed a p n hn
  · intro p
    obtain ⟨calls, s, hrun, hs⟩ := h.children p
    by_cases hp : p = q
    · subst hp
      exact ⟨_, _, hrun.snoc (i := .addChild name) rfl, hs.addChild name⟩
    · exact ⟨calls, s, hrun, hs.of_same fun dir => hnodes (fold dir) p hp⟩

/-- What is mounted on one node changes, by a call on the children that it is one of. -/
theorem Ordered.changed (h : fs.Ordered) {q : NodePath} {n : Node} {m : Option Nat}
    (hn : fs.nodes q = some n)
    (hnodes : ∀ x, fs'.nodes x = if x = q then some { n with mount := m } else fs.nodes x)
    (hcall : ∀ p s, q = fold n.name :: p → s.Numbered → fs.HasChildren p s →
      ∃ c t, Children.Step s c t ∧ fs'.HasChildren p t) : fs'.Ordered := by
  constructor
  · intro a p k hk
    rw [hnodes] at hk
    split at hk
    · rename_i hq
      rw [← Option.some.inj hk]
      exact h.keyed a p n (hq ▸ hn)
    · exact h.keyed a p k hk
  · intro p
    obtain ⟨calls, s, hrun, hs⟩ := h.children p
    by_cases hq : q = fold n.name :: p
    · obtain ⟨c, t, hstep, ht⟩ := hcall p s hq (run_numbered hrun) hs
      exact ⟨c :: calls, t, hrun.snoc hstep, ht⟩
    · refine ⟨calls, s, hrun, hs.of_same fun dir => ?_⟩
      rw [hnodes, if_neg]
      rintro rfl
      exact hq (by rw [h.keyed _ _ n hn])

theorem Ordered.after_mount {q : NodePath} {ob : Option Nat} {r : Except HRESULT Kvfs}
    (h : fs.Ordered) (hmount : fs.mount q ob = some r) : (fs.after r).Ordered := by
  rcases mount_cases hmount with ⟨e, rfl⟩ | ⟨n, o, hn, -, rfl, rfl⟩
  · exact h
  · refine h.changed hn (nodes_setNode fs q _) ?_
    rintro p s rfl hnum hs
    obtain ⟨it, hit, hafter⟩ := hs.mount hnum hmount
    exact ⟨.mount n.name (some o), _, congrArg (Option.map _) hit, hafter⟩

theorem Ordered.after_unmount {q : NodePath} {r : Except HRESULT Kvfs} (h : fs.Ordered)
    (hunmount : fs.unmount q = some r) : (fs.after r).Ordered := by
  rcases unmount_cases hunmount with ⟨e, rfl⟩ | ⟨n, o, hn, -, rfl⟩
  · exact h
  · refine h.changed hn (nodes_setNode _ q _) ?_
    rintro p s rfl hnum hs
    obtain ⟨it, hit, hafter⟩ := hs.unmount hnum hunmount
    exact ⟨.unmount n.name, _, congrArg (Option.map _) hit, hafter⟩

/-- A child on which something is mounted can be erased. -/
theorem Ordered.erase_mounted {q : NodePath} {dir : List Char} {child : Node} {o : Nat}
    (h : fs.Ordered) (hchild : fs.nodes (fold dir :: q) = some child)
    (hmount : child.mount = some o) : (fs.erase (fold dir :: q)).Ordered := by
  constructor
  · exact fun a p n hn => h.keyed a p n (nodes_of_erase hn).1
  · intro p
    by_cases hbelow : fold dir :: q <:+ p
    · -- the node is gone with the child
      refine ⟨[], Children.new, .nil, fun name => ?_⟩
      rw [nodes_erase, if_pos (hbelow.trans (List.suffix_cons _ _))]
      rfl
    · obtain ⟨calls, s, hrun, hs⟩ := h.children p
      by_cases hp : p = q
      · subst hp
        obtain ⟨it, hit, -, hob⟩ := hs.child hchild
        refine ⟨_, _, hrun.snoc (i := .eraseChild (some dir)) ?_, hs.erase hit rfl⟩
        exact congrArg (Option.map _) (eraseChild_found hit (hob.trans hmount))
      · refine ⟨calls, s, hrun, hs.of_same fun name => ?_⟩
        rw [nodes_erase, if_neg]
        rintro hsuffix
        rcases List.suffix_cons_iff.1 hsuffix with heq | hsuffix
        · exact hp (List.cons_eq_cons.1 heq).2.symm
        · exact hbelow hsuffix

/-- An object can be mounted on a child before it is erased. -/
theorem Ordered.erase {q : NodePath} {dir : List Char} {child : Node} (h : fs.Ordered)
    (hchild : fs.nodes (fold dir :: q) = some child) : (fs.erase (fold dir :: q)).Ordered := by
  cases hmount : child.mount with
  | some o => exact h.erase_mounted hchild hmount
  | none =>
      have hcall : fs.mount (fold dir :: q) (some 0) = some (.ok
          ((fs.setNode (fold dir :: q) { child with mount := some 0 }).bindNode 0 child.id)) := by
        simp only [Kvfs.mount, hchild, hmount]
      have hsome : (fs.after (.ok ((fs.setNode (fold dir :: q)
          { child with mount := some 0 }).bindNode 0 child.id))).nodes (fold dir :: q) =
            some { child with mount := some 0 } := by
        show (fs.setNode (fold dir :: q) _).nodes (fold dir :: q) = _
        rw [nodes_setNode, if_pos rfl]
      refine ((h.after_mount hcall).erase_mounted hsome rfl).of_nodes (funext fun x => ?_)
      rw [nodes_erase, nodes_erase]
      by_cases hx : fold dir :: q <:+ x
      · rw [if_pos hx, if_pos hx]
      · rw [if_neg hx, if_neg hx]
        show fs.nodes x = (fs.setNode (fold dir :: q) _).nodes x
        rw [nodes_setNode, if_neg]
        rintro rfl
        exact hx (List.suffix_refl _)

theorem step_ordered {call : VfsCall} (hwf : fs.WellFormed) (h : fs.Ordered)
    (hstep : Step fs call fs') : fs'.Ordered := by
  cases hstep with
  | create target hlive => exact h.of_nodes rfl
  | hold hlive => exact h.of_nodes rfl
  | release => exact h.of_nodes rfl
  | mount _ hmount => exact h.after_mount hmount
  | unmount hunmount => exact h.after_unmount hunmount
  | addChild name _ => exact h.addChild _ name
  | eraseChild _ herase =>
      rcases eraseChild_cases herase with
        ⟨e, rfl⟩ | ⟨dir, child, -, hchild, ⟨-, o, -, rfl⟩ | ⟨-, r', hunmount, rfl⟩⟩
      · exact h
      · exact (h.of_nodes rfl : ((fs.bindNode o none).hold o true).Ordered).erase hchild
      · refine (h.after_unmount hunmount).erase (show _ = some child from ?_)
        rcases unmount_cases hunmount with ⟨e, rfl⟩ | ⟨n, o, -, -, rfl⟩
        · exact hchild
        · refine (nodes_setNode _ _ _ _).trans ?_
          rw [if_neg (by simp)]
          exact hchild
  | createPath _ hroot hcreate =>
      refine createPathLoop_keeps (P := Ordered) ?_ ?_ hwf hroot rfl hcreate h
      · intro fs q dir _ _ _ hfs
        unfold visit
        split
        · exact hfs
        · exact hfs.addChild q (some dir)
      · exact fun _ _ _ _ hfs hmount => hfs.after_mount hmount

/-- In every tree that calls make, the children of each node are those that some calls make of a
new node, one for each name. -/
theorem run_nodeChildren {objects : Nat → KoMountable} {calls : List VfsCall}
    (hrun : Run Step (new objects) calls fs) (p : NodePath) :
    ∃ calls s, Run Children.Step Children.new calls s ∧ s.ChildrenLaw ∧ fs.HasChildren p s := by
  have hboth := hrun.invariant (P := fun fs => fs.WellFormed ∧ fs.Ordered)
    ⟨wf_new objects, new_ordered objects⟩
    fun _ _ _ h hstep => ⟨step_wf h.1 hstep, step_ordered h.1 h.2 hstep⟩
  obtain ⟨calls, s, hcalls, hs⟩ := hboth.2.children p
  exact ⟨calls, s, hcalls, (run_numbered hcalls).law, hs⟩

end Kvfs

end Vin64.Kernel
