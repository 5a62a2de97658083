import Vin64.Vm.Proofs.Alloc

/-!
# What the calls of a page table do

`vmmap`, `vmunmap`, `vmattr` and `get_pma` on a table whose blocks are in their slots and form
a tree.
-/

namespace Vin64.Vm

open Vin64.Lib Vin64.Lib.Op Vin64.Lib.Radix Vin64.Utils Vin64.Vram PageTable

variable {ε : Type} {x : X64} {t u : PageTable} {a b : Nat} {alloc : Fin 4 → Walk Nat}
  {q : List (Fin 512)} {j : Fin 512}

/-- The walk to the entry of `v` finds its tables. -/
def PageTable.HasTable (x : X64) (t : PageTable) (v : Nat) : Prop :=
  ∃ a, t.reach x (tablePath v) = some a

/-! ## Entries that are there -/

theorem reach_cons (hq : t.reach x q = some a) (j : Fin 512) :
    t.reach x (j :: q) = (x.level q.length).follow (t.entry (a + 8 * j)) := by
  obtain ⟨root, hr, hw⟩ := exists_root hq
  rw [reach_of_root hr, walk_cons_of hw, entry_eq]
  rfl

theorem reach_of_cons (h : t.reach x (j :: q) = some b) : ∃ a, t.reach x q = some a := by
  obtain ⟨root, hr, hw⟩ := exists_root h
  obtain ⟨a, ha, _⟩ := walk_cons_eq_some.1 hw
  exact ⟨a, by rw [reach_of_root hr, ha]⟩

theorem Format.follow_eq_some {f : Format} {w : Entry} :
    f.follow w = some b ↔ f.P w = true ∧ f.base w = b := by
  unfold Format.follow
  split_ifs with hP <;> simp [hP]

theorem Format.follow_eq_none {f : Format} {w : Entry} : f.follow w = none ↔ f.P w = false := by
  unfold Format.follow
  split_ifs with hP <;> simp [hP]

theorem rootTable_of {r : Nat} (hr : t.root = some r) (alloc_new : Bool) :
    rootTable alloc alloc_new t = some (.ok r, t) := by
  unfold PageTable.root PageTable.addrs at hr
  unfold rootTable
  cases hpages : t.pages with
  | nil =>
      rw [hpages] at hr
      simp at hr
  | cons p rest =>
      rw [hpages] at hr
      obtain rfl := Option.some.inj hr
      rw [bind_ok (a := t) (t := t) rfl, hpages]
      rfl

theorem rootTable_none (hr : t.root = none) : rootTable alloc false t = some (.error (), t) := by
  unfold PageTable.root PageTable.addrs at hr
  have hpages : t.pages = [] := by simpa using hr
  unfold rootTable
  rw [bind_ok (a := t) (t := t) rfl, hpages]
  rfl

/-- The entry at the end of a path of up to three indices can be read. -/
theorem readEntry_reach (hs : Shaped x t) (hlen : q.length ≤ 3) (hq : t.reach x q = some a)
    (j : Fin 512) : (readEntry (a + 8 * j) : Op PageTable ε Entry) t =
      some (.ok (t.entry (a + 8 * j)), t) :=
  readEntry_eq (hs.entry_in_ram (hs.mem hlen hq) j)

theorem modifyEntry_reach (hs : Shaped x t) (hlen : q.length ≤ 3) (hq : t.reach x q = some a)
    (j : Fin 512) (f : Entry → Entry) : (modifyEntry (a + 8 * j) f : Op PageTable ε Unit) t =
      some (.ok (), t.setEntry (a + 8 * j) (f (t.entry (a + 8 * j)))) :=
  modifyEntry_eq f (hs.entry_in_ram (hs.mem hlen hq) j)

theorem nextTable_of (hs : Shaped x t) (hlen : q.length ≤ 3) (hq : t.reach x q = some a)
    (hb : t.reach x (j :: q) = some b) (l : Fin 4) (alloc_new : Bool) :
    nextTable alloc (x.level q.length) l alloc_new (a + 8 * j) t = some (.ok b, t) := by
  rw [reach_cons hq] at hb
  obtain ⟨hP, rfl⟩ := Format.follow_eq_some.1 hb
  unfold nextTable
  rw [bind_ok (readEntry_reach hs hlen hq j), hP]
  rfl

theorem nextTable_none (hs : Shaped x t) (hlen : q.length ≤ 3) (hq : t.reach x q = some a)
    (hb : t.reach x (j :: q) = none) (l : Fin 4) :
    nextTable alloc (x.level q.length) l false (a + 8 * j) t = some (.error (), t) := by
  rw [reach_cons hq] at hb
  unfold nextTable
  rw [bind_ok (readEntry_reach hs hlen hq j), Format.follow_eq_none.1 hb]
  rfl

theorem getPteWith_of {v : Nat} (hs : Shaped x t) (hq : t.reach x (tablePath v) = some a)
    (alloc_new : Bool) :
    getPteWith alloc x v alloc_new t = some (.ok (a + 8 * ipte v), t) := by
  obtain ⟨pd, hpd⟩ := reach_of_cons hq
  obtain ⟨pdp, hpdp⟩ := reach_of_cons hpd
  obtain ⟨pmlt, hpmlt⟩ := reach_of_cons hpdp
  obtain ⟨root, hroot, hw⟩ := exists_root hpmlt
  obtain rfl : root = pmlt := Option.some.inj hw
  unfold getPteWith
  calc _ = _ := bind_ok (rootTable_of hroot alloc_new)
    _ = _ := bind_ok (nextTable_of hs (by simp) hpmlt hpdp 1 alloc_new)
    _ = _ := bind_ok (nextTable_of hs (by simp) hpdp hpd 2 alloc_new)
    _ = _ := bind_ok (nextTable_of hs (by simp) hpd hq 3 alloc_new)
    _ = some (.ok (a + 8 * ipte v), t) := rfl

theorem getPteWith_none {v : Nat} (hs : Shaped x t) (hq : t.reach x (tablePath v) = none) :
    getPteWith alloc x v false t = some (.error (), t) := by
  unfold getPteWith
  cases hroot : t.root with
  | none => exact bind_error (rootTable_none hroot)
  | some root =>
      have hpmlt : t.reach x [] = some root := reach_of_root hroot []
      refine (bind_ok (rootTable_of hroot false)).trans ?_
      cases hpdp : t.reach x [ipml4 v] with
      | none => exact bind_error (nextTable_none hs (by simp) hpmlt hpdp 1)
      | some pdp =>
          refine (bind_ok (nextTable_of hs (by simp) hpmlt hpdp 1 false)).trans ?_
          cases hpd : t.reach x [ipdpe v, ipml4 v] with
          | none => exact bind_error (nextTable_none hs (by simp) hpdp hpd 2)
          | some pd =>
              refine (bind_ok (nextTable_of hs (by simp) hpdp hpd 2 false)).trans ?_
              exact bind_error (nextTable_none hs (by simp) hpd hq 3)

/-! ## The calls -/

/-- An address is mapped to what its entry leads to. -/
theorem lookup_of {v : Nat} (hq : t.reach x (tablePath v) = some a) :
    lookup x t v = x.pte.follow (t.entry (a + 8 * ipte v)) := reach_cons hq (ipte v)

theorem lookup_none {v : Nat} (hq : t.reach x (tablePath v) = none) : lookup x t v = none := by
  cases hv : lookup x t v with
  | none => rfl
  | some b =>
      obtain ⟨a, ha⟩ := reach_of_cons (q := tablePath v) hv
      rw [hq] at ha
      simp at ha

/-- `get_pma` reads the mapping off the tables. -/
theorem getPma_eq (hs : Shaped x t) (v : Nat) : getPma x v t = some (.ok (lookup x t v), t) := by
  unfold getPma
  cases hq : t.reach x (tablePath v) with
  | none =>
      rw [bind_ok (attempt_eq (getPteWith_none hs hq)), lookup_none hq]
      rfl
  | some a =>
      rw [bind_ok (attempt_eq (getPteWith_of hs hq false)), lookup_of hq]
      refine (bind_ok (readEntry_reach hs (by simp [tablePath]) hq (ipte v))).trans ?_
      unfold Format.follow
      cases hP : x.pte.P (t.entry (a + 8 * ipte v)) <;> rfl

theorem lookup_of_getPma {v : Nat} {r : Option Nat} (hs : Shaped x t)
    (h : getPma x v t = some (.ok r, u)) : lookup x t v = r :=
  Except.ok.inj (outcome_unique (getPma_eq hs v) h).1

/-- `vmmap` of a page that is mapped fails. -/
theorem vmmapWith_mapped {v p b : Nat} {attr : BitVec 64} (hs : Shaped x t)
    (hattr : attr &&& R ≠ 0#64) (hv : lookup x t v = some b) :
    vmmapWith x alloc v p attr t = some (.error .E_UNEXPECTED, t) := by
  obtain ⟨a, hq⟩ := reach_of_cons (q := tablePath v) hv
  rw [lookup_of hq] at hv
  unfold vmmapWith
  rw [if_neg hattr, bind_ok (attempt_eq (getPteWith_of hs hq true))]
  refine (bind_ok (readEntry_reach hs (by simp [tablePath]) hq (ipte v))).trans ?_
  rw [(Format.follow_eq_some.1 hv).1]
  rfl

theorem vmunmap_unmapped {v : Nat} (hs : Shaped x t) (hv : lookup x t v = none) :
    ∃ er, vmunmap x v t = some (.error er, t) := by
  unfold vmunmap
  cases hq : t.reach x (tablePath v) with
  | none => exact ⟨.E_OUTOFMEMORY, by rw [bind_ok (attempt_eq (getPteWith_none hs hq))]; rfl⟩
  | some a =>
      rw [lookup_of hq] at hv
      refine ⟨.E_UNEXPECTED, ?_⟩
      rw [bind_ok (attempt_eq (getPteWith_of hs hq false))]
      refine (bind_ok (readEntry_reach hs (by simp [tablePath]) hq (ipte v))).trans ?_
      rw [Format.follow_eq_none.1 hv]
      rfl

/-- A call wrote the entry of `v`: every other page is mapped as it was. -/
structure Assigns (x : X64) (t u : PageTable) (v : Nat) (r : Option Nat) : Prop where
  shaped : Shaped x u
  here : ∀ w, pageNumber w = pageNumber v → lookup x u w = r
  rest : ∀ w, pageNumber w ≠ pageNumber v → lookup x u w = lookup x t w
  table : HasTable x u v
  tables : SameBut x t u (tablePath v)
  spared : Spared t u
  held : Held t → Held u
  pages : ∀ m ∈ t.pages, m ∈ u.pages
  attr : u.attr = t.attr

theorem assigns_entry {v : Nat} (hs : Shaped x t) (hq : t.reach x (tablePath v) = some a) (W : Entry) :
    Assigns x t (t.setEntry (a + 8 * ipte v) W) v (x.pte.follow W) := by
  obtain ⟨hshaped, hlookup, hspared⟩ := hs.assign (by rfl) hq (ipte v) W
  have htables : ∀ w, (t.setEntry (a + 8 * ipte v) W).reach x (tablePath w) =
      t.reach x (tablePath w) := by
    intro w
    rw [(hs.assign_reach (by rfl) hq (ipte v) W).2 (tablePath w) (by simp [tablePath]),
      if_neg (by simp [tablePath])]
  refine ⟨hshaped, ?_, ?_, ⟨a, (htables v).trans hq⟩, fun w _ => htables w, hspared,
    fun hh => ⟨hh.loaded, hh.locked⟩, fun _ => id, rfl⟩
  · intro w hw
    rw [hlookup w, ← path_eq, if_pos (path_eq_iff.2 hw)]
  · intro w hw
    rw [hlookup w, ← path_eq, if_neg fun h => hw (path_eq_iff.1 h)]

theorem Grown.assigns {v : Nat} {r : Option Nat} {w : PageTable} (h : Grown x t u)
    (hsp : Spared t u) (hsame : SameBut x t u (tablePath v)) (h' : Assigns x u w v r) :
    Assigns x t w v r where
  shaped := h'.shaped
  here := h'.here
  rest := fun y hy => (h'.rest y hy).trans (h.lookup y)
  table := h'.table
  tables := fun y hy => (h'.tables y hy).trans (hsame y hy)
  spared := hsp.trans h'.spared h'.pages
  held := h'.held ∘ h.held
  pages := fun m hm => h'.pages m (h.pages m hm)
  attr := h'.attr.trans h.attr

theorem vmunmap_mapped {v b : Nat} (hs : Shaped x t) (hv : lookup x t v = some b) :
    ∃ u, vmunmap x v t = some (.ok (), u) ∧ Assigns x t u v none := by
  obtain ⟨a, hq⟩ := reach_of_cons (q := tablePath v) hv
  have hassigns := assigns_entry hs hq fun _ => 0
  rw [Format.follow_of_not _ x.pte.P_zero] at hassigns
  refine ⟨_, ?_, hassigns⟩
  rw [lookup_of hq] at hv
  unfold vmunmap
  rw [bind_ok (attempt_eq (getPteWith_of hs hq false))]
  refine (bind_ok (readEntry_reach hs (by simp [tablePath]) hq (ipte v))).trans ?_
  rw [(Format.follow_eq_some.1 hv).1, if_neg (by simp)]
  exact modifyEntry_reach hs (by simp [tablePath]) hq (ipte v) _

/-- The entry after `set_attr` -/
def withAttr (x : X64) (f : BitVec 64) (ent : Entry) : Entry :=
  x.pte.setNX (!decide (f &&& X ≠ 0#64))
    (x.pte.setRW (f &&& W ≠ 0#64) (x.pte.setP (f &&& R ≠ 0#64) ent))

theorem follow_withAttr (f : BitVec 64) (ent : Entry) : x.pte.follow (withAttr x f ent) =
    if f &&& R ≠ 0#64 then some (x.pte.base ent) else none := by
  unfold Format.follow withAttr
  simp

theorem wlp_setAttr {Q : Unit → PageTable → Prop} {E : ε → PageTable → Prop} {pte : Nat}
    {f : BitVec 64} (h : Q () (t.setEntry pte (withAttr x f (t.entry pte)))) :
    wlp (setAttr x pte f : Op PageTable ε Unit) Q E t := by
  unfold setAttr setR setW setX
  simp only [wlp_bind, wlp_modifyEntry, entry_setEntry, setEntry_setEntry]
  exact fun _ _ _ => h

/-- `vmattr` writes the entry that the walk finds, mapped or not. -/
theorem wlp_vmattr (hs : Shaped x t) (v : Nat) (f : BitVec 64) :
    wlp (vmattr x v f)
      (fun found u => (¬ HasTable x t v ∧ found = false ∧ u = t) ∨
        (HasTable x t v ∧ found = true ∧ ∃ r, Assigns x t u v r))
      (fun _ _ => False) t := by
  unfold vmattr
  rw [wlp_bind, wlp_attempt]
  cases hq : t.reach x (tablePath v) with
  | none =>
      unfold wlp
      rw [getPteWith_none hs hq]
      refine .inl ⟨?_, rfl, rfl⟩
      unfold HasTable
      simp [hq]
  | some a =>
      unfold wlp
      rw [getPteWith_of hs hq false]
      show wlp _ _ _ t
      rw [wlp_bind]
      exact wlp_setAttr (.inr ⟨⟨a, hq⟩, rfl, _, assigns_entry hs hq _⟩)

/-- `vmmap` of a page that is not mapped maps it, or there is no memory for the tables. -/
theorem wlp_vmmapWith {need : Prop} {v p : Nat} {attr : BitVec 64} (halloc : Serves x need alloc)
    (hs : Shaped x t) (hneed : need → Held t) (hattr : attr &&& R ≠ 0#64)
    (hv : lookup x t v = none) :
    wlp (vmmapWith x alloc v p attr)
      (fun _ u => ∃ r, Assigns x t u v (some r) ∧ (x.pte.keeps p → r = p))
      (fun er u => er = .E_OUTOFMEMORY ∧ Grown x t u ∧ SameBut x t u []) t := by
  unfold vmmapWith
  rw [if_neg hattr, wlp_bind, wlp_attempt]
  apply wlp_mono (wlp_getPteWith halloc hs hneed v)
  · intro pte u hu
    obtain ⟨hgrown, hspared, ⟨a, hq, rfl⟩, hsame⟩ := hu
    have hnone : x.pte.P (u.entry (a + 8 * ipte v)) = false := by
      apply Format.follow_eq_none.1
      rw [← lookup_of hq, hgrown.lookup v, hv]
    simp only [wlp_bind, wlp_readEntry, hnone, Bool.false_eq_true, if_false, wlp_modifyEntry]
    intro _ _
    apply wlp_setAttr
    rw [entry_setEntry, setEntry_setEntry]
    have hassigns := assigns_entry hgrown.shaped hq
      (withAttr x attr (x.pte.setBase p (u.entry (a + 8 * ipte v))))
    rw [follow_withAttr, if_pos hattr] at hassigns
    exact ⟨_, hgrown.assigns hspared hsame hassigns, fun hkeeps => x.pte.base_setBase _ _ hkeeps⟩
  · exact fun _ u hu => ⟨rfl, hu⟩

end Vin64.Vm
