import Vin64.Vx64.Dispatch
import Vin64.Vx64.Proofs.PhysMap

/-!
# Sections are found again

`mem_add` gives every address of a section to the region of the section, with its offset, and
changes no other address.  RAM that does not fill a page is reached through `io_mem_subpage_ram`.
-/

namespace Vin64.Vx64

variable {d d' : AddressSpaceDispatch} {s s' : MemoryRegionSection} {isRam : Nat → Bool}
  {a x k i : Nat} {pending : Option Nat}

/-! ## What an address shows -/

/-- The region and the offset that a section gives an address. -/
def MemoryRegionSection.shown (s : MemoryRegionSection) (a : Nat) : Option (SectionRegion × Int) :=
  if s.mr = .ioMemUnassigned then none else some (s.mr, memoryRegionSectionAddr s a)

/-- What an access reaches, when the address is assigned. -/
def AddressSpaceDispatch.mapped (d : AddressSpaceDispatch) (a : Nat) :
    Option (SectionRegion × Int) :=
  (d.locate a).filter fun r => r.1 ≠ .ioMemUnassigned

/-- The page has a subpage, whose bytes have sections. -/
structure HasSubpage (d : AddressSpaceDispatch) (x k : Nat) (s : MemoryRegionSection)
    (mmio : Subpage) : Prop where
  mr : s.mr = .subpage k
  start : s.offsetWithinAddressSpace = x * 4096
  offset : s.offsetWithinRegion = 0
  subpage : d.subpages[k]? = some mmio
  base : mmio.base = x * 4096
  bytes : ∀ i < 4096, ∃ s, d.physSections[mmio.subSection i]? = some s ∧ ∀ j, s.mr ≠ .subpage j

/-- A page has a section of its own, or a subpage.  Some byte of a subpage is assigned, but for one
that is still to be registered. -/
def PageInv (d : AddressSpaceDispatch) (pending : Option Nat) (x : Nat) : Prop :=
  ∃ s, d.pageFind x = some s ∧ ((∀ k, s.mr ≠ .subpage k) ∨
    ∃ k mmio, HasSubpage d x k s mmio ∧
      (pending ≠ some x → ∃ i < 4096, mmio.subSection i ≠ PHYS_SECTION_UNASSIGNED))

structure AddressSpaceDispatch.Inv (d : AddressSpaceDispatch) (pending : Option Nat) : Prop where
  valid : d.physMap.Valid PHYS_SECTION_UNASSIGNED
  first : d.physSections[PHYS_SECTION_UNASSIGNED]? = some (dummySection .ioMemUnassigned)
  assigned : ∀ i s, i ≠ PHYS_SECTION_UNASSIGNED → d.physSections[i]? = some s →
    s.mr ≠ .ioMemUnassigned
  page : ∀ x < 2 ^ 40, PageInv d pending x

theorem filter_shown (s : MemoryRegionSection) (a : Nat) :
    (some (s.mr, memoryRegionSectionAddr s a)).filter (fun r => r.1 ≠ .ioMemUnassigned) =
      s.shown a := by
  unfold MemoryRegionSection.shown
  by_cases h : s.mr = .ioMemUnassigned
  · rw [if_pos h, Option.filter_some, if_neg (by simp [h])]
  · rw [if_neg h, Option.filter_some, if_pos (by simp [h])]

theorem mapped_of_page (hs : d.pageFind (a / 4096) = some s) (hmr : ∀ k, s.mr ≠ .subpage k) :
    d.mapped a = s.shown a := by
  rw [← filter_shown, AddressSpaceDispatch.mapped, AddressSpaceDispatch.locate, hs]
  cases hcase : s.mr with
  | subpage k => exact absurd hcase (hmr k)
  | _ => simp only [Option.bind_eq_bind, Option.bind_some, hcase]

theorem mapped_of_subpage {mmio : Subpage} (hs : d.pageFind (a / 4096) = some s)
    (hsub : HasSubpage d (a / 4096) k s mmio)
    (hbyte : d.physSections[mmio.subSection (a % 4096)]? = some s') :
    d.mapped a = s'.shown a := by
  have haddr : memoryRegionSectionAddr s a = (a % 4096 : Nat) := by
    rw [memoryRegionSectionAddr, hsub.start, hsub.offset]
    omega
  have hidx : (memoryRegionSectionAddr s a).toNat % 4096 = a % 4096 := by
    rw [haddr, Int.toNat_natCast, Nat.mod_mod]
  have hsum : memoryRegionSectionAddr s a + mmio.base - s'.offsetWithinAddressSpace +
      s'.offsetWithinRegion = memoryRegionSectionAddr s' a := by
    rw [haddr, hsub.base, memoryRegionSectionAddr]
    omega
  rw [← filter_shown, AddressSpaceDispatch.mapped, AddressSpaceDispatch.locate, hs]
  simp only [Option.bind_eq_bind, Option.bind_some, hsub.mr, hsub.subpage, hidx, hbyte, hsum]

theorem shown_eq_none_iff : s.shown a = none ↔ s.mr = .ioMemUnassigned := by
  unfold MemoryRegionSection.shown
  split <;> simp [*]

theorem AddressSpaceDispatch.Inv.index_eq (h : d.Inv pending) (hs : d.physSections[i]? = some s)
    (hmr : s.mr = .ioMemUnassigned) : i = PHYS_SECTION_UNASSIGNED :=
  Classical.not_not.1 fun hne => h.assigned i s hne hs hmr

/-- A page without a subpage that has a free address is free. -/
theorem AddressSpaceDispatch.Inv.find_eq (h : d.Inv pending) (hs : d.pageFind (a / 4096) = some s)
    (hmr : ∀ k, s.mr ≠ .subpage k) (hfree : d.mapped a = none) :
    physPageFind PHYS_SECTION_UNASSIGNED d.physMap (a / 4096) = PHYS_SECTION_UNASSIGNED := by
  rw [mapped_of_page hs hmr, shown_eq_none_iff] at hfree
  exact h.index_eq hs hfree

/-! ## What stays -/

/-- The page shows the same sections. -/
structure KeepsPage (d d' : AddressSpaceDispatch) (x : Nat) : Prop where
  sections : ∀ (i : Nat) (s : MemoryRegionSection),
    d.physSections[i]? = some s → d'.physSections[i]? = some s
  find : physPageFind PHYS_SECTION_UNASSIGNED d'.physMap x =
    physPageFind PHYS_SECTION_UNASSIGNED d.physMap x
  subpage : ∀ (k : Nat) (mmio : Subpage), d.subpages[k]? = some mmio → mmio.base = x * 4096 → d'.subpages[k]? = some mmio

theorem KeepsPage.pageFind (h : KeepsPage d d' x) (hs : d.pageFind x = some s) :
    d'.pageFind x = some s := by
  rw [AddressSpaceDispatch.pageFind, h.find]
  exact h.sections _ s hs

theorem KeepsPage.hasSubpage {mmio : Subpage} (h : KeepsPage d d' x)
    (hsub : HasSubpage d x k s mmio) : HasSubpage d' x k s mmio :=
  { hsub with
    subpage := h.subpage k mmio hsub.subpage hsub.base
    bytes := fun i hi => (hsub.bytes i hi).imp fun t ht => ⟨h.sections _ t ht.1, ht.2⟩ }

theorem KeepsPage.pageInv (h : KeepsPage d d' x) (hpage : PageInv d pending x) :
    PageInv d' pending x := by
  obtain ⟨s, hs, hcase⟩ := hpage
  refine ⟨s, h.pageFind hs, hcase.imp_right ?_⟩
  rintro ⟨k, mmio, hsub, hbyte⟩
  exact ⟨k, mmio, h.hasSubpage hsub, hbyte⟩

theorem KeepsPage.mapped (h : KeepsPage d d' (a / 4096)) (hpage : PageInv d pending (a / 4096)) :
    d'.mapped a = d.mapped a := by
  obtain ⟨s, hs, hmr | ⟨k, mmio, hsub, -⟩⟩ := hpage
  · rw [mapped_of_page hs hmr, mapped_of_page (h.pageFind hs) hmr]
  · obtain ⟨t, ht, -⟩ := hsub.bytes (a % 4096) (Nat.mod_lt _ (by decide))
    rw [mapped_of_subpage hs hsub ht,
      mapped_of_subpage (h.pageFind hs) (h.hasSubpage hsub) (h.sections _ t ht)]

theorem PageInv.mono (h : PageInv d pending x) (hpending : pending = none ∨ pending = some k) :
    PageInv d (some k) x := by
  obtain ⟨s, hs, hcase⟩ := h
  refine ⟨s, hs, hcase.imp_right ?_⟩
  rintro ⟨j, mmio, hsub, hbyte⟩
  refine ⟨j, mmio, hsub, fun hne => hbyte ?_⟩
  rcases hpending with rfl | rfl
  · exact nofun
  · exact hne

theorem AddressSpaceDispatch.Inv.mono (h : d.Inv pending)
    (hpending : pending = none ∨ pending = some k) : d.Inv (some k) :=
  { h with page := fun x hx => (h.page x hx).mono hpending }

theorem getElem?_append_some {l l' : List MemoryRegionSection} (h : l[i]? = some s) :
    (l ++ l')[i]? = some s := by
  rw [List.getElem?_append_left (List.getElem?_eq_some_iff.1 h).1]
  exact h

/-- What was added to the sections is not unassigned. -/
theorem assigned_append {l : List MemoryRegionSection} {t : MemoryRegionSection}
    (h : ∀ i s, i ≠ PHYS_SECTION_UNASSIGNED → l[i]? = some s → s.mr ≠ .ioMemUnassigned)
    (ht : t.mr ≠ .ioMemUnassigned) (i : Nat) (s : MemoryRegionSection)
    (hi : i ≠ PHYS_SECTION_UNASSIGNED) (hs : (l ++ [t])[i]? = some s) :
    s.mr ≠ .ioMemUnassigned := by
  rw [List.getElem?_append] at hs
  split at hs
  · exact h i s hi hs
  · rw [List.getElem?_singleton] at hs
    split at hs
    · exact Option.some.inj hs ▸ ht
    · cases hs

theorem page_lt (h : a < 2 ^ 52) : a / 4096 < 2 ^ 40 := Nat.div_lt_of_lt_mul h

/-! ## Subpages -/

/-- The dispatch with a subpage for a page that is mapped to it. -/
def AddressSpaceDispatch.addSubpage (d : AddressSpaceDispatch) (m : PhysMap) (x : Nat) :
    AddressSpaceDispatch :=
  ⟨m, d.physSections ++ [⟨.subpage d.subpages.length, 0, 4096, x * 4096, false⟩],
    d.subpages ++ [⟨x * 4096, fun _ => PHYS_SECTION_UNASSIGNED⟩]⟩

/-- The page has a subpage, which is made when the page is free. -/
theorem subpageAt_spec (h : d.Inv pending) (hpending : pending = none ∨ pending = some x)
    (hx : x < 2 ^ 40) (hax : a / 4096 = x) (hfree : d.mapped a = none)
    (hroom : d.physMap.nodesNb + 7 ≤ PHYS_MAP_NODE_NIL) (hroom' : d.physSections.length < 32768) :
    ∃ k d' s mmio, subpageAt d (x * 4096) = some (k, d') ∧ d'.Inv (some x) ∧
      d'.pageFind x = some s ∧ HasSubpage d' x k s mmio ∧
      (∀ a < 2 ^ 52, d'.mapped a = d.mapped a) ∧
      d'.physSections.length ≤ d.physSections.length + 1 ∧
      d'.physMap.nodesNb ≤ d.physMap.nodesNb + 7 := by
  obtain ⟨s, hs, hmr | ⟨k, mmio, hsub, -⟩⟩ := h.page x hx
  · subst hax
    have hindex := h.find_eq hs hmr hfree
    have hunassigned : s.mr = .ioMemUnassigned := by
      rwa [mapped_of_page hs hmr, shown_eq_none_iff] at hfree
    have hpos : 0 < d.physSections.length := (List.getElem?_eq_some_iff.1 h.first).1
    have hleaf : d.physSections.length % 65536 = d.physSections.length :=
      Nat.mod_eq_of_lt (by omega)
    have hone : ∀ y, a / 4096 ≤ y → y < a / 4096 + 1 →
        physPageFind PHYS_SECTION_UNASSIGNED d.physMap y = PHYS_SECTION_UNASSIGNED :=
      fun y hy hy' => by rwa [show y = a / 4096 by omega]
    have hend : a / 4096 + 1 ≤ 2 ^ 40 := hx
    obtain ⟨m', hrun, hvalid, hcount, hfind⟩ := physPageSet_spec h.valid (by decide)
      (Nat.ne_of_gt hpos) hroom' Nat.one_pos hend hone hroom
    have hkeeps : ∀ y < 2 ^ 40, y ≠ a / 4096 → KeepsPage d (d.addSubpage m' (a / 4096)) y := by
      intro y hy hne
      refine ⟨fun i s => getElem?_append_some, ?_, fun k mmio hk _ => ?_⟩
      · rw [AddressSpaceDispatch.addSubpage, hfind y hy, if_neg (by omega)]
      · rw [AddressSpaceDispatch.addSubpage,
          List.getElem?_append_left (List.getElem?_eq_some_iff.1 hk).1]
        exact hk
    have hnew : (d.addSubpage m' (a / 4096)).pageFind (a / 4096) =
        some ⟨.subpage d.subpages.length, 0, 4096, a / 4096 * 4096, false⟩ := by
      rw [AddressSpaceDispatch.pageFind, AddressSpaceDispatch.addSubpage, hfind _ hx,
        if_pos ⟨Nat.le_refl _, Nat.lt_succ_self _⟩, List.getElem?_concat_length]
    have hfirst : (d.addSubpage m' (a / 4096)).physSections[PHYS_SECTION_UNASSIGNED]? =
        some (dummySection .ioMemUnassigned) := getElem?_append_some h.first
    have hsub : HasSubpage (d.addSubpage m' (a / 4096)) (a / 4096) d.subpages.length
        ⟨.subpage d.subpages.length, 0, 4096, a / 4096 * 4096, false⟩
        ⟨a / 4096 * 4096, fun _ => PHYS_SECTION_UNASSIGNED⟩ :=
      ⟨rfl, rfl, rfl, List.getElem?_concat_length .., rfl, fun _ _ => ⟨_, hfirst, nofun⟩⟩
    refine ⟨d.subpages.length, d.addSubpage m' (a / 4096), _, _, ?_, ⟨hvalid, hfirst,
      assigned_append h.assigned nofun, fun y hy => ?_⟩, hnew, hsub, fun b hb => ?_, ?_, hcount⟩
    · rw [subpageAt, Nat.mul_div_cancel _ (by decide), hs]
      simp only [Option.bind_eq_bind, Option.bind_some, hunassigned,
        AddressSpaceDispatch.physSectionAdd, AddressSpaceDispatch.subpageInit,
        AddressSpaceDispatch.pageSet, hleaf, hrun, Option.map_some]
      rfl
    · by_cases hy' : y = a / 4096
      · rw [hy']
        exact ⟨_, hnew, .inr ⟨_, _, hsub, fun hne => absurd rfl hne⟩⟩
      · exact (hkeeps y hy hy').pageInv ((h.page y hy).mono hpending)
    · have hpage := page_lt hb
      by_cases hb' : b / 4096 = a / 4096
      · rw [← hb'] at hs hnew hsub hfirst ⊢
        have hbyte : (d.addSubpage m' (b / 4096)).physSections[Subpage.subSection
            ⟨b / 4096 * 4096, fun _ => PHYS_SECTION_UNASSIGNED⟩ (b % 4096)]? =
              some (dummySection .ioMemUnassigned) := by
          dsimp only
          exact hfirst
        rw [mapped_of_subpage hnew hsub hbyte, mapped_of_page hs hmr,
          shown_eq_none_iff.2 hunassigned]
        rfl
      · exact (hkeeps _ hpage hb').mapped (h.page _ hpage)
    · exact Nat.le_of_eq (List.length_append ..)
  · refine ⟨k, d, s, mmio, ?_, h.mono hpending, hs, hsub, fun _ _ => rfl, Nat.le_succ _,
      Nat.le_add_right ..⟩
    rw [subpageAt, Nat.mul_div_cancel _ (by decide), hs]
    simp only [Option.bind_eq_bind, Option.bind_some, hsub.mr]

theorem keepsPage_add (d : AddressSpaceDispatch) (t : MemoryRegionSection) (x : Nat) :
    KeepsPage d (d.physSectionAdd t).2 x :=
  ⟨fun _ _ => getElem?_append_some, rfl, fun _ _ hk _ => hk⟩

theorem AddressSpaceDispatch.Inv.add {t : MemoryRegionSection} (h : d.Inv pending)
    (ht : t.mr ≠ .ioMemUnassigned) : (d.physSectionAdd t).2.Inv pending :=
  ⟨h.valid, getElem?_append_some h.first, assigned_append h.assigned ht,
    fun x hx => (keepsPage_add d t x).pageInv (h.page x hx)⟩

theorem AddressSpaceDispatch.Inv.mapped_add (h : d.Inv pending) (t : MemoryRegionSection)
    (ha : a < 2 ^ 52) : (d.physSectionAdd t).2.mapped a = d.mapped a :=
  (keepsPage_add d t _).mapped (h.page _ (page_lt ha))

theorem setSections_of_mem {mmio : Subpage} {start stop j : Nat} (h : start ≤ j ∧ j ≤ stop) :
    (mmio.setSections start stop i).subSection j = i := if_pos h

theorem setSections_of_not_mem {mmio : Subpage} {start stop j : Nat}
    (h : ¬ (start ≤ j ∧ j ≤ stop)) :
    (mmio.setSections start stop i).subSection j = mmio.subSection j := if_neg h

/-- The bytes of a subpage from `start` to `stop` get the section at `i`. -/
def AddressSpaceDispatch.setBytes (d : AddressSpaceDispatch) (k start stop i : Nat) :
    AddressSpaceDispatch :=
  { d with subpages := d.subpages.modify k (·.setSections start stop i) }

theorem setBytes_spec {mmio : Subpage} {t : MemoryRegionSection} {start stop : Nat}
    (h : d.Inv (some x)) (hs : d.pageFind x = some s) (hsub : HasSubpage d x k s mmio)
    (hi : i ≠ PHYS_SECTION_UNASSIGNED) (ht : d.physSections[i]? = some t)
    (hmr : ∀ j, t.mr ≠ .subpage j) (hle : start ≤ stop) (hlt : stop < 4096) :
    (d.setBytes k start stop i).Inv none ∧ ∀ a < 2 ^ 52, (d.setBytes k start stop i).mapped a =
      if a / 4096 = x ∧ start ≤ a % 4096 ∧ a % 4096 ≤ stop then t.shown a else d.mapped a := by
  have hkeeps : ∀ y, y ≠ x → KeepsPage d (d.setBytes k start stop i) y := by
    intro y hne
    refine ⟨fun _ _ h => h, rfl, fun j mmio' hj hbase => ?_⟩
    have hjk : k ≠ j := by
      rintro rfl
      have hsame : mmio = mmio' := Option.some.inj (hsub.subpage.symm.trans hj)
      have hbase' := hsub.base
      rw [hsame, hbase] at hbase'
      omega
    rw [AddressSpaceDispatch.setBytes, List.getElem?_modify_ne _ _ hjk]
    exact hj
  have hsub' : HasSubpage (d.setBytes k start stop i) x k s (mmio.setSections start stop i) := by
    refine ⟨hsub.mr, hsub.start, hsub.offset, ?_, hsub.base, fun j hj => ?_⟩
    · rw [AddressSpaceDispatch.setBytes, List.getElem?_modify_eq, hsub.subpage]
      rfl
    · by_cases hin : start ≤ j ∧ j ≤ stop
      · rw [setSections_of_mem hin]
        exact ⟨t, ht, hmr⟩
      · rw [setSections_of_not_mem hin]
        exact hsub.bytes j hj
  refine ⟨⟨h.valid, h.first, h.assigned, fun y hy => ?_⟩, fun a ha => ?_⟩
  · by_cases hy' : y = x
    · subst hy'
      refine ⟨s, hs, .inr ⟨k, _, hsub', fun _ => ⟨start, by omega, ?_⟩⟩⟩
      rwa [setSections_of_mem ⟨Nat.le_refl _, hle⟩]
    · have hpage : PageInv d none y := by
        obtain ⟨u, hu, hcase⟩ := h.page y hy
        refine ⟨u, hu, hcase.imp_right ?_⟩
        rintro ⟨j, mmio', hsub', hbyte⟩
        exact ⟨j, mmio', hsub', fun _ => hbyte fun hc => hy' (Option.some.inj hc).symm⟩
      exact (hkeeps y hy').pageInv hpage
  · by_cases hax : a / 4096 = x
    · subst hax
      by_cases hin : start ≤ a % 4096 ∧ a % 4096 ≤ stop
      · rw [if_pos ⟨rfl, hin⟩]
        refine mapped_of_subpage hs hsub' ?_
        rw [setSections_of_mem hin]
        exact ht
      · obtain ⟨u, hu, -⟩ := hsub.bytes (a % 4096) (Nat.mod_lt _ (by decide))
        rw [if_neg fun hc => hin hc.2, mapped_of_subpage hs hsub hu]
        refine mapped_of_subpage hs hsub' ?_
        rw [setSections_of_not_mem hin]
        exact hu
    · rw [if_neg fun hc => hax hc.1]
      exact (hkeeps _ hax).mapped (h.page _ (page_lt ha))

/-- What RAM in a subpage is reached through. -/
def subpageSection (isRam : Nat → Bool) (s : MemoryRegionSection) : MemoryRegionSection :=
  if memoryRegionIsRam isRam s.mr then { s with mr := .ioMemSubpageRam } else s

theorem getElem?_add (d : AddressSpaceDispatch) (t : MemoryRegionSection) :
    (d.physSectionAdd t).2.physSections[d.physSections.length]? = some t :=
  List.getElem?_concat_length ..

theorem length_add (d : AddressSpaceDispatch) (t : MemoryRegionSection) :
    (d.physSectionAdd t).2.physSections.length = d.physSections.length + 1 :=
  List.length_append ..

/-- The section that the bytes get is added to the others. -/
theorem subpageRegister_spec {mmio : Subpage} {n start stop : Nat} (h : d.Inv (some x))
    (hs : d.pageFind x = some s) (hsub : HasSubpage d x k s mmio) {t : MemoryRegionSection}
    (hmr : t.mr = .region n) (hle : start ≤ stop) (hlt : stop < 4096)
    (hroom : d.physSections.length + 2 ≤ 32768) :
    ∃ d', subpageRegister isRam (d.physSectionAdd t).2 k start stop d.physSections.length =
        some d' ∧ d'.Inv none ∧
      (∀ a < 2 ^ 52, d'.mapped a =
        if a / 4096 = x ∧ start ≤ a % 4096 ∧ a % 4096 ≤ stop then (subpageSection isRam t).shown a
        else d.mapped a) ∧
      d'.physSections.length ≤ d.physSections.length + 2 ∧
      d'.physMap.nodesNb = d.physMap.nodesNb := by
  have hpos : 0 < d.physSections.length := (List.getElem?_eq_some_iff.1 h.first).1
  have hadd : (d.physSectionAdd t).2.Inv (some x) := h.add (by rw [hmr]; nofun)
  have hkeeps := keepsPage_add d t x
  have hin : ¬ (start ≥ 4096 ∨ stop ≥ 4096) := by omega
  cases hram : memoryRegionIsRam isRam t.mr with
  | false =>
      obtain ⟨hinv, hmapped⟩ := setBytes_spec hadd (hkeeps.pageFind hs) (hkeeps.hasSubpage hsub)
        (Nat.ne_of_gt hpos) (getElem?_add d t) (fun j => by rw [hmr]; nofun) hle hlt
      refine ⟨_, ?_, hinv, fun a ha => ?_, ?_, rfl⟩
      · simp only [subpageRegister, if_neg hin, getElem?_add, hram, Option.bind_eq_bind,
          Option.bind_some, Bool.false_eq_true, if_false]
        rfl
      · rw [hmapped a ha, h.mapped_add t ha, subpageSection, if_neg (Bool.eq_false_iff.1 hram)]
      · exact Nat.le_of_lt (Nat.lt_succ_of_le (Nat.le_of_eq (length_add d t)))
  | true =>
      have hindex : (d.physSectionAdd t).2.physSections.length % 65536 =
          (d.physSectionAdd t).2.physSections.length := by
        rw [length_add]
        omega
      have hkeeps' := keepsPage_add (d.physSectionAdd t).2 { t with mr := .ioMemSubpageRam } x
      have hadd' := hadd.add (t := { t with mr := .ioMemSubpageRam }) nofun
      obtain ⟨hinv, hmapped⟩ := setBytes_spec hadd' (hkeeps'.pageFind (hkeeps.pageFind hs))
        (hkeeps'.hasSubpage (hkeeps.hasSubpage hsub))
        (by rw [length_add]; exact Nat.succ_ne_zero _) (getElem?_add ..) nofun hle hlt
      refine ⟨_, ?_, hinv, fun a ha => ?_, ?_, rfl⟩
      · simp only [subpageRegister, if_neg hin, getElem?_add, hram, Option.bind_eq_bind,
          Option.bind_some, if_true]
        simp only [AddressSpaceDispatch.physSectionAdd] at hindex
        simp only [AddressSpaceDispatch.physSectionAdd, hindex]
        rfl
      · rw [hmapped a ha, hadd.mapped_add _ ha, h.mapped_add t ha, subpageSection, if_pos hram]
      · exact Nat.le_of_eq ((length_add ..).trans (congrArg Nat.succ (length_add d t)))

/-- The addresses of `s` show what `shown` says, and the others what they did. -/
structure Adds (d d' : AddressSpaceDispatch) (s : MemoryRegionSection)
    (shown : Nat → Option (SectionRegion × Int)) (pieces : Nat) : Prop where
  inv : d'.Inv none
  mapped : ∀ a < 2 ^ 52, d'.mapped a =
    if s.offsetWithinAddressSpace ≤ a ∧ a < s.offsetWithinAddressSpace + s.size then shown a
    else d.mapped a
  sections : d'.physSections.length ≤ d.physSections.length + 3 * pieces
  nodes : d'.physMap.nodesNb ≤ d.physMap.nodesNb + 7 * pieces

/-- There is room for some more pieces. -/
structure Room (d : AddressSpaceDispatch) (pieces : Nat) : Prop where
  sections : d.physSections.length + 3 * pieces ≤ 32768
  nodes : d.physMap.nodesNb + 7 * pieces ≤ PHYS_MAP_NODE_NIL

/-- The bytes of a section inside a page. -/
theorem registerSubpage_spec {n : Nat} (h : d.Inv pending)
    (hpending : pending = none ∨ pending = some x) (hmr : s.mr = .region n)
    (hx : s.offsetWithinAddressSpace / 4096 = x) (hlt : x < 2 ^ 40) (hsize : 0 < s.size)
    (hfit : s.offsetWithinAddressSpace % 4096 + s.size ≤ 4096) (hax : a / 4096 = x)
    (hfree : d.mapped a = none) (hroom : Room d 1) :
    ∃ d', registerSubpage isRam d s = some d' ∧ Adds d d' s (subpageSection isRam s).shown 1 := by
  have hsections := hroom.sections
  have hnodes := hroom.nodes
  obtain ⟨k, d₁, s₁, mmio, hrun, hinv, hs₁, hsub, hmapped, hlength, hcount⟩ :=
    subpageAt_spec h hpending hlt hax hfree (by omega) (by omega)
  have hindex : d₁.physSections.length % 65536 = d₁.physSections.length :=
    Nat.mod_eq_of_lt (by omega)
  have hstop : (s.offsetWithinAddressSpace % 4096 + s.size + 18446744073709551615) %
      18446744073709551616 % 4294967296 = s.offsetWithinAddressSpace % 4096 + s.size - 1 := by
    omega
  obtain ⟨d', hregister, hinv', hmapped', hlength', hnodes'⟩ := @subpageRegister_spec d₁ s₁ isRam x k
    mmio n (s.offsetWithinAddressSpace % 4096) (s.offsetWithinAddressSpace % 4096 + s.size - 1)
    hinv hs₁ hsub s hmr (by omega) (by omega) (by omega)
  refine ⟨d', ?_, hinv', fun a ha => ?_, by omega, by omega⟩
  · simp only [registerSubpage, hx, hrun, Option.bind_eq_bind, Option.bind_some, hstop,
      AddressSpaceDispatch.physSectionAdd, hindex]
    exact hregister
  · rw [hmapped' a ha, hmapped a ha]
    refine if_congr ?_ rfl rfl
    omega

/-- No bytes: the page gets a subpage that has nothing yet. -/
theorem registerSubpage_zero (h : d.Inv none) (hx : s.offsetWithinAddressSpace = x * 4096)
    (hlt : x < 2 ^ 40) (hsize : s.size = 0) (hmr : s.mr ≠ .ioMemUnassigned) (hax : a / 4096 = x)
    (hfree : d.mapped a = none) (hroom : Room d 1) :
    ∃ d', registerSubpage isRam d s = some d' ∧ d'.Inv (some x) ∧
      (∀ a < 2 ^ 52, d'.mapped a = d.mapped a) ∧
      d'.physSections.length ≤ d.physSections.length + 3 ∧
      d'.physMap.nodesNb ≤ d.physMap.nodesNb + 7 := by
  have hsections := hroom.sections
  obtain ⟨k, d₁, s₁, mmio, hrun, hinv, hs₁, hsub, hmapped, hlength, hnodes⟩ :=
    subpageAt_spec h (.inl rfl) hlt hax hfree hroom.nodes (by omega)
  have hlength' := length_add d₁ s
  have hpage : s.offsetWithinAddressSpace / 4096 * 4096 = x * 4096 := by omega
  have hstart : s.offsetWithinAddressSpace % 4096 = 0 := by omega
  refine ⟨(d₁.physSectionAdd s).2, ?_, hinv.add hmr, fun a ha => ?_, by omega, hnodes⟩
  · simp only [registerSubpage, hpage, hrun, Option.bind_eq_bind, Option.bind_some, hstart, hsize]
    exact if_pos (.inr (by decide))
  · rw [hinv.mapped_add s ha, hmapped a ha]

/-! ## Whole pages -/

/-- A page whose addresses are all free is not mapped. -/
theorem AddressSpaceDispatch.Inv.find_of_free (h : d.Inv none) (hx : x < 2 ^ 40)
    (hfree : ∀ a, a / 4096 = x → d.mapped a = none) :
    physPageFind PHYS_SECTION_UNASSIGNED d.physMap x = PHYS_SECTION_UNASSIGNED := by
  obtain ⟨s, hs, hmr | ⟨k, mmio, hsub, hbyte⟩⟩ := h.page x hx
  · have hfirst := hfree (x * 4096) (Nat.mul_div_cancel _ (by decide))
    rw [← Nat.mul_div_cancel x (by decide : 0 < 4096)] at hs ⊢
    exact h.find_eq hs hmr hfirst
  · obtain ⟨i, hi, hne⟩ := hbyte nofun
    obtain ⟨t, ht, -⟩ := hsub.bytes i hi
    have hdiv : (x * 4096 + i) / 4096 = x := by omega
    have hmod : (x * 4096 + i) % 4096 = i := by omega
    have hnone := hfree (x * 4096 + i) hdiv
    rw [← hdiv] at hs hsub
    rw [← hmod] at ht
    rw [mapped_of_subpage hs hsub ht, shown_eq_none_iff] at hnone
    rw [hmod] at ht
    exact absurd hnone (h.assigned _ t hne ht)

theorem registerMultipage_spec {n : Nat} (h : d.Inv none) (hmr : s.mr = .region n)
    (hstart : s.offsetWithinAddressSpace % 4096 = 0) (hpages : s.size % 4096 = 0)
    (hsize : 0 < s.size) (hend : s.offsetWithinAddressSpace + s.size ≤ 2 ^ 52)
    (hfree : ∀ a, s.offsetWithinAddressSpace ≤ a → a < s.offsetWithinAddressSpace + s.size →
      d.mapped a = none)
    (hroom : Room d 1) :
    ∃ d', registerMultipage d s = some d' ∧ Adds d d' s s.shown 1 := by
  have hsections := hroom.sections
  have hpos : 0 < d.physSections.length := (List.getElem?_eq_some_iff.1 h.first).1
  have hleaf : d.physSections.length % 65536 = d.physSections.length := Nat.mod_eq_of_lt (by omega)
  have hinv := h.add (t := s) (by rw [hmr]; nofun)
  have hlength := length_add d s
  have hpagesEnd : s.offsetWithinAddressSpace / 4096 + s.size / 4096 ≤ 2 ^ 40 := by
    have htotal : (s.offsetWithinAddressSpace / 4096 + s.size / 4096) * 4096 ≤ 2 ^ 40 * 4096 := by
      omega
    exact Nat.le_of_mul_le_mul_right htotal (by decide)
  have hnone : ∀ y, s.offsetWithinAddressSpace / 4096 ≤ y →
      y < s.offsetWithinAddressSpace / 4096 + s.size / 4096 →
      physPageFind PHYS_SECTION_UNASSIGNED d.physMap y = PHYS_SECTION_UNASSIGNED :=
    fun y hy hy' => h.find_of_free (Nat.lt_of_lt_of_le hy' hpagesEnd)
      fun a ha => hfree a (by omega) (by omega)
  obtain ⟨m', hrun, hvalid, hcount, hfind⟩ := physPageSet_spec h.valid (by decide)
    (Nat.ne_of_gt hpos) (by omega) (by omega) hpagesEnd hnone hroom.nodes
  have hkeeps : ∀ y < 2 ^ 40, ¬ (s.offsetWithinAddressSpace / 4096 ≤ y ∧
        y < s.offsetWithinAddressSpace / 4096 + s.size / 4096) →
      KeepsPage d ⟨m', d.physSections ++ [s], d.subpages⟩ y := fun y hy hout =>
    ⟨fun _ _ => getElem?_append_some, by rw [hfind y hy, if_neg hout], fun _ _ hk _ => hk⟩
  have hnew : ∀ y < 2 ^ 40, s.offsetWithinAddressSpace / 4096 ≤ y ∧
        y < s.offsetWithinAddressSpace / 4096 + s.size / 4096 →
      AddressSpaceDispatch.pageFind ⟨m', d.physSections ++ [s], d.subpages⟩ y = some s :=
    fun y hy hin => by
      rw [AddressSpaceDispatch.pageFind, hfind y hy, if_pos hin, List.getElem?_concat_length]
  have hnot : ∀ k, s.mr ≠ .subpage k := fun k => by rw [hmr]; nofun
  refine ⟨⟨m', d.physSections ++ [s], d.subpages⟩, ?_, ⟨hvalid, hinv.first, hinv.assigned,
    fun y hy => ?_⟩, fun a ha => ?_, ?_, hcount⟩
  · simp only [registerMultipage, AddressSpaceDispatch.physSectionAdd, if_neg (Nat.ne_of_gt hsize),
      hleaf, AddressSpaceDispatch.pageSet, hrun, Option.map_some]
  · by_cases hin : s.offsetWithinAddressSpace / 4096 ≤ y ∧
        y < s.offsetWithinAddressSpace / 4096 + s.size / 4096
    · exact ⟨s, hnew y hy hin, .inl hnot⟩
    · exact (hkeeps y hy hin).pageInv (h.page y hy)
  · by_cases hin : s.offsetWithinAddressSpace ≤ a ∧ a < s.offsetWithinAddressSpace + s.size
    · rw [if_pos hin, mapped_of_page (hnew _ (page_lt ha) (by omega)) hnot]
    · rw [if_neg hin, (hkeeps _ (page_lt ha) (by omega)).mapped (h.page _ (page_lt ha))]
  · exact Nat.le_of_lt (Nat.lt_of_le_of_lt (Nat.le_of_eq hlength) (by omega))

/-! ## A section -/

/-- The page of the address lies in the section, and is aligned in its region. -/
def MemoryRegionSection.Whole (s : MemoryRegionSection) (a : Nat) : Prop :=
  s.offsetWithinAddressSpace ≤ a / 4096 * 4096 ∧
    a / 4096 * 4096 + 4096 ≤ s.offsetWithinAddressSpace + s.size ∧
    (s.offsetWithinRegion + (a / 4096 * 4096 - s.offsetWithinAddressSpace)) % 4096 = 0

instance (s : MemoryRegionSection) (a : Nat) : Decidable (s.Whole a) :=
  inferInstanceAs (Decidable (_ ∧ _))

/-- RAM is reached through `io_mem_subpage_ram` where its pages are not whole. -/
def MemoryRegionSection.dispatched (isRam : Nat → Bool) (s : MemoryRegionSection) (a : Nat) :
    Option (SectionRegion × Int) :=
  if s.Whole a then s.shown a else (subpageSection isRam s).shown a

theorem memoryRegionSectionAddr_skip (s : MemoryRegionSection) (size a : Nat) :
    memoryRegionSectionAddr (s.skip size) a = memoryRegionSectionAddr s a := by
  simp only [memoryRegionSectionAddr, MemoryRegionSection.skip]
  omega

theorem shown_skip (s : MemoryRegionSection) (size a : Nat) :
    (s.skip size).shown a = s.shown a := by
  rw [MemoryRegionSection.shown, MemoryRegionSection.shown, memoryRegionSectionAddr_skip]
  rfl

theorem subpageSection_shown (isRam : Nat → Bool) (s : MemoryRegionSection) (a : Nat) :
    (subpageSection isRam s).shown a =
      if memoryRegionIsRam isRam s.mr then some (.ioMemSubpageRam, memoryRegionSectionAddr s a)
      else s.shown a := by
  unfold subpageSection
  split <;> rfl

theorem subpageSection_shown_skip (isRam : Nat → Bool) (s : MemoryRegionSection) (size a : Nat) :
    (subpageSection isRam (s.skip size)).shown a = (subpageSection isRam s).shown a := by
  rw [subpageSection_shown, subpageSection_shown, shown_skip, memoryRegionSectionAddr_skip]
  rfl

theorem subpageSection_shown_resize (isRam : Nat → Bool) (s : MemoryRegionSection) (size a : Nat) :
    (subpageSection isRam { s with size := size }).shown a = (subpageSection isRam s).shown a := by
  rw [subpageSection_shown, subpageSection_shown]
  rfl

/-- The pages that follow are whole in the rest just when they are in the section. -/
theorem whole_skip {size : Nat} (hsize : size ≤ s.size)
    (hpage : s.offsetWithinAddressSpace + size ≤ a / 4096 * 4096) :
    (s.skip size).Whole a ↔ s.Whole a := by
  unfold MemoryRegionSection.Whole MemoryRegionSection.skip
  dsimp only
  refine and_congr (by omega) (and_congr (by omega) ?_)
  have hsum : s.offsetWithinRegion + size + (a / 4096 * 4096 - (s.offsetWithinAddressSpace + size)) =
      s.offsetWithinRegion + (a / 4096 * 4096 - s.offsetWithinAddressSpace) := by omega
  rw [hsum]

/-- A section is added in two parts. -/
theorem Adds.append {d₁ : AddressSpaceDispatch} {f g shown : Nat → Option (SectionRegion × Int)}
    {size p q : Nat} (h₁ : Adds d d₁ { s with size := size } f p)
    (h₂ : Adds d₁ d' (s.skip size) g q) (hsize : size ≤ s.size)
    (hf : ∀ a, s.offsetWithinAddressSpace ≤ a → a < s.offsetWithinAddressSpace + size →
      f a = shown a)
    (hg : ∀ a, s.offsetWithinAddressSpace + size ≤ a →
      a < s.offsetWithinAddressSpace + s.size → g a = shown a) :
    Adds d d' s shown (p + q) := by
  have hsections := h₁.sections
  have hsections' := h₂.sections
  have hnodes := h₁.nodes
  have hnodes' := h₂.nodes
  refine ⟨h₂.inv, fun a ha => ?_, by omega, by omega⟩
  have hrest : d'.mapped a = if s.offsetWithinAddressSpace + size ≤ a ∧
      a < s.offsetWithinAddressSpace + size + (s.size - size) then g a else d₁.mapped a :=
    h₂.mapped a ha
  have hbegin : d₁.mapped a = if s.offsetWithinAddressSpace ≤ a ∧
      a < s.offsetWithinAddressSpace + size then f a else d.mapped a := h₁.mapped a ha
  rw [hrest, hbegin]
  by_cases hsecond : s.offsetWithinAddressSpace + size ≤ a ∧
      a < s.offsetWithinAddressSpace + size + (s.size - size)
  · rw [if_pos hsecond, if_pos ⟨by omega, by omega⟩]
    exact hg a hsecond.1 (by omega)
  · rw [if_neg hsecond]
    by_cases hfirst : s.offsetWithinAddressSpace ≤ a ∧ a < s.offsetWithinAddressSpace + size
    · rw [if_pos hfirst, if_pos ⟨hfirst.1, by omega⟩]
      exact hf a hfirst.1 hfirst.2
    · rw [if_neg hfirst, if_neg (by omega)]

theorem Adds.congr {f g : Nat → Option (SectionRegion × Int)} {p q : Nat} (h : Adds d d' s f p)
    (hle : p ≤ q) (hfg : ∀ a, s.offsetWithinAddressSpace ≤ a →
      a < s.offsetWithinAddressSpace + s.size → f a = g a) : Adds d d' s g q := by
  have hsections := h.sections
  have hnodes := h.nodes
  refine ⟨h.inv, fun a ha => ?_, by omega, by omega⟩
  rw [h.mapped a ha]
  split
  · rename_i hin
    exact hfg a hin.1 hin.2
  · rfl

theorem Room.rest {f : Nat → Option (SectionRegion × Int)} {p q r : Nat} (h : Room d r)
    (hadds : Adds d d' s f p) (hle : p + q ≤ r) : Room d' q := by
  have hsections := hadds.sections
  have hsections' := h.sections
  have hnodes := hadds.nodes
  have hnodes' := h.nodes
  exact ⟨by omega, by omega⟩

theorem Room.mono {p q : Nat} (h : Room d q) (hle : p ≤ q) : Room d p := by
  have hsections := h.sections
  have hnodes := h.nodes
  exact ⟨by omega, by omega⟩

/-- The calls that `memAddPages` makes at most. -/
def pagePieces (s : MemoryRegionSection) : Nat :=
  if s.offsetWithinRegion % 4096 ≠ 0 then s.size / 4096 + 1 else if s.size ≥ 4096 then 2 else 1

theorem pagePieces_pos (s : MemoryRegionSection) : 1 ≤ pagePieces s := by
  unfold pagePieces
  split
  · exact Nat.le_add_left ..
  · split <;> decide

theorem dispatched_of_not_whole (h : ¬ s.Whole a) :
    s.dispatched isRam a = (subpageSection isRam s).shown a := if_neg h

/-- Less than a page is left. -/
theorem registerRest_spec {n : Nat} (h : d.Inv pending)
    (hpending : pending = none ∨ pending = some (s.offsetWithinAddressSpace / 4096))
    (hmr : s.mr = .region n) (hstart : s.offsetWithinAddressSpace % 4096 = 0)
    (hsize : 0 < s.size) (hless : s.size < 4096)
    (hend : s.offsetWithinAddressSpace + s.size ≤ 2 ^ 52)
    (hfree : d.mapped s.offsetWithinAddressSpace = none) (hroom : Room d 1) :
    ∃ d', registerSubpage isRam d s = some d' ∧ Adds d d' s (s.dispatched isRam) 1 := by
  obtain ⟨d', hrun, hadds⟩ := registerSubpage_spec h hpending hmr rfl (page_lt (by omega)) hsize
    (by omega) rfl hfree hroom
  refine ⟨d', hrun, hadds.congr (Nat.le_refl _) fun a hge hlt => ?_⟩
  refine (dispatched_of_not_whole fun hwhole => ?_).symm
  have hpage := hwhole.2.1
  omega

/-- The addresses of the section are free. -/
def Free (d : AddressSpaceDispatch) (s : MemoryRegionSection) : Prop :=
  ∀ a, s.offsetWithinAddressSpace ≤ a → a < s.offsetWithinAddressSpace + s.size →
    d.mapped a = none

/-- The rest of a section stays free when a part of it is added. -/
theorem Free.rest {f : Nat → Option (SectionRegion × Int)} {size p : Nat} (h : Free d s)
    (hadds : Adds d d' { s with size := size } f p) (hsize : size ≤ s.size)
    (hend : s.offsetWithinAddressSpace + s.size ≤ 2 ^ 52) : Free d' (s.skip size) := by
  intro a hge hlt
  have hge' : s.offsetWithinAddressSpace + size ≤ a := hge
  have hlt' : a < s.offsetWithinAddressSpace + size + (s.size - size) := hlt
  have hsame : d'.mapped a = if s.offsetWithinAddressSpace ≤ a ∧
      a < s.offsetWithinAddressSpace + size then f a else d.mapped a := hadds.mapped a (by omega)
  rw [hsame, if_neg (by omega)]
  exact h a (by omega) (by omega)

theorem dispatched_skip {size : Nat} (hsize : size ≤ s.size)
    (hpage : s.offsetWithinAddressSpace + size ≤ a / 4096 * 4096) :
    (s.skip size).dispatched isRam a = s.dispatched isRam a := by
  rw [MemoryRegionSection.dispatched, MemoryRegionSection.dispatched, shown_skip,
    subpageSection_shown_skip]
  exact if_congr (whole_skip hsize hpage) rfl rfl

/-- `memAddPages` adds the section. -/
def AddsPages (isRam : Nat → Bool) (s : MemoryRegionSection) : Prop :=
  ∀ d : AddressSpaceDispatch, d.Inv none → Free d s → Room d (pagePieces s) →
    ∃ d', memAddPages isRam d s = some d' ∧ Adds d d' s (s.dispatched isRam) (pagePieces s)

/-- Some whole pages are added first. -/
theorem AddsPages.of_rest {d₁ : AddressSpaceDispatch} {f : Nat → Option (SectionRegion × Int)}
    {size : Nat} (hrest : AddsPages isRam (s.skip size)) (hadds : Adds d d₁ { s with size := size } f 1)
    (hfree : Free d s) (hroom : Room d (pagePieces s)) (hsize : size ≤ s.size)
    (hend : s.offsetWithinAddressSpace + s.size ≤ 2 ^ 52)
    (hstart : s.offsetWithinAddressSpace % 4096 = 0) (hpages : size % 4096 = 0)
    (hpieces : 1 + pagePieces (s.skip size) = pagePieces s)
    (hf : ∀ a, s.offsetWithinAddressSpace ≤ a → a < s.offsetWithinAddressSpace + size →
      f a = s.dispatched isRam a) :
    ∃ d', memAddPages isRam d₁ (s.skip size) = some d' ∧
      Adds d d' s (s.dispatched isRam) (pagePieces s) := by
  obtain ⟨d', hrun, hadds'⟩ := hrest d₁ hadds.inv (hfree.rest hadds hsize hend)
    (hroom.rest hadds (Nat.le_of_eq hpieces))
  refine ⟨d', hrun, hpieces ▸ hadds.append hadds' hsize hf fun a hge _ => ?_⟩
  exact dispatched_skip hsize (by omega)

theorem pagePieces_of_offset (h : s.offsetWithinRegion % 4096 ≠ 0) :
    pagePieces s = s.size / 4096 + 1 := if_pos h

theorem pagePieces_of_aligned (h : ¬ s.offsetWithinRegion % 4096 ≠ 0) :
    pagePieces s = if s.size ≥ 4096 then 2 else 1 := if_neg h

theorem memAddPages_of_aligned {d₁ : AddressSpaceDispatch} (hle : s.size ≥ 4096)
    (hoffset : ¬ s.offsetWithinRegion % 4096 ≠ 0)
    (hrun : registerMultipage d { s with size := s.size / 4096 * 4096 } = some d₁) :
    memAddPages isRam d s = memAddPages isRam d₁ (s.skip (s.size / 4096 * 4096)) := by
  rw [memAddPages, if_pos hle, if_neg hoffset, hrun, Option.bind_eq_bind, Option.bind_some]

theorem memAddPages_of_offset {d₁ : AddressSpaceDispatch} (hle : s.size ≥ 4096)
    (hoffset : s.offsetWithinRegion % 4096 ≠ 0)
    (hrun : registerSubpage isRam d { s with size := 4096 } = some d₁) :
    memAddPages isRam d s = memAddPages isRam d₁ (s.skip 4096) := by
  rw [memAddPages, if_pos hle, if_pos hoffset, hrun, Option.bind_eq_bind, Option.bind_some]

/-- The induction is on the bytes that remain. -/
theorem memAddPages_spec {n : Nat} (s : MemoryRegionSection) (hmr : s.mr = .region n)
    (hstart : s.size ≠ 0 → s.offsetWithinAddressSpace % 4096 = 0)
    (hend : s.offsetWithinAddressSpace + s.size ≤ 2 ^ 52) : AddsPages isRam s := by
  induction hbytes : s.size using Nat.strongRecOn generalizing s with
  | ind size ih =>
      subst hbytes
      intro d h hfree hroom
      have hskip : ∀ size, 0 < size → size ≤ s.size → size % 4096 = 0 →
          s.offsetWithinAddressSpace % 4096 = 0 → AddsPages isRam (s.skip size) :=
        fun size hpos hle hpages haligned => ih (s.size - size) (by omega) (s.skip size) hmr
          (fun _ => show (s.offsetWithinAddressSpace + size) % 4096 = 0 by omega)
          (show s.offsetWithinAddressSpace + size + (s.size - size) ≤ 2 ^ 52 by omega) rfl
      by_cases hless : s.size < 4096
      · rw [memAddPages, if_neg (Nat.not_le.2 hless)]
        by_cases hzero : s.size = 0
        · refine ⟨d, by rw [if_neg (not_not_intro hzero)], h, fun a _ => ?_, ?_, ?_⟩
          · rw [if_neg (by omega)]
          · exact Nat.le_add_right ..
          · exact Nat.le_add_right ..
        · rw [if_pos hzero]
          obtain ⟨d', hrun, hadds⟩ := registerRest_spec h (.inl rfl) hmr (hstart hzero)
            (Nat.pos_of_ne_zero hzero) hless hend (hfree _ (Nat.le_refl _) (by omega))
            (hroom.mono (pagePieces_pos s))
          exact ⟨d', hrun, hadds.congr (pagePieces_pos s) fun _ _ _ => rfl⟩
      · have hstart := hstart (by omega)
        have hle := Nat.not_lt.1 hless
        by_cases hoffset : s.offsetWithinRegion % 4096 ≠ 0
        · have hoffset' : (s.skip 4096).offsetWithinRegion % 4096 ≠ 0 :=
            show (s.offsetWithinRegion + 4096) % 4096 ≠ 0 by omega
          have hpieces : 1 + pagePieces (s.skip 4096) = pagePieces s := by
            have hsize : (s.skip 4096).size = s.size - 4096 := rfl
            rw [pagePieces_of_offset hoffset, pagePieces_of_offset hoffset', hsize]
            omega
          have hfit : s.offsetWithinAddressSpace % 4096 + 4096 ≤ 4096 := by omega
          obtain ⟨d₁, hrun, hadds⟩ := @registerSubpage_spec d { s with size := 4096 } isRam
            s.offsetWithinAddressSpace (s.offsetWithinAddressSpace / 4096) none n h (.inl rfl) hmr
            rfl (page_lt (by omega)) (show 0 < 4096 by decide) hfit rfl
            (hfree _ (Nat.le_refl _) (by omega)) (hroom.mono (pagePieces_pos s))
          obtain ⟨d', hrest, hadds'⟩ := (hskip 4096 (by omega) hle (by omega) hstart).of_rest hadds
            hfree hroom hle hend hstart (by omega) hpieces fun a hge hlt => by
              rw [subpageSection_shown_resize, dispatched_of_not_whole]
              exact fun hwhole => by
                have haligned := hwhole.2.2
                omega
          exact ⟨d', (memAddPages_of_offset hle hoffset hrun).trans hrest, hadds'⟩
        · have hpieces : 1 + pagePieces (s.skip (s.size / 4096 * 4096)) = pagePieces s := by
            have hoffset' : ¬ (s.skip (s.size / 4096 * 4096)).offsetWithinRegion % 4096 ≠ 0 :=
              show ¬ (s.offsetWithinRegion + s.size / 4096 * 4096) % 4096 ≠ 0 by omega
            have hsize : ¬ (s.skip (s.size / 4096 * 4096)).size ≥ 4096 :=
              show ¬ s.size - s.size / 4096 * 4096 ≥ 4096 by omega
            rw [pagePieces_of_aligned hoffset, pagePieces_of_aligned hoffset', if_pos hle,
              if_neg hsize]
          have hfit : s.offsetWithinAddressSpace + s.size / 4096 * 4096 ≤ 2 ^ 52 := by omega
          obtain ⟨d₁, hrun, hadds⟩ := @registerMultipage_spec d
            { s with size := s.size / 4096 * 4096 } n h hmr hstart (Nat.mul_mod_left ..)
            (show 0 < s.size / 4096 * 4096 by omega) hfit
            (fun a hge hlt => hfree a hge (Nat.lt_of_lt_of_le hlt (by
              exact Nat.add_le_add_left (Nat.div_mul_le_self ..) _)))
            (hroom.mono (pagePieces_pos s))
          obtain ⟨d', hrest, hadds'⟩ := (hskip (s.size / 4096 * 4096) (by omega) (by omega)
            (Nat.mul_mod_left ..) hstart).of_rest hadds hfree hroom (by omega) hend hstart
            (Nat.mul_mod_left ..) hpieces fun a hge hlt => by
              have hwhole : s.Whole a := ⟨by omega, by omega, by omega⟩
              rw [MemoryRegionSection.dispatched, if_pos hwhole]
              rfl
          exact ⟨d', (memAddPages_of_aligned hle hoffset hrun).trans hrest, hadds'⟩

/-- The calls that `mem_add` makes at most: one for each page, when the bytes of a page are not
aligned in the region. -/
def sectionPieces (s : MemoryRegionSection) : Nat :=
  if s.offsetWithinRegion % 4096 = s.offsetWithinAddressSpace % 4096 then 3 else s.size / 4096 + 3

theorem pagePieces_le (s : MemoryRegionSection) : pagePieces s ≤ s.size / 4096 + 1 := by
  unfold pagePieces
  split
  · exact Nat.le_refl _
  · split <;> omega

/-- A section that starts inside a page. -/
theorem headPieces_le {size : Nat} (hsize : size = s.size ∨
      (s.offsetWithinAddressSpace + size) % 4096 = 0) (hle : size ≤ s.size) :
    1 + pagePieces (s.skip size) ≤ sectionPieces s := by
  have hpages : pagePieces (s.skip size) ≤ (s.size - size) / 4096 + 1 := pagePieces_le _
  unfold sectionPieces
  split
  · by_cases haligned : (s.offsetWithinRegion + size) % 4096 ≠ 0
    · omega
    · have htwo : pagePieces (s.skip size) = if s.size - size ≥ 4096 then 2 else 1 :=
        pagePieces_of_aligned haligned
      split at htwo <;> omega
  · omega

theorem memAdd_of_head (h : s.offsetWithinAddressSpace % 4096 ≠ 0 ∨ s.size < 4096) {size : Nat}
    (hsize : size = min ((s.offsetWithinAddressSpace + 4095) / 4096 * 4096 -
      s.offsetWithinAddressSpace) s.size)
    (hrun : registerSubpage isRam d { s with size := size } = some d') :
    memAdd isRam d s = memAddPages isRam d' (s.skip size) := by
  subst hsize
  simp only [memAdd, if_pos h, hrun, Option.bind_eq_bind, Option.bind_some]

/-- A section is added to the dispatch: its addresses show its region, and no others change. -/
theorem memAdd_spec {n : Nat} (h : d.Inv none) (hmr : s.mr = .region n) (hsize : 0 < s.size)
    (hend : s.offsetWithinAddressSpace + s.size ≤ 2 ^ 52) (hfree : Free d s)
    (hroom : Room d (sectionPieces s)) :
    ∃ d', memAdd isRam d s = some d' ∧ Adds d d' s (s.dispatched isRam) (sectionPieces s) := by
  have hfirst := hfree _ (Nat.le_refl _) (Nat.lt_add_of_pos_right hsize)
  have hone : 3 ≤ sectionPieces s := by
    unfold sectionPieces
    split <;> omega
  by_cases hhead : s.offsetWithinAddressSpace % 4096 ≠ 0
  · obtain ⟨size, hdef⟩ : ∃ size, size = min ((s.offsetWithinAddressSpace + 4095) / 4096 * 4096 -
      s.offsetWithinAddressSpace) s.size := ⟨_, rfl⟩
    have hle : size ≤ s.size := by omega
    have hpieces : 1 + pagePieces (s.skip size) ≤ sectionPieces s := headPieces_le (by omega) hle
    obtain ⟨d₁, hrun, hadds⟩ := @registerSubpage_spec d { s with size := size } isRam
      s.offsetWithinAddressSpace (s.offsetWithinAddressSpace / 4096) none n h (.inl rfl) hmr rfl
      (page_lt (by omega)) (show 0 < size by omega)
      (show s.offsetWithinAddressSpace % 4096 + size ≤ 4096 by omega) rfl hfirst
      (hroom.mono (by omega))
    have hrest : AddsPages isRam (s.skip size) := memAddPages_spec _ hmr
      (fun hne => by
        have hne' : s.size - size ≠ 0 := hne
        show (s.offsetWithinAddressSpace + size) % 4096 = 0
        omega)
      (show s.offsetWithinAddressSpace + size + (s.size - size) ≤ 2 ^ 52 by omega)
    obtain ⟨d', hrun', hadds'⟩ := hrest d₁ hadds.inv (hfree.rest hadds hle hend)
      (hroom.rest hadds hpieces)
    refine ⟨d', (memAdd_of_head (.inl hhead) hdef hrun).trans hrun', ?_⟩
    refine (hadds.append hadds' hle (fun a hge hlt => ?_) fun a hge hlt => ?_).congr hpieces
      fun _ _ _ => rfl
    · rw [subpageSection_shown_resize]
      refine (dispatched_of_not_whole fun hwhole => ?_).symm
      have hpage := hwhole.1
      omega
    · exact dispatched_skip hle (by omega)
  · by_cases hless : s.size < 4096
    · -- a page that starts with the section first gets a subpage, for no bytes
      have hpage : s.offsetWithinAddressSpace / 4096 < 2 ^ 40 := page_lt (by omega)
      have hdef : 0 = min ((s.offsetWithinAddressSpace + 4095) / 4096 * 4096 -
        s.offsetWithinAddressSpace) s.size := by omega
      obtain ⟨d₁, hrun, hinv, hmapped, hsections, hnodes⟩ := @registerSubpage_zero d
        { s with size := 0 } isRam s.offsetWithinAddressSpace (s.offsetWithinAddressSpace / 4096) h
        (show s.offsetWithinAddressSpace = s.offsetWithinAddressSpace / 4096 * 4096 by omega)
        hpage rfl (by rw [hmr]; nofun) rfl hfirst (hroom.mono (by omega))
      have hroom₁ : Room d₁ 1 := by
        have hsections' := hroom.sections
        have hnodes' := hroom.nodes
        exact ⟨by omega, by omega⟩
      obtain ⟨d', hrun', hadds⟩ := @registerRest_spec d₁ s isRam _ n hinv (.inr rfl) hmr (by omega)
        hsize hless hend ((hmapped _ (by omega)).trans hfirst) hroom₁
      have hrest : memAddPages isRam d₁ s = some d' := by
        rw [memAddPages, if_neg (Nat.not_le.2 hless), if_pos (Nat.ne_of_gt hsize), hrun']
      refine ⟨d', (memAdd_of_head (.inr hless) hdef hrun).trans hrest, hadds.inv,
        fun a ha => ?_, ?_, ?_⟩
      · rw [hadds.mapped a ha, hmapped a ha]
      · have hsections' := hadds.sections
        omega
      · have hnodes' := hadds.nodes
        omega
    · have hrun : memAdd isRam d s = memAddPages isRam d s := if_neg (by omega)
      have hpieces : pagePieces s ≤ sectionPieces s := by
        have hpages := pagePieces_le s
        unfold sectionPieces
        split
        · rename_i heq
          have haligned : ¬ s.offsetWithinRegion % 4096 ≠ 0 := by omega
          rw [pagePieces_of_aligned haligned]
          split <;> omega
        · omega
      obtain ⟨d', hrun', hadds⟩ := @memAddPages_spec isRam n s hmr (fun _ => by omega) hend d h hfree
        (hroom.mono hpieces)
      exact ⟨d', hrun.trans hrun', hadds.congr hpieces fun _ _ _ => rfl⟩

end Vin64.Vx64
