import Vin64.Vx64.Proofs.Dispatch
import Vin64.Vx64.Proofs.Topology

/-!
# What a commit leaves in the dispatch

After the calls of an update every guest address leads to the region that the tree resolves it to,
with its offset in that region.
-/

namespace Vin64.Vx64

open Vin64.Lib Vin64.Lib.Ranges

variable {d d' : AddressSpaceDispatch} {isRam : Nat → Bool} {old new view : FlatView}
  {r : FlatRange} {b c : Int} {calls : List ListenerCall}

/-! ## The sections that are added -/

def ListenerCall.added : ListenerCall → Option MemoryRegionSection
  | .regionAdd s | .regionNop s => some s
  | _ => none

theorem calls_of_step {first : List ListenerCall} {rest : Option (List ListenerCall)}
    (h : (do let calls ← some first; let rest ← rest; some (calls ++ rest)) = some calls) :
    ∃ tail, rest = some tail ∧ calls = first ++ tail := by
  rw [Option.bind_eq_bind, Option.bind_some] at h
  obtain ⟨tail, hrest, heq⟩ := Option.bind_eq_some_iff.1 h
  exact ⟨tail, hrest, (Option.some.inj heq).symm⟩

theorem delPass_added (hmerge : Merge old new) (hold : ∀ r ∈ old, r.Bounded)
    (hcalls : addressSpaceUpdateTopologyPass false old new = some calls) :
    calls.filterMap ListenerCall.added = [] := by
  induction hmerge generalizing calls with
  | done =>
      rw [addressSpaceUpdateTopologyPass] at hcalls
      cases hcalls
      rfl
  | @old frold old new hfirst _ ih =>
      rw [pass_old hfirst, if_neg Bool.false_ne_true,
        (hold frold List.mem_cons_self).updateRegion_eq] at hcalls
      obtain ⟨tail, hrest, rfl⟩ := calls_of_step hcalls
      have htail := ih (fun r hr => hold r (List.mem_cons_of_mem _ hr)) hrest
      exact htail
  | both hequal _ ih =>
      rw [pass_both hequal, if_neg Bool.false_ne_true] at hcalls
      obtain ⟨tail, hrest, rfl⟩ := calls_of_step hcalls
      exact ih (fun r hr => hold r (List.mem_cons_of_mem _ hr)) hrest
  | new hfirst _ ih =>
      rw [pass_new hfirst, if_neg Bool.false_ne_true] at hcalls
      obtain ⟨tail, hrest, rfl⟩ := calls_of_step hcalls
      exact ih hold hrest

/-- The second pass tells of every section of the new map, in order. -/
theorem addPass_added (hmerge : Merge old new) (hnew : ∀ r ∈ new, r.Bounded)
    (hcalls : addressSpaceUpdateTopologyPass true old new = some calls) :
    calls.filterMap ListenerCall.added = new.map FlatRange.toSection := by
  induction hmerge generalizing calls with
  | done =>
      rw [addressSpaceUpdateTopologyPass] at hcalls
      cases hcalls
      rfl
  | old hfirst _ ih =>
      rw [pass_old hfirst, if_pos rfl] at hcalls
      obtain ⟨tail, hrest, rfl⟩ := calls_of_step hcalls
      exact ih hnew hrest
  | @both frold frnew old new hequal _ ih =>
      obtain ⟨log, hboth, hlog⟩ :=
        @FlatRange.Bounded.updateBoth_eq frold frnew (hnew frnew List.mem_cons_self)
      rw [pass_both hequal, if_pos rfl, hboth] at hcalls
      obtain ⟨tail, hrest, rfl⟩ := calls_of_step hcalls
      have htail := ih (fun r hr => hnew r (List.mem_cons_of_mem _ hr)) hrest
      rcases hlog with rfl | rfl | rfl <;> exact congrArg (frnew.toSection :: ·) htail
  | @new frnew old new hfirst _ ih =>
      rw [pass_new hfirst, if_pos rfl, (hnew frnew List.mem_cons_self).updateRegion_eq] at hcalls
      obtain ⟨tail, hrest, rfl⟩ := calls_of_step hcalls
      exact congrArg (frnew.toSection :: ·) (ih (fun r hr => hnew r (List.mem_cons_of_mem _ hr)) hrest)

/-- The dispatch takes no notice of the other calls. -/
theorem foldlM_call (calls : List ListenerCall) (d : AddressSpaceDispatch) :
    calls.foldlM (AddressSpaceDispatch.call isRam) d =
      (calls.filterMap ListenerCall.added).foldlM (memAdd isRam) d := by
  induction calls generalizing d with
  | nil => rfl
  | cons call calls ih =>
      cases call <;>
        simp only [List.foldlM_cons, AddressSpaceDispatch.call, List.filterMap_cons,
          ListenerCall.added, ih, Option.bind_eq_bind, Option.bind_some]

/-! ## All sections of a map -/

def FlatView.pieces (view : FlatView) : Nat := (view.map (sectionPieces ·.toSection)).sum

theorem toSection_covers_iff (h : r.Bounded) (a : Nat) :
    (r.toSection.offsetWithinAddressSpace ≤ a ∧
      a < r.toSection.offsetWithinAddressSpace + r.toSection.size) ↔
      r.addr.start ≤ a ∧ (a : Int) < r.addr.stop := by
  have hstart := h.start.1
  have hsize := h.size.1
  unfold AddrRange.stop
  simp only [FlatRange.toSection]
  omega

/-- The sections of a map are added one after the other. -/
theorem memAdds_spec (hview : Mapped b view) (hend : ∀ r ∈ view, r.addr.stop ≤ 2 ^ 52)
    (h : d.Inv none) (hfree : ∀ r ∈ view, Free d r.toSection) (hroom : Room d view.pieces) :
    ∃ d', (view.map FlatRange.toSection).foldlM (memAdd isRam) d = some d' ∧ d'.Inv none ∧
      (∀ r ∈ view, ∀ a : Nat, r.addr.start ≤ a → (a : Int) < r.addr.stop →
        d'.mapped a = r.toSection.dispatched isRam a) ∧
      ∀ a : Nat, a < 2 ^ 52 → (∀ r ∈ view, ¬ (r.addr.start ≤ a ∧ (a : Int) < r.addr.stop)) →
        d'.mapped a = d.mapped a := by
  induction view generalizing d b with
  | nil => exact ⟨d, rfl, h, nofun, fun _ _ _ => rfl⟩
  | cons r view ih =>
      obtain ⟨-, hlt, hbounded⟩ := hview.head
      have hstop := hend r List.mem_cons_self
      have hpieces : FlatView.pieces (r :: view) = sectionPieces r.toSection + FlatView.pieces view :=
        List.sum_cons
      have hsize : r.toSection.offsetWithinAddressSpace + r.toSection.size ≤ 2 ^ 52 ∧
          0 < r.toSection.size := by
        have hstart := hbounded.start.1
        have hsize := hbounded.size.1
        unfold AddrRange.stop at hstop hlt
        simp only [FlatRange.toSection]
        omega
      obtain ⟨d₁, hrun, hadds⟩ := memAdd_spec h rfl hsize.2 hsize.1 (hfree r List.mem_cons_self)
        (hroom.mono (by omega))
      have hfree₁ : ∀ s ∈ view, Free d₁ s.toSection := by
        intro s hs a hge hlt'
        have hbounded' := hview.tail.bounded s hs
        have hafter := hview.tail.start_le hs
        have hend' := hend s (List.mem_cons_of_mem _ hs)
        obtain ⟨hge', hlt''⟩ := (toSection_covers_iff hbounded' a).1 ⟨hge, hlt'⟩
        rw [hadds.mapped a (by omega), if_neg]
        · exact hfree s (List.mem_cons_of_mem _ hs) a hge hlt'
        · rw [toSection_covers_iff hbounded a]
          omega
      obtain ⟨d', hrun', hinv, hshown, hother⟩ := ih hview.tail
        (fun s hs => hend s (List.mem_cons_of_mem _ hs)) hadds.inv hfree₁
        (hroom.rest hadds (Nat.le_of_eq hpieces.symm))
      refine ⟨d', ?_, hinv, fun s hs a hge hlt' => ?_, fun a ha hout => ?_⟩
      · rw [List.map_cons, List.foldlM_cons, hrun]
        exact hrun'
      · rcases List.mem_cons.1 hs with rfl | hs
        · rw [hother a (by omega), hadds.mapped a (by omega), if_pos]
          · exact (toSection_covers_iff hbounded a).2 ⟨hge, hlt'⟩
          · intro t ht
            have hafter := hview.tail.start_le ht
            omega
        · exact hshown s hs a hge hlt'
      · rw [hother a ha fun s hs => hout s (List.mem_cons_of_mem _ hs), hadds.mapped a ha, if_neg]
        rw [toSection_covers_iff hbounded a]
        exact hout r List.mem_cons_self

/-! ## The tree -/

/-- All of the page shows one region, and its bytes are aligned there. -/
def MemoryRegion.WholePage (root : MemoryRegion) (a : Nat) (hit : Hit) : Prop :=
  hit.offset % 4096 = a % 4096 ∧ ∀ b : Nat, b / 4096 = a / 4096 →
    root.resolve 0 false b = some { hit with offset := hit.offset + (b - a) }

theorem hit_shift (r : FlatRange) (a b : Int) :
    r.hit b = { r.hit a with offset := (r.hit a).offset + (b - a) } := by
  simp only [FlatRange.hit, Hit.mk.injEq, and_true, true_and]
  omega

theorem meaning_of_lt {root : MemoryRegion} {a : Nat} (h : a < 18446744073709551616) :
    root.meaning a = root.resolve 0 false a := if_pos ⟨Int.natCast_nonneg a, by omega⟩

/-- A page lies in one range of the map just when it shows one region. -/
theorem whole_iff_wholePage {root : MemoryRegion} (hview : Mapped b view)
    (hunmerged : Unmerged view) (hlookup : view.lookup = root.meaning) (hr : r ∈ view) {a : Nat}
    (ha : a < 2 ^ 52) (hge : r.addr.start ≤ a) (hlt : (a : Int) < r.addr.stop) :
    r.toSection.Whole a ↔ root.WholePage a (r.hit a) := by
  obtain ⟨hbase, hsize⟩ := hview.bounded r hr
  have hshown : ∀ c : Nat, c < 2 ^ 52 → r.addr.start ≤ c → (c : Int) < r.addr.stop →
      root.resolve 0 false c = some (r.hit c) := fun c hc hge hlt => by
    rw [← meaning_of_lt (by omega), ← hlookup]
    exact (lookup_eq_some_iff hview.sorted).2 ⟨r, hr, hge, hlt, rfl⟩
  have hoffset : (r.hit a).offset = r.offsetInRegion.toNat + (a - r.addr.start) := rfl
  unfold MemoryRegionSection.Whole FlatRange.toSection MemoryRegion.WholePage
  unfold AddrRange.stop at hshown hlt
  dsimp only
  constructor
  · rintro ⟨hstart, hend, haligned⟩
    refine ⟨by omega, fun c hc => ?_⟩
    rw [hshown c (by omega) (by omega) (by omega), ← hit_shift]
  · rintro ⟨haligned, hall⟩
    have hpage : r.addr.start ≤ (a / 4096 * 4096 : Nat) ∧
        ((a / 4096 * 4096 : Nat) : Int) + 4096 ≤ r.addr.stop := by
      refine hunmerged.holds hit_rigid hview.sorted hr (by omega)
        (by unfold AddrRange.stop; omega) fun c hc hc' => ?_
      obtain ⟨n, rfl⟩ := Int.eq_ofNat_of_zero_le (by omega : 0 ≤ c)
      have hsame := hall n (by omega)
      have hlook : view.lookup n = some (r.hit n) := by
        rw [hlookup, meaning_of_lt (by omega), hsame, hit_shift r a n]
      exact hlook
    unfold AddrRange.stop at hpage
    exact ⟨by omega, by omega, by omega⟩

theorem dispatched_toSection (hr : r.Bounded) (a : Nat) :
    r.toSection.dispatched isRam a = some
      (if isRam r.mr = true ∧ ¬ r.toSection.Whole a then .ioMemSubpageRam else .region r.mr,
        (r.hit a).offset) := by
  have haddr : memoryRegionSectionAddr r.toSection a = (r.hit a).offset := by
    have hstart := hr.start.1
    simp only [memoryRegionSectionAddr, FlatRange.toSection, FlatRange.hit]
    omega
  have hself : r.toSection.shown a = some (.region r.mr, (r.hit a).offset) := by
    rw [← haddr]
    rfl
  have hram : memoryRegionIsRam isRam r.toSection.mr = isRam r.mr := rfl
  rw [MemoryRegionSection.dispatched, subpageSection_shown, hself, haddr, hram]
  by_cases hwhole : r.toSection.Whole a
  · rw [if_pos hwhole, if_neg fun hc => hc.2 hwhole]
  · rw [if_neg hwhole]
    cases hcase : isRam r.mr with
    | true => rw [if_pos rfl, if_pos ⟨rfl, hwhole⟩]
    | false => rw [if_neg Bool.false_ne_true, if_neg fun hc => Bool.false_ne_true hc.1]

/-! ## An update -/

theorem memBegin_inv (d : AddressSpaceDispatch) : d.memBegin.Inv none := by
  refine ⟨reset_valid _, rfl, fun i s hi hs => ?_, fun x hx => ?_⟩
  · obtain ⟨i, rfl⟩ := Nat.exists_eq_succ_of_ne_zero hi
    have htail : ([SectionRegion.ioMemNotdirty, .ioMemRom, .ioMemWatch].map dummySection)[i]? =
        some s := hs
    have hmem := List.mem_of_getElem? htail
    simp only [List.map_cons, List.map_nil, List.mem_cons, List.not_mem_nil, or_false] at hmem
    rcases hmem with rfl | rfl | rfl <;> exact nofun
  · refine ⟨dummySection .ioMemUnassigned, ?_, .inl nofun⟩
    rw [AddressSpaceDispatch.pageFind, AddressSpaceDispatch.memBegin, physPageFind_reset]
    rfl

theorem memBegin_mapped (d : AddressSpaceDispatch) (a : Nat) : d.memBegin.mapped a = none := by
  have hpage : d.memBegin.pageFind (a / 4096) = some (dummySection .ioMemUnassigned) := by
    rw [AddressSpaceDispatch.pageFind, AddressSpaceDispatch.memBegin, physPageFind_reset]
    rfl
  have hmr (k : Nat) : (dummySection .ioMemUnassigned).mr ≠ .subpage k := SectionRegion.noConfusion
  rw [mapped_of_page hpage hmr, shown_eq_none_iff]
  rfl

/-- The calls of an update, from whatever the dispatch held. -/
theorem update_spec {root : MemoryRegion} (hsized : root.Sized)
    (hnew : generateMemoryTopology (some root) = some new) (hold : Mapped b old)
    (hend : ∀ a : Int, 2 ^ 52 ≤ a → root.meaning a = none) (hroom : new.pieces ≤ 4681) :
    ∃ calls d', addressSpaceUpdateTopology old (some root) = some (calls, new) ∧
      d.update isRam calls = some d' ∧ d'.Inv none ∧
      (∀ a : Nat, a < 2 ^ 52 → root.resolve 0 false a = none → d'.mapped a = none) ∧
      ∀ (a : Nat) (hit : Hit), a < 2 ^ 52 → root.resolve 0 false a = some hit →
        ((isRam hit.mr = false ∨ root.WholePage a hit) →
          d'.mapped a = some (.region hit.mr, hit.offset)) ∧
        ((isRam hit.mr = true ∧ ¬ root.WholePage a hit) →
          d'.mapped a = some (.ioMemSubpageRam, hit.offset)) := by
  obtain ⟨view, hrun, -, hunmerged, hlookup⟩ := generateMemoryTopology_spec hsized
  obtain rfl : view = new := Option.some.inj (hrun.symm.trans hnew)
  obtain ⟨c, hmapped⟩ := generateMemoryTopology_mapped hsized hnew
  obtain ⟨dels, adds, hdel, hadd, -⟩ := listen_passes hold hmapped
  have hstop : ∀ r ∈ view, r.addr.stop ≤ 2 ^ 52 := by
    intro r hr
    refine Int.not_lt.1 fun hlt => ?_
    have hrange := (hmapped.sorted.start_le hr).2
    have hshown : view.lookup (r.addr.stop - 1) = some (r.hit (r.addr.stop - 1)) :=
      (lookup_eq_some_iff hmapped.sorted).2 ⟨r, hr, by omega, by omega, rfl⟩
    rw [hlookup, hend _ (by omega)] at hshown
    cases hshown
  have hbegin := memBegin_inv d
  have hbudget : Room d.memBegin view.pieces :=
    ⟨show 4 + 3 * view.pieces ≤ 32768 by omega, show 0 + 7 * view.pieces ≤ 32767 by omega⟩
  obtain ⟨d', hfold, hinv, hshown, hother⟩ := @memAdds_spec d.memBegin isRam view c hmapped hstop
    hbegin (fun r _ a _ _ => memBegin_mapped d a) hbudget
  have hresolve : ∀ a : Nat, a < 2 ^ 52 → view.lookup a = root.resolve 0 false a := fun a ha => by
    rw [hlookup, meaning_of_lt (by omega)]
  refine ⟨dels ++ adds, d', ?_, ?_, hinv, fun a ha hnone => ?_, fun a hit ha hhit => ?_⟩
  · simp only [addressSpaceUpdateTopology, hnew, hdel, hadd, Option.bind_eq_bind, Option.bind_some]
  · rw [AddressSpaceDispatch.update, foldlM_call, List.filterMap_append,
      delPass_added (merge old view) hold.bounded hdel,
      addPass_added (merge old view) hmapped.bounded hadd, List.nil_append, hfold]
  · rw [hother a ha, memBegin_mapped]
    rintro r hr ⟨hge, hlt⟩
    have hsome : view.lookup a = some (r.hit a) :=
      (lookup_eq_some_iff hmapped.sorted).2 ⟨r, hr, hge, hlt, rfl⟩
    rw [hresolve a ha, hnone] at hsome
    cases hsome
  · rw [← hresolve a ha] at hhit
    obtain ⟨r, hr, hge, hlt, rfl⟩ := (lookup_eq_some_iff hmapped.sorted).1 hhit
    have hmr : (r.hit a).mr = r.mr := rfl
    have hiff := whole_iff_wholePage hmapped hunmerged hlookup hr ha hge hlt
    rw [hshown r hr a hge hlt, dispatched_toSection (hmapped.bounded r hr), hmr]
    constructor
    · rintro (hram | hwhole)
      · rw [if_neg fun hc => by rw [hram] at hc; exact Bool.false_ne_true hc.1]
      · rw [if_neg fun hc => hc.2 (hiff.2 hwhole)]
    · exact fun hpart => by rw [if_pos ⟨hpart.1, fun hwhole => hpart.2 (hiff.1 hwhole)⟩]

/-- After a tree of regions has replaced another, an access to a guest address reaches the region
that the new tree resolves it to, at its offset there.  RAM that does not fill a page, or is not
aligned in it, is reached through `io_mem_subpage_ram`. -/
theorem update_locates (isRam : Nat → Bool) (d : AddressSpaceDispatch) (root root' : MemoryRegion)
    (currentMap newView : FlatView) (hsized : root.Sized) (hsized' : root'.Sized)
    (hold : generateMemoryTopology (some root) = some currentMap)
    (hnew : generateMemoryTopology (some root') = some newView)
    (hend : ∀ a : Int, 2 ^ 52 ≤ a → root'.meaning a = none) (hroom : newView.pieces ≤ 4681) :
    ∃ calls d', addressSpaceUpdateTopology currentMap (some root') = some (calls, newView) ∧
      d.update isRam calls = some d' ∧
      (∀ a : Nat, a < 2 ^ 52 → root'.resolve 0 false a = none → d'.mapped a = none) ∧
      ∀ (a : Nat) (hit : Hit), a < 2 ^ 52 → root'.resolve 0 false a = some hit →
        ((isRam hit.mr = false ∨ root'.WholePage a hit) →
          d'.mapped a = some (.region hit.mr, hit.offset)) ∧
        ((isRam hit.mr = true ∧ ¬ root'.WholePage a hit) →
          d'.mapped a = some (.ioMemSubpageRam, hit.offset)) := by
  obtain ⟨b, hmapped⟩ := generateMemoryTopology_mapped hsized hold
  obtain ⟨calls, d', hcalls, hupdate, -, hnone, hsome⟩ :=
    update_spec hsized' hnew hmapped hend hroom
  exact ⟨calls, d', hcalls, hupdate, hnone, hsome⟩

/-- The older window can be seen on both sides of the newer one. -/
def overlaidView : FlatView :=
  [⟨1, 0, ⟨4096, 4096⟩, 0, true, false⟩, ⟨2, 0, ⟨8192, 4096⟩, 0, true, false⟩,
    ⟨1, 8192, ⟨12288, 4096⟩, 0, true, false⟩]

theorem overlaidWindows_view :
    generateMemoryTopology (some overlaidWindows) = some overlaidView := by
  have hrender : renderMemoryRegion [] overlaidWindows 0 ⟨0, 18446744073709551616⟩ false =
    some overlaidView := by decide +kernel
  simp [generateMemoryTopology, hrender, overlaidView, flatviewSimplify, absorb, canMerge,
    AddrRange.stop]

theorem aliasedWindows_view :
    generateMemoryTopology (some aliasedWindows) = some overlaidView := by
  have hrender : renderMemoryRegion [] aliasedWindows 0 ⟨0, 18446744073709551616⟩ false =
    some overlaidView := by decide +kernel
  simp [generateMemoryTopology, hrender, overlaidView, flatviewSimplify, absorb, canMerge,
    AddrRange.stop]

theorem overlaidWindows_end (a : Int) (h : 2 ^ 52 ≤ a) : overlaidWindows.meaning a = none := by
  simp [MemoryRegion.meaning, overlaidWindows, MemoryRegion.resolve, resolveFirst,
    RegionFields.Covers]
  omega

theorem update_locates_overlaid :
    ∃ calls d', addressSpaceUpdateTopology overlaidView (some overlaidWindows) =
        some (calls, overlaidView) ∧
      AddressSpaceDispatch.update (fun _ => true)
        ⟨⟨⟨true, 0⟩, fun _ _ => ⟨true, 0⟩, 0, 0⟩, [], []⟩ calls = some d' ∧
      (∀ a : Nat, a < 2 ^ 52 → overlaidWindows.resolve 0 false a = none → d'.mapped a = none) ∧
      ∀ (a : Nat) (hit : Hit), a < 2 ^ 52 → overlaidWindows.resolve 0 false a = some hit →
        ((true = false ∨ overlaidWindows.WholePage a hit) →
          d'.mapped a = some (.region hit.mr, hit.offset)) ∧
        ((true = true ∧ ¬ overlaidWindows.WholePage a hit) →
          d'.mapped a = some (.ioMemSubpageRam, hit.offset)) :=
  update_locates (fun _ => true) ⟨⟨⟨true, 0⟩, fun _ _ => ⟨true, 0⟩, 0, 0⟩, [], []⟩ aliasedWindows
    overlaidWindows overlaidView overlaidView aliasedWindows_sized overlaidWindows_sized
    aliasedWindows_view overlaidWindows_view overlaidWindows_end (by decide)

end Vin64.Vx64
