import Vin64.Vx64.Topology
import Vin64.Vx64.Proofs.FlatView
import Mathlib.Data.Finset.Dedup

/-!
# Listeners follow the map

The calls of an update take a listener from the sections of the old map to those of the new one,
and at no point is it given a section where it still holds another.
-/

namespace Vin64.Vx64

open Vin64.Lib Vin64.Lib.Ranges

variable {r s frold frnew : FlatRange} {view old new : FlatView} {b c : Int}
  {held held' : Finset MemoryRegionSection}

/-! ## Sections -/

/-- A range that a section can show. -/
structure FlatRange.Bounded (r : FlatRange) : Prop where
  start : 0 ≤ r.addr.start ∧ r.addr.start < 18446744073709551616
  size : 0 ≤ r.addr.size ∧ r.addr.size < 18446744073709551616

def FlatRange.toSection (r : FlatRange) : MemoryRegionSection :=
  ⟨.region r.mr, r.offsetInRegion.toNat, r.addr.size.toNat, r.addr.start.toNat, r.readonly⟩

theorem FlatRange.Bounded.section_eq (h : r.Bounded) : r.section = some r.toSection := by
  simp only [FlatRange.section, int128Get64_of_lt h.size.1 h.size.2,
    int128Get64_of_lt h.start.1 h.start.2, Option.bind_eq_bind, Option.bind_some]
  rfl

theorem FlatRange.Bounded.updateRegion_eq (h : r.Bounded)
    (callback : MemoryRegionSection → ListenerCall) :
    updateRegion r callback = some [callback r.toSection] := by
  rw [updateRegion, h.section_eq]
  rfl

theorem FlatRange.Bounded.updateBoth_eq (h : frnew.Bounded) :
    ∃ log, updateBoth frold frnew = some (.regionNop frnew.toSection :: log) ∧
      (log = [] ∨ log = [.logStop frnew.toSection] ∨ log = [.logStart frnew.toSection]) := by
  simp only [updateBoth, h.updateRegion_eq, Option.bind_eq_bind, Option.bind_some]
  split
  · exact ⟨_, rfl, .inr (.inl rfl)⟩
  · split
    · exact ⟨_, rfl, .inr (.inr rfl)⟩
    · exact ⟨_, rfl, .inl rfl⟩

theorem sections_eq (h : ∀ r ∈ view, r.Bounded) :
    view.sections = some (view.map FlatRange.toSection) := by
  induction view with
  | nil => rfl
  | cons r view ih =>
      have hrest : FlatView.sections view = some (view.map FlatRange.toSection) :=
        ih fun s hs => h s (List.mem_cons_of_mem _ hs)
      rw [FlatView.sections] at hrest ⊢
      rw [List.mapM_cons, (h r List.mem_cons_self).section_eq, hrest]
      rfl

theorem apart_of_stop_le (hr : r.Bounded) (h : r.addr.stop ≤ s.addr.start) :
    r.toSection.Apart s.toSection := by
  left
  have hstart := hr.start.1
  have hsize := hr.size.1
  unfold AddrRange.stop at h
  simp only [FlatRange.toSection]
  omega

theorem MemoryRegionSection.Apart.symm {s t : MemoryRegionSection} (h : s.Apart t) : t.Apart s :=
  Or.symm h

theorem toSection_ne (hr : r.Bounded) (hs : s.Bounded) (h : r.addr.start ≠ s.addr.start) :
    r.toSection ≠ s.toSection := by
  intro heq
  have hstart := congrArg MemoryRegionSection.offsetWithinAddressSpace heq
  have h1 := hr.start.1
  have h2 := hs.start.1
  simp only [FlatRange.toSection] at hstart
  omega

theorem flatrangeEqual_iff :
    flatrangeEqual r s = true ↔ r.mr = s.mr ∧ r.addr = s.addr ∧
      r.offsetInRegion = s.offsetInRegion ∧ r.readable = s.readable ∧ r.readonly = s.readonly := by
  simp only [flatrangeEqual, Bool.and_eq_true, decide_eq_true_eq, and_assoc]

theorem toSection_eq_of_equal (h : flatrangeEqual r s = true) : r.toSection = s.toSection := by
  obtain ⟨hmr, haddr, hoffset, -, hreadonly⟩ := flatrangeEqual_iff.1 h
  rw [FlatRange.toSection, FlatRange.toSection, hmr, haddr, hoffset, hreadonly]

/-- The new map has the range too, though its log mask may have changed. -/
def Kept (new : FlatView) (r : FlatRange) : Prop := ∃ s ∈ new, flatrangeEqual r s = true

theorem start_eq_of_equal (h : flatrangeEqual r s = true) : r.addr.start = s.addr.start :=
  congrArg AddrRange.start (flatrangeEqual_iff.1 h).2.1

theorem not_kept_of_lt (hnew : FlatView.From b new) (h : r.addr.start < b) : ¬ Kept new r := by
  rintro ⟨s, hs, hequal⟩
  have hle : b ≤ s.addr.start := (hnew.start_le hs).1
  have heq := start_eq_of_equal hequal
  omega

theorem kept_cons_iff (h : ¬ flatrangeEqual r frnew = true) :
    Kept (frnew :: new) r ↔ Kept new r := by
  constructor
  · rintro ⟨s, hs, hequal⟩
    rcases List.mem_cons.1 hs with rfl | hs
    · exact absurd hequal h
    · exact ⟨s, hs, hequal⟩
  · rintro ⟨s, hs, hequal⟩
    exact ⟨s, List.mem_cons_of_mem _ hs, hequal⟩

theorem kept_cons_iff_of_lt (h : frnew.addr.start < r.addr.start) :
    Kept (frnew :: new) r ↔ Kept new r :=
  kept_cons_iff fun hequal => by
    have heq := start_eq_of_equal hequal
    omega

/-! ## The two passes -/

theorem listen_append (held : Finset MemoryRegionSection) (calls calls' : List ListenerCall) :
    listen held (calls ++ calls') = (listen held calls).bind fun held => listen held calls' := by
  rw [listen, List.foldlM_append]
  rfl

/-- The bounds of two maps in order. -/
structure Mapped (b : Int) (view : FlatView) : Prop where
  sorted : FlatView.From b view
  bounded : ∀ r ∈ view, r.Bounded

theorem Mapped.head (h : Mapped b (r :: view)) :
    b ≤ r.addr.start ∧ r.addr.start < r.addr.stop ∧ r.Bounded :=
  ⟨h.sorted.1, h.sorted.2.1, h.bounded r List.mem_cons_self⟩

theorem Mapped.tail (h : Mapped b (r :: view)) : Mapped r.addr.stop view :=
  ⟨h.sorted.2.2, fun s hs => h.bounded s (List.mem_cons_of_mem _ hs)⟩

theorem Mapped.start_le (h : Mapped b view) (hr : r ∈ view) : b ≤ r.addr.start :=
  (h.sorted.start_le hr).1

/-- The steps of a pass: through the old map, through both, or through the new one. -/
inductive Merge : FlatView → FlatView → Prop where
  | done : Merge [] []
  | old {frold : FlatRange} {old new : FlatView}
      (first : ∀ frnew ∈ new.head?, frold.addr.start < frnew.addr.start ∨
        (frold.addr.start = frnew.addr.start ∧ flatrangeEqual frold frnew = false))
      (rest : Merge old new) : Merge (frold :: old) new
  | both {frold frnew : FlatRange} {old new : FlatView}
      (equal : flatrangeEqual frold frnew = true) (rest : Merge old new) :
      Merge (frold :: old) (frnew :: new)
  | new {frnew : FlatRange} {old new : FlatView}
      (first : ∀ frold ∈ old.head?, frnew.addr.start < frold.addr.start)
      (rest : Merge old new) : Merge old (frnew :: new)

theorem merge (old new : FlatView) : Merge old new := by
  induction old generalizing new with
  | nil =>
      induction new with
      | nil => exact .done
      | cons frnew new ih => exact .new nofun ih
  | cons frold old ihold =>
      induction new with
      | nil => exact .old nofun (ihold [])
      | cons frnew new ihnew =>
          by_cases hfirst : frold.addr.start < frnew.addr.start ∨
              (frold.addr.start = frnew.addr.start ∧ flatrangeEqual frold frnew = false)
          · exact .old (fun s hs => Option.some.inj hs ▸ hfirst) (ihold _)
          · cases hequal : flatrangeEqual frold frnew with
            | true => exact .both hequal (ihold new)
            | false =>
                refine .new (fun r hr => ?_) ihnew
                obtain rfl : frold = r := Option.some.inj hr
                simp only [hequal, and_true] at hfirst
                omega

variable {adding : Bool}

theorem pass_old (hfirst : ∀ frnew ∈ new.head?, frold.addr.start < frnew.addr.start ∨
      (frold.addr.start = frnew.addr.start ∧ flatrangeEqual frold frnew = false)) :
    addressSpaceUpdateTopologyPass adding (frold :: old) new = (do
      let calls ← if adding then some [] else updateRegion frold .regionDel
      let rest ← addressSpaceUpdateTopologyPass adding old new
      some (calls ++ rest)) := by
  cases new with
  | nil => rw [addressSpaceUpdateTopologyPass]
  | cons frnew new => rw [addressSpaceUpdateTopologyPass, if_pos (hfirst frnew rfl)]

theorem pass_both (hequal : flatrangeEqual frold frnew = true) :
    addressSpaceUpdateTopologyPass adding (frold :: old) (frnew :: new) = (do
      let calls ← if adding then updateBoth frold frnew else some []
      let rest ← addressSpaceUpdateTopologyPass adding old new
      some (calls ++ rest)) := by
  have hstart := start_eq_of_equal hequal
  have hfirst : ¬ (frold.addr.start < frnew.addr.start ∨
      (frold.addr.start = frnew.addr.start ∧ flatrangeEqual frold frnew = false)) := by
    simp only [hequal, Bool.true_eq_false, and_false, or_false]
    omega
  rw [addressSpaceUpdateTopologyPass, if_neg hfirst, if_pos hequal]

theorem pass_new (hfirst : ∀ frold ∈ old.head?, frnew.addr.start < frold.addr.start) :
    addressSpaceUpdateTopologyPass adding old (frnew :: new) = (do
      let calls ← if adding then updateRegion frnew .regionAdd else some []
      let rest ← addressSpaceUpdateTopologyPass adding old new
      some (calls ++ rest)) := by
  cases old with
  | nil => rw [addressSpaceUpdateTopologyPass]
  | cons frold old =>
      have hlt := hfirst frold rfl
      have hne : ¬ flatrangeEqual frold frnew = true := fun hequal => by
        have hstart := start_eq_of_equal hequal
        omega
      rw [addressSpaceUpdateTopologyPass, if_neg (by omega), if_neg hne]

/-- The range in front is not in the new map when a pass goes through the old map. -/
theorem not_kept_of_first (hnew : Mapped c new) (hfirst : ∀ frnew ∈ new.head?,
      frold.addr.start < frnew.addr.start ∨
        (frold.addr.start = frnew.addr.start ∧ flatrangeEqual frold frnew = false)) :
    ¬ Kept new frold := by
  cases new with
  | nil => exact fun ⟨_, hs, _⟩ => nomatch hs
  | cons frnew new =>
      obtain ⟨-, hlt, -⟩ := hnew.head
      rcases hfirst frnew rfl with hstart | ⟨hstart, hequal⟩
      · exact not_kept_of_lt hnew.sorted.head hstart
      · rw [kept_cons_iff (Bool.eq_false_iff.1 hequal)]
        exact not_kept_of_lt hnew.tail.sorted (hstart ▸ hlt)

theorem lt_of_first (hold : Mapped b old)
    (hfirst : ∀ frold ∈ old.head?, frnew.addr.start < frold.addr.start) (hr : r ∈ old) :
    frnew.addr.start < r.addr.start := by
  cases old with
  | nil => cases hr
  | cons frold old =>
      have hle : frold.addr.start ≤ r.addr.start := (hold.sorted.head.start_le hr).1
      have hlt := hfirst frold rfl
      omega

/-- The first pass takes away what is not in the new map. -/
theorem listen_delPass (hmerge : Merge old new) (hold : Mapped b old) (hnew : Mapped c new)
    (hheld : ∀ r ∈ old, r.toSection ∈ held) :
    ∃ calls held', addressSpaceUpdateTopologyPass false old new = some calls ∧
      listen held calls = some held' ∧
      ∀ t, t ∈ held' ↔ t ∈ held ∧ ∀ r ∈ old, r.toSection = t → Kept new r := by
  induction hmerge generalizing b c held with
  | done =>
      refine ⟨[], held, by rw [addressSpaceUpdateTopologyPass], rfl, fun t => ?_⟩
      exact ⟨fun h => ⟨h, fun r hr => absurd hr List.not_mem_nil⟩, fun h => h.1⟩
  | @old frold old new hfirst _ ih =>
      obtain ⟨-, hlt, hbounded⟩ := hold.head
      have hne : ∀ r ∈ old, r.toSection ≠ frold.toSection := fun r hr => by
        have hge := hold.tail.start_le hr
        exact toSection_ne (hold.tail.bounded r hr) hbounded (by omega)
      obtain ⟨calls, held', hpass, hlisten, hmem⟩ := @ih _ _ (held.erase frold.toSection)
        hold.tail hnew fun r hr => Finset.mem_erase.2
          ⟨hne r hr, hheld r (List.mem_cons_of_mem _ hr)⟩
      refine ⟨.regionDel frold.toSection :: calls, held', ?_, ?_, fun t => ?_⟩
      · rw [pass_old hfirst, hpass, hbounded.updateRegion_eq]
        rfl
      · rw [listen, List.foldlM_cons, ListenerCall.apply, if_pos (hheld _ List.mem_cons_self)]
        exact hlisten
      · have hgone := not_kept_of_first hnew hfirst
        rw [hmem, Finset.mem_erase]
        constructor
        · rintro ⟨⟨hnet, hin⟩, hkept⟩
          refine ⟨hin, fun r hr heq => ?_⟩
          rcases List.mem_cons.1 hr with rfl | hr
          · exact absurd heq.symm hnet
          · exact hkept r hr heq
        · rintro ⟨hin, hkept⟩
          refine ⟨⟨?_, hin⟩, fun r hr heq => hkept r (List.mem_cons_of_mem _ hr) heq⟩
          rintro rfl
          exact hgone (hkept frold List.mem_cons_self rfl)
  | @both frold frnew old new hequal _ ih =>
      obtain ⟨calls, held', hpass, hlisten, hmem⟩ := ih hold.tail hnew.tail fun r hr =>
        hheld r (List.mem_cons_of_mem _ hr)
      refine ⟨calls, held', ?_, hlisten, fun t => ?_⟩
      · rw [pass_both hequal, hpass]
        rfl
      · have hafter : ∀ r ∈ old, Kept (frnew :: new) r ↔ Kept new r := fun r hr => by
          have hge := hold.tail.start_le hr
          have hlt := hold.head.2.1
          have hstart := start_eq_of_equal hequal
          exact kept_cons_iff_of_lt (by omega)
        rw [hmem, List.forall_mem_cons]
        constructor
        · rintro ⟨hin, hkept⟩
          exact ⟨hin, fun _ => ⟨frnew, List.mem_cons_self, hequal⟩,
            fun r hr heq => (hafter r hr).2 (hkept r hr heq)⟩
        · rintro ⟨hin, -, hkept⟩
          exact ⟨hin, fun r hr heq => (hafter r hr).1 (hkept r hr heq)⟩
  | @new frnew old new hfirst _ ih =>
      obtain ⟨calls, held', hpass, hlisten, hmem⟩ := ih hold hnew.tail hheld
      refine ⟨calls, held', ?_, hlisten, fun t => ?_⟩
      · rw [pass_new hfirst, hpass]
        rfl
      · rw [hmem]
        refine and_congr_right fun _ => forall₂_congr fun r hr => ?_
        rw [kept_cons_iff_of_lt (lt_of_first hold hfirst hr)]

/-- What the listener holds before the second pass comes to the rest of the new map: of the rest it
holds what is kept, and everything else that it holds is apart from the rest. -/
structure Ready (held : Finset MemoryRegionSection) (old new : FlatView) : Prop where
  kept : ∀ s ∈ new, s.toSection ∈ held ↔ ∃ r ∈ old, flatrangeEqual r s = true
  apart : ∀ t ∈ held, (∀ s ∈ new, s.toSection ≠ t) → ∀ s ∈ new, s.toSection.Apart t

theorem Ready.apart_tail (h : Ready held old (frnew :: new)) (hnew : Mapped c (frnew :: new))
    (t : MemoryRegionSection) (ht : t ∈ held) (hlater : ∀ s ∈ new, s.toSection ≠ t) (s : FlatRange)
    (hs : s ∈ new) : s.toSection.Apart t := by
  by_cases heq : frnew.toSection = t
  · subst heq
    exact (apart_of_stop_le hnew.head.2.2 (hnew.tail.start_le hs)).symm
  · refine h.apart t ht (fun u hu => ?_) s (List.mem_cons_of_mem _ hs)
    rcases List.mem_cons.1 hu with rfl | hu
    · exact heq
    · exact hlater u hu

/-- The second pass brings in what was not in the old map. -/
theorem listen_addPass (hmerge : Merge old new) (hold : Mapped b old) (hnew : Mapped c new)
    (hready : Ready held old new) :
    ∃ calls held', addressSpaceUpdateTopologyPass true old new = some calls ∧
      listen held calls = some held' ∧
      ∀ t, t ∈ held' ↔ t ∈ held ∨ ∃ s ∈ new, s.toSection = t := by
  induction hmerge generalizing b c held with
  | done =>
      refine ⟨[], held, by rw [addressSpaceUpdateTopologyPass], rfl, fun t => ⟨.inl, ?_⟩⟩
      rintro (hin | ⟨s, hs, -⟩)
      · exact hin
      · exact absurd hs List.not_mem_nil
  | @old frold old new hfirst _ ih =>
      have hgone := not_kept_of_first hnew hfirst
      obtain ⟨calls, held', hpass, hlisten, hmem⟩ := ih hold.tail hnew
        ⟨fun s hs => by
          rw [hready.kept s hs, List.exists_mem_cons_iff]
          exact or_iff_right fun hequal => hgone ⟨s, hs, hequal⟩, hready.apart⟩
      refine ⟨calls, held', ?_, hlisten, hmem⟩
      rw [pass_old hfirst, hpass]
      rfl
  | @both frold frnew old new hequal _ ih =>
      obtain ⟨-, hlt, hbounded⟩ := hnew.head
      have hstart := start_eq_of_equal hequal
      have hin : frnew.toSection ∈ held :=
        (hready.kept frnew List.mem_cons_self).2 ⟨frold, List.mem_cons_self, hequal⟩
      obtain ⟨calls, held', hpass, hlisten, hmem⟩ := ih hold.tail hnew.tail
        ⟨fun s hs => by
          have hge := hnew.tail.start_le hs
          rw [hready.kept s (List.mem_cons_of_mem _ hs), List.exists_mem_cons_iff]
          refine or_iff_right fun hequal' => ?_
          have hstart' := start_eq_of_equal hequal'
          omega,
        hready.apart_tail hnew⟩
      obtain ⟨log, hboth, hlog⟩ := @FlatRange.Bounded.updateBoth_eq frold frnew hbounded
      refine ⟨.regionNop frnew.toSection :: log ++ calls, held', ?_, ?_, fun t => ?_⟩
      · rw [pass_both hequal, hpass, if_pos rfl, hboth]
        rfl
      · have hnop : listen held (.regionNop frnew.toSection :: log) = some held := by
          rcases hlog with rfl | rfl | rfl <;> simp [listen, ListenerCall.apply, hin]
        rw [listen_append, hnop]
        exact hlisten
      · rw [hmem, List.exists_mem_cons_iff]
        constructor
        · exact fun h => h.imp_right .inr
        · rintro (h | rfl | h)
          · exact .inl h
          · exact .inl hin
          · exact .inr h
  | @new frnew old new hfirst _ ih =>
      obtain ⟨-, hlt, hbounded⟩ := hnew.head
      have hnot : frnew.toSection ∉ held := by
        rw [hready.kept frnew List.mem_cons_self]
        rintro ⟨r, hr, hequal⟩
        have hstart := start_eq_of_equal hequal
        have hlt := lt_of_first hold hfirst hr
        omega
      have hclear : ∀ t ∈ held, frnew.toSection.Apart t := by
        intro t ht
        by_cases hlater : ∃ s ∈ new, s.toSection = t
        · obtain ⟨s, hs, rfl⟩ := hlater
          exact apart_of_stop_le hbounded (hnew.tail.start_le hs)
        · refine hready.apart t ht (fun s hs heq => ?_) frnew List.mem_cons_self
          rcases List.mem_cons.1 hs with rfl | hs
          · exact hnot (heq ▸ ht)
          · exact hlater ⟨s, hs, heq⟩
      have hready' : Ready (insert frnew.toSection held) old new := by
        refine ⟨fun s hs => ?_, fun t ht hlater s hs => ?_⟩
        · have hge := hnew.tail.start_le hs
          have hne : s.toSection ≠ frnew.toSection :=
            toSection_ne (hnew.tail.bounded s hs) hbounded (by omega)
          rw [Finset.mem_insert, or_iff_right hne, hready.kept s (List.mem_cons_of_mem _ hs)]
        · rcases Finset.mem_insert.1 ht with rfl | ht
          · exact (apart_of_stop_le hbounded (hnew.tail.start_le hs)).symm
          · exact hready.apart_tail hnew t ht hlater s hs
      obtain ⟨calls, held', hpass, hlisten, hmem⟩ := ih hold hnew.tail hready'
      refine ⟨.regionAdd frnew.toSection :: calls, held', ?_, ?_, fun t => ?_⟩
      · rw [pass_new hfirst, hpass, if_pos rfl, hbounded.updateRegion_eq]
        rfl
      · rw [listen, List.foldlM_cons, ListenerCall.apply, if_pos hclear]
        exact hlisten
      · rw [hmem, Finset.mem_insert, List.exists_mem_cons_iff, or_assoc, or_left_comm, @eq_comm _ t]

/-! ## Updates -/

theorem Mapped.eq_of_toSection (h : Mapped b view) (hr : r ∈ view) (hs : s ∈ view)
    (heq : r.toSection = s.toSection) : r = s := by
  have hstart : r.addr.start = s.addr.start :=
    not_imp_comm.1 (toSection_ne (h.bounded r hr) (h.bounded s hs)) (not_not_intro heq)
  have hlt : r.addr.start < r.addr.stop := (h.sorted.start_le hr).2
  have hlt' : s.addr.start < s.addr.stop := (h.sorted.start_le hs).2
  exact h.sorted.eq_of_covers hr hs (Int.le_refl _) hlt (Int.le_of_eq hstart.symm) (hstart ▸ hlt')

/-- A listener that holds the sections of the old map holds those of the new one. -/
theorem listen_passes (hold : Mapped b old) (hnew : Mapped c new) :
    ∃ dels adds, addressSpaceUpdateTopologyPass false old new = some dels ∧
      addressSpaceUpdateTopologyPass true old new = some adds ∧
      listen (old.map FlatRange.toSection).toFinset (dels ++ adds) =
        some (new.map FlatRange.toSection).toFinset := by
  have hheld : ∀ r ∈ old, r.toSection ∈ (old.map FlatRange.toSection).toFinset := fun r hr =>
    List.mem_toFinset.2 (List.mem_map_of_mem hr)
  obtain ⟨dels, held, hdel, hlisten, hmem⟩ := listen_delPass (merge old new) hold hnew hheld
  simp only [List.mem_toFinset, List.mem_map] at hmem
  have hstays : ∀ t ∈ held, ∃ s ∈ new, s.toSection = t := by
    intro t ht
    obtain ⟨⟨r, hr, rfl⟩, hkept⟩ := (hmem t).1 ht
    obtain ⟨s, hs, hequal⟩ := hkept r hr rfl
    exact ⟨s, hs, (toSection_eq_of_equal hequal).symm⟩
  have hready : Ready held old new := by
    refine ⟨fun s hs => ⟨fun hin => ?_, ?_⟩, fun t ht hnone => ?_⟩
    · obtain ⟨⟨r, hr, heq⟩, hkept⟩ := (hmem _).1 hin
      obtain ⟨s', hs', hequal⟩ := hkept r hr heq
      have hsame : s' = s :=
        hnew.eq_of_toSection hs' hs ((toSection_eq_of_equal hequal).symm.trans heq)
      exact ⟨r, hr, hsame ▸ hequal⟩
    · rintro ⟨r, hr, hequal⟩
      have heq := toSection_eq_of_equal hequal
      refine (hmem _).2 ⟨⟨r, hr, heq⟩, fun r' hr' heq' => ⟨s, hs, ?_⟩⟩
      rwa [hold.eq_of_toSection hr' hr (heq'.trans heq.symm)]
    · obtain ⟨s, hs, heq⟩ := hstays t ht
      exact absurd heq (hnone s hs)
  obtain ⟨adds, held', hadd, hlisten', hmem'⟩ := listen_addPass (merge old new) hold hnew hready
  refine ⟨dels, adds, hdel, hadd, ?_⟩
  rw [listen_append, hlisten, Option.bind_some, hlisten']
  refine congrArg some (Finset.ext fun t => ?_)
  rw [hmem', List.mem_toFinset, List.mem_map]
  exact or_iff_right_of_imp (hstays t)

/-! ## Maps of trees -/

mutual

/-- What an access finds lies in a region of 64 bits. -/
theorem resolve_offset_lt (region : MemoryRegion) (hsized : region.Sized) {base a : Int}
    {readonly : Bool} {hit : Hit} (hhit : region.resolve base readonly a = some hit) :
    hit.offset < 18446744073709551615 := by
  cases region with
  | container f subregions =>
      obtain ⟨-, hlt, hsubs⟩ := hsized
      rw [MemoryRegion.resolve] at hhit
      split at hhit
      · rename_i hcovers
        rcases Option.or_eq_some_iff.1 hhit with hsub | ⟨-, hself⟩
        · exact resolveFirst_offset_lt subregions hsubs hsub
        · split at hself
          · rename_i hterminates
            obtain rfl := Option.some.inj hself
            have hsize := hlt hterminates
            have hend := hcovers.2.2
            dsimp only
            omega
          · cases hself
      · cases hhit
  | aliasOf f target aliasOffset =>
      rw [MemoryRegion.resolve] at hhit
      split at hhit
      · exact resolve_offset_lt target hsized.2 hhit
      · cases hhit

theorem resolveFirst_offset_lt (subregions : List MemoryRegion) (hsized : allSized subregions)
    {base a : Int} {readonly : Bool} {hit : Hit}
    (hhit : resolveFirst subregions base readonly a = some hit) :
    hit.offset < 18446744073709551615 := by
  cases subregions with
  | nil => cases hhit
  | cons subregion subregions =>
      rcases Option.or_eq_some_iff.1 hhit with hfirst | ⟨-, hrest⟩
      · exact resolve_offset_lt subregion hsized.1 hfirst
      · exact resolveFirst_offset_lt subregions hsized.2 hrest

end

/-- The sections of a new map fail on no assertion. -/
theorem generateMemoryTopology_mapped {region : MemoryRegion} (hsized : region.Sized)
    (hrun : generateMemoryTopology (some region) = some view) : ∃ b, Mapped b view := by
  obtain ⟨view', hrun', ⟨b, hfrom⟩, -, hlookup⟩ := generateMemoryTopology_spec hsized
  obtain rfl : view' = view := Option.some.inj (hrun'.symm.trans hrun)
  refine ⟨b, hfrom, fun r hr => ?_⟩
  have hshown : ∀ a, r.addr.start ≤ a → a < r.addr.stop → region.meaning a = some (r.hit a) :=
    fun a hge hlt => by
      rw [← hlookup]
      exact (lookup_eq_some_iff hfrom).2 ⟨r, hr, hge, hlt, rfl⟩
  have hlt : r.addr.start < r.addr.stop := (hfrom.start_le hr).2
  have hfirst := hshown r.addr.start (Int.le_refl _) hlt
  have hlast := hshown (r.addr.stop - 1) (by omega) (by omega)
  unfold MemoryRegion.meaning at hfirst hlast
  split at hfirst
  · rename_i hstart
    split at hlast
    · have hoffset := resolve_offset_lt region hsized hlast
      simp only [FlatRange.hit] at hoffset
      unfold AddrRange.stop at hlt hoffset
      exact ⟨hstart, by omega, by omega⟩
    · cases hlast
  · cases hfirst

/-- Whatever the trees of regions are, an update takes a listener that holds the sections of the old
map to those of the new one: it is never given a section where it still holds another, and told to
drop or to keep only what it holds. -/
theorem addressSpaceUpdateTopology_listen (root root' : MemoryRegion) (hsized : root.Sized)
    (hsized' : root'.Sized) :
    ∃ currentMap newView calls held held',
      generateMemoryTopology (some root) = some currentMap ∧
      addressSpaceUpdateTopology currentMap (some root') = some (calls, newView) ∧
      generateMemoryTopology (some root') = some newView ∧
      currentMap.sections = some held ∧ newView.sections = some held' ∧
      listen held.toFinset calls = some held'.toFinset := by
  obtain ⟨old, hold, -⟩ := generateMemoryTopology_spec hsized
  obtain ⟨new, hnew, -⟩ := generateMemoryTopology_spec hsized'
  obtain ⟨b, hmapped⟩ := generateMemoryTopology_mapped hsized hold
  obtain ⟨c, hmapped'⟩ := generateMemoryTopology_mapped hsized' hnew
  obtain ⟨dels, adds, hdel, hadd, hlisten⟩ := listen_passes hmapped hmapped'
  refine ⟨old, new, dels ++ adds, _, _, hold, ?_, hnew, sections_eq hmapped.bounded,
    sections_eq hmapped'.bounded, hlisten⟩
  simp only [addressSpaceUpdateTopology, hnew, hdel, hadd, Option.bind_eq_bind, Option.bind_some]

theorem addressSpaceUpdateTopology_listen_overlaid :
    ∃ currentMap newView calls held held',
      generateMemoryTopology (some overlaidWindows) = some currentMap ∧
      addressSpaceUpdateTopology currentMap (some aliasedWindows) = some (calls, newView) ∧
      generateMemoryTopology (some aliasedWindows) = some newView ∧
      currentMap.sections = some held ∧ newView.sections = some held' ∧
      listen held.toFinset calls = some held'.toFinset :=
  addressSpaceUpdateTopology_listen overlaidWindows aliasedWindows overlaidWindows_sized
    aliasedWindows_sized

end Vin64.Vx64
