import Vin64.Vx64.Guest
import Vin64.Vx64.Proofs.Commit
import Mathlib.Data.List.Nodup

/-!
# The map of a stack of windows

An address resolves to the newest window that holds it.  A map of `n` windows has at most `2 * n`
ranges, each of which is a whole number of pages, aligned in its region.
-/

namespace Vin64.Vx64

open Vin64.Lib Vin64.Lib.Ranges

variable {windows : List Window} {w : Window} {view : FlatView} {r : FlatRange} {b : Int} {a : Nat}

/-- A window that `vx64_setup_ram` may be called with. -/
structure Window.Proper (w : Window) : Prop where
  pa : w.pa % 4096 = 0
  size : w.size % 4096 = 0
  pos : 0 < w.size
  stop : w.pa + w.size ≤ 2 ^ 52
  ptr : w.ptr + w.size ≤ 18446744073709551616

def Window.fields (w : Window) : RegionFields :=
  ⟨w.mr, BitVec.ofNat 64 w.pa, w.size, true, true, true, false, 0⟩

def windowTree (windows : List Window) : MemoryRegion :=
  .container ⟨0, 0, 9223372036854775807, true, false, true, false, 0⟩
    (windows.map fun w => .container w.fields [])

def Window.hit (w : Window) (a : Int) : Hit := ⟨w.mr, a - w.pa, 0, true, false⟩

/-! ## What an address resolves to -/

theorem Window.Proper.addr_eq (h : w.Proper) : w.fields.addr.toNat = w.pa := by
  have hstop := h.stop
  exact Nat.mod_eq_of_lt (by omega)

theorem Window.Proper.covers_iff (h : w.Proper) (a : Nat) : w.fields.Covers 0 a ↔ w.Holds a := by
  unfold RegionFields.Covers Window.Holds
  rw [h.addr_eq]
  simp only [Window.fields, true_and]
  omega

theorem Window.Proper.resolve_eq (h : w.Proper) (a : Nat) :
    (MemoryRegion.container w.fields []).resolve 0 false a =
      if w.Holds a then some (w.hit a) else none := by
  rw [MemoryRegion.resolve, resolveFirst, Option.none_or, h.addr_eq]
  refine if_congr (h.covers_iff a) ?_ rfl
  rw [Int.zero_add]
  rfl

theorem resolveFirst_windows (h : ∀ w ∈ windows, w.Proper) (a : Nat) :
    resolveFirst (windows.map fun w => .container w.fields []) 0 false a =
      (windows.find? fun w => w.Holds a).map (·.hit a) := by
  induction windows with
  | nil => rfl
  | cons w windows ih =>
      rw [List.map_cons, resolveFirst, (h w List.mem_cons_self).resolve_eq,
        ih fun v hv => h v (List.mem_cons_of_mem _ hv), List.find?_cons]
      by_cases hw : w.Holds a
      · rw [if_pos hw, decide_eq_true hw]
        rfl
      · rw [if_neg hw, decide_eq_false hw]
        rfl

theorem holds_of_find (hw : windows.find? (fun w => w.Holds a) = some w) : w.Holds a := by
  simpa using List.find?_some hw

theorem find_none_of_le (h : ∀ w ∈ windows, w.Proper) (ha : 2 ^ 52 ≤ a) :
    windows.find? (fun w => w.Holds a) = none := by
  refine List.find?_eq_none.2 fun w hw hholds => ?_
  have hstop := (h w hw).stop
  have hin := (of_decide_eq_true hholds).2
  omega

theorem systemMemory_covers_iff (a : Nat) :
    RegionFields.Covers ⟨0, 0, 9223372036854775807, true, false, true, false, 0⟩ 0 a ↔
      a < 9223372036854775807 := by
  have hzero : (0 : BitVec 64).toNat = 0 := rfl
  unfold RegionFields.Covers
  rw [hzero]
  simp only [true_and]
  omega

theorem windowTree_resolve (h : ∀ w ∈ windows, w.Proper) (a : Nat) :
    (windowTree windows).resolve 0 false a =
      (windows.find? fun w => w.Holds a).map (·.hit a) := by
  rw [windowTree, MemoryRegion.resolve]
  by_cases ha : a < 9223372036854775807
  · rw [if_pos ((systemMemory_covers_iff a).2 ha), if_neg Bool.false_ne_true, Option.or_none]
    exact resolveFirst_windows h a
  · rw [find_none_of_le h (by omega), if_neg fun hcovers => ha ((systemMemory_covers_iff a).1 hcovers)]
    rfl

theorem windowTree_meaning (h : ∀ w ∈ windows, w.Proper) (a : Int) :
    (windowTree windows).meaning a =
      if 0 ≤ a then (windows.find? fun w => w.Holds a.toNat).map (·.hit a) else none := by
  unfold MemoryRegion.meaning
  by_cases hpos : 0 ≤ a
  · obtain ⟨n, rfl⟩ := Int.eq_ofNat_of_zero_le hpos
    rw [if_pos hpos, windowTree_resolve h, Int.toNat_natCast]
    by_cases hlt : (n : Int) < 18446744073709551616
    · rw [if_pos ⟨hpos, hlt⟩]
    · rw [if_neg fun hc => hlt hc.2, find_none_of_le h (by omega)]
      rfl
  · rw [if_neg fun hc => hpos hc.1, if_neg hpos]

theorem windowTree_end (h : ∀ w ∈ windows, w.Proper) (a : Int) (ha : 2 ^ 52 ≤ a) :
    (windowTree windows).meaning a = none := by
  rw [windowTree_meaning h, if_pos (by omega), find_none_of_le h (by omega)]
  rfl

theorem windowTree_sized (windows : List Window) (h : ∀ w ∈ windows, w.Proper) :
    (windowTree windows).Sized := by
  have hall : allSized (windows.map fun w => .container w.fields []) := by
    induction windows with
    | nil => trivial
    | cons w windows ih =>
        have hstop := (h w List.mem_cons_self).stop
        refine ⟨⟨Int.natCast_nonneg _, fun _ => ?_, trivial⟩,
          ih fun v hv => h v (List.mem_cons_of_mem _ hv)⟩
        show (w.size : Int) < 18446744073709551616
        omega
  exact ⟨by decide, fun hc => absurd hc Bool.false_ne_true, hall⟩

/-! ## Pages -/

theorem Window.Proper.holds_page (h : w.Proper) {c : Nat} (hpage : c / 4096 = a / 4096) :
    w.Holds c ↔ w.Holds a := by
  have hpa := h.pa
  have hsize := h.size
  unfold Window.Holds
  omega

theorem find_congr {c : Nat} (h : ∀ w ∈ windows, w.Holds c ↔ w.Holds a) :
    (windows.find? fun w => w.Holds c) = windows.find? fun w => w.Holds a := by
  induction windows with
  | nil => rfl
  | cons w windows ih =>
      rw [List.find?_cons, List.find?_cons, ih fun v hv => h v (List.mem_cons_of_mem _ hv),
        decide_eq_decide.2 (h w List.mem_cons_self)]

theorem find_page (h : ∀ w ∈ windows, w.Proper) {c : Nat} (hpage : c / 4096 = a / 4096) :
    (windows.find? fun w => w.Holds c) = windows.find? fun w => w.Holds a :=
  find_congr fun w hw => (h w hw).holds_page hpage

/-- A page belongs to one window. -/
theorem windowTree_wholePage (h : ∀ w ∈ windows, w.Proper)
    (hw : windows.find? (fun w => w.Holds a) = some w) :
    (windowTree windows).WholePage a (w.hit a) := by
  have hproper := h w (List.mem_of_find?_eq_some hw)
  have hholds := holds_of_find hw
  have hpa := hproper.pa
  unfold Window.Holds at hholds
  constructor
  · simp only [Window.hit]
    omega
  · intro c hc
    rw [windowTree_resolve h, find_page h hc, hw]
    simp only [Option.map_some, Window.hit, Option.some.injEq, Hit.mk.injEq, and_true, true_and]
    omega

/-! ## Ranges -/

/-- The map of a stack of windows. -/
structure WindowMap (windows : List Window) (b : Int) (view : FlatView) : Prop where
  proper : ∀ w ∈ windows, w.Proper
  mapped : Mapped b view
  unmerged : Unmerged view
  lookup : view.lookup = (windowTree windows).meaning

/-- Every address of a range is in the window that it shows. -/
theorem WindowMap.shows (h : WindowMap windows b view) (hr : r ∈ view) (hge : r.addr.start ≤ a)
    (hlt : (a : Int) < r.addr.stop) :
    ∃ w, windows.find? (fun w => w.Holds a) = some w ∧ r.hit a = w.hit a := by
  have hlook : view.lookup a = some (r.hit a) :=
    (lookup_eq_some_iff h.mapped.sorted).2 ⟨r, hr, hge, hlt, rfl⟩
  rw [h.lookup, windowTree_meaning h.proper, if_pos (Int.natCast_nonneg a), Int.toNat_natCast] at hlook
  obtain ⟨w, hw, hhit⟩ := Option.map_eq_some_iff.1 hlook
  exact ⟨w, hw, hhit.symm⟩

theorem WindowMap.lt (h : WindowMap windows b view) (hr : r ∈ view) (hge : r.addr.start ≤ a)
    (hlt : (a : Int) < r.addr.stop) : a < 2 ^ 52 := by
  obtain ⟨w, hw, -⟩ := h.shows hr hge hlt
  have hholds := holds_of_find hw
  have hstop := (h.proper w (List.mem_of_find?_eq_some hw)).stop
  unfold Window.Holds at hholds
  omega

/-- A range holds all of the page of each of its addresses. -/
theorem WindowMap.whole (h : WindowMap windows b view) (hr : r ∈ view) (hge : r.addr.start ≤ a)
    (hlt : (a : Int) < r.addr.stop) : r.toSection.Whole a := by
  obtain ⟨w, hw, hhit⟩ := h.shows hr hge hlt
  rw [whole_iff_wholePage h.mapped h.unmerged h.lookup hr (h.lt hr hge hlt) hge hlt, hhit]
  exact windowTree_wholePage h.proper hw

/-- The ranges are made of pages, which are aligned in their regions. -/
theorem WindowMap.aligned (h : WindowMap windows b view) (hr : r ∈ view) :
    r.toSection.offsetWithinAddressSpace % 4096 = 0 ∧ r.toSection.size % 4096 = 0 ∧
      r.toSection.offsetWithinRegion % 4096 = 0 := by
  obtain ⟨⟨hstart, -⟩, hsize, -⟩ := h.mapped.bounded r hr
  have hrange := (h.mapped.sorted.start_le hr).2
  unfold AddrRange.stop at hrange
  obtain ⟨n, hn⟩ := Int.eq_ofNat_of_zero_le hstart
  obtain ⟨k, hk⟩ := Int.eq_ofNat_of_zero_le hsize
  have hoffset : r.toSection.offsetWithinAddressSpace = n := by
    simp only [FlatRange.toSection, hn, Int.toNat_natCast]
  have hlength : r.toSection.size = k := by
    simp only [FlatRange.toSection, hk, Int.toNat_natCast]
  have hfirst := h.whole (a := n) hr (by omega) (by unfold AddrRange.stop; omega)
  have hlast := h.whole (a := n + k - 1) hr (by omega) (by unfold AddrRange.stop; omega)
  unfold MemoryRegionSection.Whole at hfirst hlast
  rw [hoffset, hlength] at hfirst hlast
  rw [hoffset, hlength]
  omega

/-- A range starts where some window starts or ends. -/
theorem WindowMap.start_mem (h : WindowMap windows b view) (hr : r ∈ view) :
    r.addr.start.toNat ∈ windows.map (·.pa) ++ windows.map fun w => w.pa + w.size := by
  obtain ⟨⟨hstart, -⟩, -⟩ := h.mapped.bounded r hr
  have hrange := (h.mapped.sorted.start_le hr).2
  obtain ⟨n, hn⟩ := Int.eq_ofNat_of_zero_le hstart
  rw [hn, Int.toNat_natCast]
  refine Classical.byContradiction fun hnot => ?_
  have hinside : ∀ w ∈ windows, n ≠ w.pa ∧ n ≠ w.pa + w.size := fun w hw =>
    ⟨fun heq => hnot (List.mem_append_left _ (List.mem_map.2 ⟨w, hw, heq.symm⟩)),
      fun heq => hnot (List.mem_append_right _ (List.mem_map.2 ⟨w, hw, heq.symm⟩))⟩
  obtain ⟨w, hw, hhit⟩ := h.shows (a := n) hr (by omega) (by omega)
  have hholds := holds_of_find hw
  have hmem := List.mem_of_find?_eq_some hw
  have hpos : 0 < n := by
    have hne := (hinside w hmem).1
    unfold Window.Holds at hholds
    omega
  -- the address before it is in the same window
  have hsame : windows.find? (fun w => w.Holds (n - 1)) = some w := by
    rw [← hw]
    refine find_congr fun v hv => ?_
    have hne := hinside v hv
    unfold Window.Holds
    omega
  have hall : ∀ c : Int, (n : Int) - 1 ≤ c → c < n + 1 → view.lookup c = some (r.hit c) := by
    intro c hge hlt
    obtain rfl | rfl : c = (n - 1 : Nat) ∨ c = n := by omega
    · rw [h.lookup, windowTree_meaning h.proper, if_pos (Int.natCast_nonneg _), Int.toNat_natCast,
        hsame, hit_shift r n, hhit]
      simp only [Option.map_some, Window.hit, Option.some.injEq, Hit.mk.injEq, and_true, true_and]
      omega
    · exact (lookup_eq_some_iff h.mapped.sorted).2 ⟨r, hr, by omega, by omega, rfl⟩
  have hgoes := h.unmerged.holds hit_rigid h.mapped.sorted hr (by omega) (by omega) hall
  omega

theorem WindowMap.length_le (h : WindowMap windows b view) : view.length ≤ 2 * windows.length := by
  have hnodup : (view.map fun r => r.addr.start.toNat).Nodup := by
    refine List.pairwise_map.2 (h.mapped.sorted.pairwise.imp_of_mem fun {r s} hr hs hle heq => ?_)
    have hstart := (h.mapped.bounded r hr).start.1
    have hrange := (h.mapped.sorted.start_le hr).2
    omega
  have hsub := (hnodup.subperm fun n hn => by
    obtain ⟨r, hr, rfl⟩ := List.mem_map.1 hn
    exact h.start_mem hr).length_le
  rw [List.length_map, List.length_append, List.length_map, List.length_map] at hsub
  omega

/-- Each range takes three calls at most. -/
theorem WindowMap.pieces_le (h : WindowMap windows b view) : view.pieces ≤ 6 * windows.length := by
  have hlength := h.length_le
  have hpieces : ∀ rest : FlatView, (∀ r ∈ rest, r ∈ view) → rest.pieces = 3 * rest.length := by
    intro rest hrest
    induction rest with
    | nil => rfl
    | cons r rest ih =>
        obtain ⟨haddr, -, hoffset⟩ := h.aligned (hrest r List.mem_cons_self)
        have hone : sectionPieces r.toSection = 3 := if_pos (hoffset.trans haddr.symm)
        rw [FlatView.pieces, List.map_cons, List.sum_cons, hone, List.length_cons]
        have hmore := ih fun s hs => hrest s (List.mem_cons_of_mem _ hs)
        rw [FlatView.pieces] at hmore
        omega
  have htotal := hpieces view fun r hr => hr
  omega

/-! ## The dispatch -/

/-- No page has a subpage, and nothing is read-only. -/
structure Plain (d : AddressSpaceDispatch) : Prop where
  subpages : d.subpages = []
  readonly : ∀ s ∈ d.physSections, s.readonly = false

variable {d d' : AddressSpaceDispatch} {s : MemoryRegionSection} {isRam : Nat → Bool}

theorem memBegin_plain (d : AddressSpaceDispatch) : Plain d.memBegin := by
  refine ⟨rfl, fun s hs => ?_⟩
  obtain ⟨mr, -, rfl⟩ := List.mem_map.1 hs
  rfl

theorem Plain.registerMultipage (h : Plain d) (hs : s.readonly = false)
    (hrun : registerMultipage d s = some d') : Plain d' := by
  rw [Vx64.registerMultipage, AddressSpaceDispatch.physSectionAdd] at hrun
  dsimp only at hrun
  by_cases hzero : s.size = 0
  · rw [if_pos hzero] at hrun
    cases hrun
  · rw [if_neg hzero] at hrun
    obtain ⟨m, -, rfl⟩ := Option.map_eq_some_iff.1 hrun
    refine ⟨h.subpages, fun t ht => ?_⟩
    rcases List.mem_append.1 ht with ht | ht
    · exact h.readonly t ht
    · exact List.mem_singleton.1 ht ▸ hs

/-- A section of whole pages, aligned in its region, is mapped at once. -/
theorem memAdd_of_pages (haddr : s.offsetWithinAddressSpace % 4096 = 0) (hsize : s.size % 4096 = 0)
    (hoffset : s.offsetWithinRegion % 4096 = 0) (hpos : 0 < s.size)
    (hrun : memAdd isRam d s = some d') : registerMultipage d s = some d' := by
  have hall : s.size / 4096 * 4096 = s.size := by omega
  rw [memAdd, if_neg (by omega), memAddPages, if_pos (by omega), if_neg (by omega), hall] at hrun
  obtain ⟨d₁, hregister, hrest⟩ := Option.bind_eq_some_iff.1 hrun
  have hnone : (s.skip s.size).size = 0 := Nat.sub_self _
  rw [memAddPages, hnone, if_neg (by omega), if_neg (by omega)] at hrest
  rw [hregister, hrest]

theorem WindowMap.plain (h : WindowMap windows b view) (hd : Plain d) {rest : FlatView}
    (hrest : ∀ r ∈ rest, r ∈ view)
    (hrun : (rest.map FlatRange.toSection).foldlM (memAdd isRam) d = some d') : Plain d' := by
  induction rest generalizing d with
  | nil => exact Option.some.inj hrun ▸ hd
  | cons r rest ih =>
      have hr := hrest r List.mem_cons_self
      rw [List.map_cons, List.foldlM_cons] at hrun
      obtain ⟨d₁, hadd, hrun⟩ := Option.bind_eq_some_iff.1 hrun
      obtain ⟨haddr, hsize, hoffset⟩ := h.aligned hr
      obtain ⟨⟨hstart, -⟩, hlength, -⟩ := h.mapped.bounded r hr
      have hrange := (h.mapped.sorted.start_le hr).2
      obtain ⟨n, hn⟩ := Int.eq_ofNat_of_zero_le hstart
      have hpos : 0 < r.toSection.size := by
        unfold AddrRange.stop at hrange
        simp only [FlatRange.toSection]
        omega
      obtain ⟨w, -, hhit⟩ := h.shows (a := n) hr (by omega) (by omega)
      have hreadonly : r.toSection.readonly = false := congrArg Hit.readonly hhit
      exact ih (hd.registerMultipage hreadonly (memAdd_of_pages haddr hsize hoffset hpos hadd))
        (fun s hs => hrest s (List.mem_cons_of_mem _ hs)) hrun

/-- What an access to a guest address finds. -/
structure Serves (d : AddressSpaceDispatch) (windows : List Window) : Prop where
  inside : ∀ a w, windows.find? (fun w => w.Holds a) = some w → ∃ s,
    d.pageFind (a / 4096) = some s ∧ s.mr = .region w.mr ∧
      memoryRegionSectionAddr s a = (a : Int) - w.pa ∧ s.readonly = false
  outside : ∀ a, a < 2 ^ 52 → windows.find? (fun w => w.Holds a) = none → ∃ s,
    d.pageFind (a / 4096) = some s ∧ s.mr = .ioMemUnassigned

theorem Plain.pageFind (h : Plain d) (hinv : d.Inv none) (ha : a < 2 ^ 52) :
    ∃ s, d.pageFind (a / 4096) = some s ∧ s.readonly = false ∧ d.mapped a = s.shown a := by
  obtain ⟨s, hs, hmr | ⟨k, mmio, hsub, -⟩⟩ := hinv.page (a / 4096) (page_lt ha)
  · exact ⟨s, hs, h.readonly s (List.mem_of_getElem? hs), mapped_of_page hs hmr⟩
  · have hnone := hsub.subpage
    rw [h.subpages] at hnone
    cases hnone

/-- The calls of an update add the sections of the new map. -/
theorem addressSpaceUpdateTopology_added {root : Option MemoryRegion} {old new : FlatView} {c : Int}
    {calls : List ListenerCall} (hold : Mapped b old) (hnew : Mapped c new)
    (hrun : addressSpaceUpdateTopology old root = some (calls, new)) :
    calls.filterMap ListenerCall.added = new.map FlatRange.toSection := by
  unfold addressSpaceUpdateTopology at hrun
  obtain ⟨view, -, hrun⟩ := Option.bind_eq_some_iff.1 hrun
  obtain ⟨dels, hdel, hrun⟩ := Option.bind_eq_some_iff.1 hrun
  obtain ⟨adds, hadd, hrun⟩ := Option.bind_eq_some_iff.1 hrun
  obtain ⟨rfl, rfl⟩ := Prod.mk.inj (Option.some.inj hrun)
  rw [List.filterMap_append, delPass_added (merge old view) hold.bounded hdel,
    addPass_added (merge old view) hnew.bounded hadd, List.nil_append]

/-- After a commit, every guest address is served from the newest window that holds it. -/
theorem commit_spec {m : Machine} (hproper : ∀ w ∈ windows, w.Proper)
    (hfields : m.subregions.map (·.fields) = windows.map Window.fields)
    (hcount : windows.length ≤ 780) (hmap : ∃ b, Mapped b m.currentMap) :
    ∃ newView d', m.memoryRegionTransactionCommit =
        some { m with currentMap := newView, dispatch := d' } ∧
      (∃ c, Mapped c newView) ∧ Serves d' windows := by
  obtain ⟨b, hold⟩ := hmap
  have htree : systemMemory m.subregions = windowTree windows := by
    have hregions : (m.subregions.map fun r => MemoryRegion.container r.fields []) =
        (m.subregions.map (·.fields)).map (MemoryRegion.container · []) := by
      rw [List.map_map]
      rfl
    rw [systemMemory, windowTree, hregions, hfields, List.map_map]
    rfl
  have hsized := windowTree_sized windows hproper
  obtain ⟨view, hview, -, hunmerged, hlookup⟩ := generateMemoryTopology_spec hsized
  obtain ⟨c, hmapped⟩ := generateMemoryTopology_mapped hsized hview
  have hwindows : WindowMap windows c view := ⟨hproper, hmapped, hunmerged, hlookup⟩
  have hpieces := hwindows.pieces_le
  obtain ⟨calls, d', hcalls, hupdate, hinv, hnone, hsome⟩ := @update_spec m.dispatch
    (fun _ => true) m.currentMap view b (windowTree windows) hsized hview hold
    (windowTree_end hproper) (by omega)
  have hplain : Plain d' := by
    rw [AddressSpaceDispatch.update, foldlM_call,
      addressSpaceUpdateTopology_added hold hmapped hcalls] at hupdate
    exact hwindows.plain (memBegin_plain _) (fun r hr => hr) hupdate
  refine ⟨view, d', ?_, ⟨c, hmapped⟩, fun a w hw => ?_, fun a ha hout => ?_⟩
  · rw [Machine.memoryRegionTransactionCommit, htree, hcalls]
    simp only [Option.bind_eq_bind, Option.bind_some, hupdate]
  · have ha : a < 2 ^ 52 := by
      refine Nat.not_le.1 fun hle => ?_
      rw [find_none_of_le hproper hle] at hw
      cases hw
    obtain ⟨s, hs, hreadonly, hshown⟩ := hplain.pageFind hinv ha
    have hmappedTo := (hsome a (w.hit a) ha (by rw [windowTree_resolve hproper, hw]; rfl)).1
      (.inr (windowTree_wholePage hproper hw))
    rw [hshown] at hmappedTo
    unfold MemoryRegionSection.shown at hmappedTo
    split at hmappedTo
    · cases hmappedTo
    · obtain ⟨hmr, haddr⟩ := Prod.mk.inj (Option.some.inj hmappedTo)
      exact ⟨s, hs, hmr, haddr, hreadonly⟩
  · obtain ⟨s, hs, -, hshown⟩ := hplain.pageFind hinv ha
    have hunmapped := hnone a ha (by rw [windowTree_resolve hproper, hout]; rfl)
    rw [hshown, shown_eq_none_iff] at hunmapped
    exact ⟨s, hs, hunmapped⟩

end Vin64.Vx64
