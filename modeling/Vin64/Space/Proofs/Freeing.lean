import Vin64.Space.Contracts
import Vin64.Space.Proofs.Sections

/-!
# Freeing sections

A region behind the first one cannot be freed: with nothing left behind it, the second loop of
`freeSectionAddress` follows its null `_next`.  The first region can, and all others are merged
into it, whatever their state.
-/

namespace Vin64.Space

open Vin64.Utils Vin64.Utils.Dllist Vin64.Lib AddressSpace

/-! ## Freeing one section -/

namespace SpaceInv

variable {room : Nat} {l : AddressSpace} {es xs ys : List (Entry VMRegion)} {e : Entry VMRegion}

/-- Regions behind another one start behind it. -/
theorem base_le (h : SpaceInv room l (xs ++ e :: ys)) {y : Entry VMRegion} (hy : y ∈ ys) :
    e.val.base ≤ y.val.base := by
  have htiles := h.tiles
  simp only [List.map_append, List.map_cons] at htiles
  have hle : e.val.base + e.val.size ≤ y.val.base := htiles.stop_le (List.mem_map_of_mem hy)
  omega

theorem findSectionLoop_none (h : SpaceInv room l (xs ++ ys)) {base fuel : Nat}
    (hn : findSectionLoop l base true fuel (ptrTo ys none) = some none) :
    ∀ y ∈ ys, y.val.base ≠ base := by
  induction ys generalizing xs fuel with
  | nil => simp
  | cons y ys ih =>
      cases fuel with
      | zero => cases hn
      | succ fuel =>
          rw [h.findSectionLoop_cons] at hn
          split_ifs at hn with hgt hne
          · intro z hz
            rcases List.mem_cons.1 hz with rfl | hz
            · omega
            · have := h.base_le hz
              omega
          · have hrest := @ih (xs ++ [y]) (by simpa using h) fuel hn
            intro z hz
            rcases List.mem_cons.1 hz with rfl | hz
            · exact hne
            · exact hrest z hz
          · cases hn

/-- Where the search finds no region there is none. -/
theorem findSectionAddress_none (h : SpaceInv room l es) {base : Nat}
    (hn : l.findSectionAddress base true = some none) : ∀ e ∈ es, e.val.base ≠ base := by
  refine @findSectionLoop_none room l [] es h base (l.fresh + 1) ?_
  rw [← h.layout.first]
  exact hn

end SpaceInv

/-- Freeing a base faults when the search finds a region behind the first one. -/
theorem LinkInv.freeSectionAddress_behind {l : AddressSpace} {e : Entry VMRegion}
    {es : List (Entry VMRegion)} (h : LinkInv l (e :: es)) {base a : Nat}
    (hsize : ∀ y ∈ es, y.val.size < 2 ^ 64) (ha : base &&& (VMBLOCK_AT_ALIGN - 1) = 0)
    (hfind : l.findSectionAddress base true = some (some a)) (hne : e.val.base ≠ base) :
    l.freeSectionAddress base = none := by
  obtain ⟨p, hp, hmem⟩ := h.findSectionAddress_spec base
  obtain rfl : p = some a := Option.some_inj.1 (hp.symm.trans hfind)
  obtain ⟨y, hy, rfl, hbase⟩ := hmem a rfl
  rcases List.mem_cons.1 hy with rfl | hy
  · exact absurd hbase hne
  · obtain ⟨xs, ys, rfl⟩ := List.append_of_mem hy
    have hfree := @LinkInv.freeSection_behind l (e :: xs) y ys h (by simp)
      (hsize y (by simp))
    simp only [freeSectionAddress, hfind, Option.bind_eq_bind, Option.bind_some]
    rw [if_neg (not_not_intro ha), if_neg (by simp)]
    exact hfree

theorem SpaceInv.freeSectionAddress_behind {room : Nat} {l : AddressSpace}
    {es : List (Entry VMRegion)} (h : SpaceInv room l es) {base a : Nat}
    (ha : base &&& (VMBLOCK_AT_ALIGN - 1) = 0)
    (hfind : l.findSectionAddress base true = some (some a)) (hne : base ≠ 0) :
    l.freeSectionAddress base = none := by
  obtain ⟨e, ys, rfl⟩ := List.exists_cons_of_ne_nil h.ne_nil
  have hfirst : e.val.base = 0 := h.tiles.1
  refine h.toLinkInv.freeSectionAddress_behind (fun y hy => ?_) ha hfind ?_
  · have := h.stop_le (List.mem_cons_of_mem e hy)
    have := h.room_lt
    omega
  · rw [hfirst]
    exact hne.symm

namespace Sections

variable {room : Nat} {s s₀ : Sections} {calls : List SectionCall}

/-- `freeSectionAddress` keeps its promise exactly under `FreeOk`, in every state that calls
meeting `LiveOk` reach. -/
theorem freesLive_iff (hlt : room < 2 ^ 64) (hstart : start room = some s₀)
    (hrun : Run (When LiveOk fun s c t => s.step c = some t) s₀ calls s) (base : Nat) :
    s.FreesLive base ↔ s.FreeOk base := by
  obtain ⟨es, h, hlive⟩ := LiveInv.run hlt hstart hrun
  have hlist : s.space.toList = es.map Entry.val := h.layout.toList
  have hat : s.LiveAt base → ∃ e ∈ es, e.val.base = base := by
    rintro ⟨a, ha, r, hr, rfl⟩
    obtain ⟨e, he, rfl, -⟩ := (hlive a).1 ha
    obtain rfl : e.val = r := by simpa [region_eq h he] using hr
    exact ⟨e, he, rfl⟩
  -- a call that frees nothing
  have hnothing : ∀ rc : Int, rc < 0 → s.space.freeSectionAddress base = some (rc, s.space) →
      (s.FreesLive base ↔ ¬ s.LiveAt base) := by
    intro rc hrc hfree
    constructor
    · rintro ⟨rc', l, hfree', hzero, -⟩ hl
      obtain ⟨rfl, -⟩ : rc = rc' ∧ s.space = l := by simpa [hfree] using hfree'
      have := hzero.2 hl
      omega
    · intro hl
      exact ⟨rc, s.space, hfree, ⟨fun hz => by omega, fun h => absurd h hl⟩, fun _ => ⟨hrc, rfl⟩⟩
  by_cases ha : base &&& (VMBLOCK_AT_ALIGN - 1) = 0
  · obtain ⟨p, hp, hfound⟩ := h.findSectionAddress_spec base
    cases p with
    | none =>
        have hnone := h.findSectionAddress_none hp
        have hdead : ¬ s.LiveAt base := by
          intro hl
          obtain ⟨e, he, hbase⟩ := hat hl
          exact hnone e he hbase
        have hfree : s.space.freeSectionAddress base = some (-2, s.space) := by
          simp only [freeSectionAddress, hp, Option.bind_eq_bind, Option.bind_some]
          rw [if_neg (not_not_intro ha), if_pos trivial]
          rfl
        refine (hnothing (-2) (by decide) hfree).trans ⟨fun _ => Or.inr ⟨hdead, Or.inr ?_⟩,
          fun _ => hdead⟩
        rw [hlist]
        intro r hr
        obtain ⟨e, he, rfl⟩ := List.mem_map.1 hr
        exact hnone e he
    | some a =>
        obtain ⟨e, ys, rfl⟩ := List.exists_cons_of_ne_nil h.ne_nil
        have hsome : ¬ (base &&& (VMBLOCK_AT_ALIGN - 1) ≠ 0 ∨
            ∀ r ∈ s.space.toList, r.base ≠ base) := by
          rintro (hb | hb)
          · exact hb ha
          · obtain ⟨y, hy, -, hbase⟩ := hfound a rfl
            exact hb y.val (by rw [hlist]; exact List.mem_map_of_mem hy) hbase
        by_cases hz : base = 0
        · subst hz
          obtain ⟨l', hl', -⟩ := h.freeSection_first
          have hfree : s.space.freeSectionAddress 0 = some (0, l') := by
            simp only [freeSectionAddress, h.toLinkInv.findSectionAddress_first h.tiles.1,
              Option.bind_eq_bind, Option.bind_some]
            rw [if_neg (by decide), if_neg (by simp)]
            exact hl'
          constructor
          · rintro ⟨rc, l, hrc, hzero, -⟩
            obtain ⟨rfl, -⟩ : 0 = rc ∧ l' = l := by simpa [hfree] using hrc
            exact Or.inl ⟨hzero.1 rfl, rfl⟩
          · rintro (⟨hl, -⟩ | ⟨-, hno⟩)
            · exact ⟨0, l', hfree, ⟨fun _ => hl, fun _ => rfl⟩, fun hne => absurd rfl hne⟩
            · exact absurd hno hsome
        · have hfault := h.freeSectionAddress_behind ha hp hz
          constructor
          · rintro ⟨rc, l, hrc, -⟩
            rw [hfault] at hrc
            cases hrc
          · rintro (⟨-, hb⟩ | ⟨-, hno⟩)
            · exact absurd hb hz
            · exact absurd hno hsome
  · have hfree : s.space.freeSectionAddress base = some (-1, s.space) := by
      simp only [freeSectionAddress]
      rw [if_pos ha]
      rfl
    refine (hnothing (-1) (by decide) hfree).trans ⟨fun hl => Or.inr ⟨hl, Or.inl ha⟩, ?_⟩
    rintro (⟨-, rfl⟩ | ⟨hl, -⟩)
    · exact absurd (by decide) ha
    · exact hl

/-- After one allocation its region can be freed. -/
theorem freesLive_first : ∃ s : Sections, s.live = [0] ∧ s.FreesLive 0 := by
  have heval : ((start 0x100000).bind fun s => s.step (.alloc 0 0x1000 false)).any
      (fun s => s.live = [0] ∧ (s.region 0).any fun r => r.base = 0) = true := by decide +kernel
  obtain ⟨s, hs, hs'⟩ := (Option.any_eq_true _ _).1 heval
  obtain ⟨s₀, hs₀, hstep⟩ := Option.bind_eq_some_iff.1 hs
  obtain ⟨hlive, hregion⟩ : s.live = [0] ∧ (s.region 0).any (fun r => r.base = 0) = true := by
    simpa using hs'
  obtain ⟨r, hr, hbase⟩ := (Option.any_eq_true _ _).1 hregion
  refine ⟨s, hlive, (freesLive_iff (by decide) hs₀ (Run.snoc Run.nil ⟨?_, hstep⟩) 0).2
    (Or.inl ⟨⟨0, by simp [hlive], r, hr, by simpa using hbase⟩, rfl⟩)⟩
  exact fun _ _ _ hne => absurd rfl hne

/-- Freeing the second of two regions follows the null `_next` of the last one. -/
theorem free_second_faults :
    ¬ ∀ (room : Nat) (s₀ s : Sections) (calls : List SectionCall) (base : Nat), 0 < room →
      room % 0x10000 = 0 → room < 2 ^ 64 → start room = some s₀ →
      Run (fun s c t => s.step c = some t) s₀ calls s → s.FreesLive base := by
  intro hall
  have heval : ((start 0x100000).bind fun s => runAll step s
      [.alloc 0 0x10000 false, .alloc 0 0x10000 false]).any
      (fun s => (s.space.freeSectionAddress 0x10000).isNone) = true := by decide +kernel
  obtain ⟨s, hs, hfault⟩ := (Option.any_eq_true _ _).1 heval
  obtain ⟨s₀, hs₀, hcalls⟩ := Option.bind_eq_some_iff.1 hs
  obtain ⟨rc, l, hfree, -⟩ := hall 0x100000 s₀ s _ 0x10000 (by decide) (by decide) (by decide) hs₀
    (run_of_runAll (Run.nil (s := s₀)) hcalls)
  rw [hfree] at hfault
  cases hfault

end Sections

/-! ## Freeing all sections -/

/-- The sizes of the regions add up to the room, in 64 bits, and the first one starts at 0. -/
structure Sized (room : Nat) (es : List (Entry VMRegion)) : Prop where
  total : Extent.total (es.map Entry.val) % 2 ^ 64 = room
  size_lt : ∀ e ∈ es, e.val.size < 2 ^ 64
  first : ∀ e ∈ es.head?, e.val.base = 0

/-- The pieces of a region whose cuts may wrap. -/
structure Parts (e : Entry VMRegion) (k : Carving) : Prop where
  total : Extent.total (k.list.map Entry.val) % 2 ^ 64 = e.val.size % 2 ^ 64
  size_lt : ∀ f ∈ k.list, f.val.size < 2 ^ 64
  first : ∀ f ∈ k.list.head?, f.val.base = e.val.base
  free : ∀ f ∈ k.list, f.val.attr = freeAttr

namespace Parts

variable {e : Entry VMRegion} {k : Carving} {w : Nat}

theorem keepLow (h : Parts e k) (hw : w < 2 ^ 64) (c : Nat) : Parts e (k.keepLow w c) := by
  obtain ⟨htotal, hsize, hfirst, hfree⟩ := h
  simp only [Carving.list] at htotal hsize hfirst hfree
  have hregion := hsize k.region (by simp)
  have hsub : sub64 k.region.val.size w < 2 ^ 64 := Nat.mod_lt _ (by decide)
  have hsum : (w + sub64 k.region.val.size w) % 2 ^ 64 = k.region.val.size := by
    unfold sub64
    omega
  refine ⟨?_, ?_, ?_, ?_⟩
  · simp only [Carving.list, Carving.keepLow, List.map_append, List.map_cons, Extent.total_append,
      Extent.total_cons] at htotal ⊢
    simp only [show Extent.size (low k.region w).val = w from rfl,
      show Extent.size (high k.region w c).val = sub64 k.region.val.size w from rfl,
      show Extent.size k.region.val = k.region.val.size from rfl] at htotal ⊢
    omega
  · intro f hf
    simp only [Carving.list, Carving.keepLow, List.mem_append, List.mem_cons] at hf
    rcases hf with hf | rfl | rfl | hf
    · exact hsize f (by simp [hf])
    · exact hw
    · exact hsub
    · exact hsize f (by simp [hf])
  · intro f hf
    cases hk : k.front with
    | nil =>
        obtain rfl : low k.region w = f := by simpa [Carving.list, Carving.keepLow, hk] using hf
        exact hfirst k.region (by simp [hk])
    | cons g front =>
        obtain rfl : g = f := by simpa [Carving.list, Carving.keepLow, hk] using hf
        exact hfirst g (by simp [hk])
  · intro f hf
    simp only [Carving.list, Carving.keepLow, List.mem_append, List.mem_cons] at hf
    rcases hf with hf | rfl | rfl | hf
    · exact hfree f (by simp [hf])
    · exact hfree k.region (by simp)
    · rfl
    · exact hfree f (by simp [hf])

theorem keepHigh (h : Parts e k) (hw : w < 2 ^ 64) (c : Nat) : Parts e (k.keepHigh w c) := by
  have hlist : (k.keepHigh w c).list = (k.keepLow w c).list := by
    simp [Carving.list, Carving.keepHigh, Carving.keepLow]
  obtain ⟨htotal, hsize, hfirst, hfree⟩ := h.keepLow hw c
  exact ⟨by rw [hlist]; exact htotal, by rw [hlist]; exact hsize, by rw [hlist]; exact hfirst,
    by rw [hlist]; exact hfree⟩

theorem carved (hfree : e.val.attr = freeAttr) (hsize : e.val.size < 2 ^ 64)
    {base size required : Nat} {top : Bool} {c₁ c₂ c₃ : Nat} (hs : size < 2 ^ 64)
    (hr : required < 2 ^ 64) : Parts e (Carving.carved e base size required top c₁ c₂ c₃) := by
  refine Carving.carved_of hs hr ⟨rfl, ?_, ?_, ?_⟩ (fun k w c hw h => h.keepLow hw c)
    fun k w c hw h => h.keepHigh hw c
  · simpa [Carving.list] using hsize
  · simp [Carving.list]
  · simpa [Carving.list] using hfree

end Parts

namespace Sized

variable {room : Nat} {l l' : AddressSpace} {es xs ys : List (Entry VMRegion)}
  {e : Entry VMRegion} {k : Carving}

/-- Replacing a region by its pieces. -/
theorem replace (h : Sized room (xs ++ e :: ys)) (hk : Parts e k) :
    Sized room (xs ++ (k.list ++ ys)) := by
  obtain ⟨htotal, hsize, hfirst⟩ := h
  have hktotal := hk.total
  refine ⟨?_, ?_, ?_⟩
  · simp only [List.map_append, List.map_cons, Extent.total_append, Extent.total_cons] at htotal ⊢
    simp only [show Extent.size e.val = e.val.size from rfl] at htotal
    omega
  · intro f hf
    simp only [List.mem_append] at hf
    rcases hf with hf | hf | hf
    · exact hsize f (by simp [hf])
    · exact hk.size_lt f hf
    · exact hsize f (by simp [hf])
  · intro f hf
    cases xs with
    | nil =>
        have hf' : f ∈ k.list.head? := by
          cases hl : k.list with
          | nil => simp [Carving.list] at hl
          | cons g gs => simpa [hl] using hf
        exact (hk.first f hf').trans (hfirst e (by simp))
    | cons x xs =>
        obtain rfl : x = f := by simpa using hf
        exact hfirst x (by simp)

theorem mark {v : VMRegion} (h : Sized room (xs ++ e :: ys)) (hb : v.base = e.val.base)
    (hs : v.size = e.val.size) : Sized room (xs ++ { e with val := v } :: ys) := by
  obtain ⟨htotal, hsize, hfirst⟩ := h
  refine ⟨?_, ?_, ?_⟩
  · simp only [List.map_append, List.map_cons, Extent.total_append, Extent.total_cons] at htotal ⊢
    rw [show Extent.size v = Extent.size e.val from hs]
    exact htotal
  · intro f hf
    simp only [List.mem_append, List.mem_cons] at hf
    rcases hf with hf | rfl | hf
    · exact hsize f (by simp [hf])
    · rw [show v.size = _ from hs]
      exact hsize e (by simp)
    · exact hsize f (by simp [hf])
  · intro f hf
    cases xs with
    | nil =>
        obtain rfl : { e with val := v } = f := by simpa using hf
        exact hb.trans (hfirst e (by simp))
    | cons x xs =>
        obtain rfl : x = f := by simpa using hf
        exact hfirst x (by simp)

end Sized

/-- The whole room as one free region. -/
def whole (room a : Nat) : List (Entry VMRegion) :=
  [⟨a, none, ⟨0, room, freeAttr, Dllist.empty⟩⟩]

/-- Freeing base 0 leaves one free region. -/
theorem LinkInv.freeSectionAddress_zero {room : Nat} {l : AddressSpace} {e : Entry VMRegion}
    {ys : List (Entry VMRegion)} (h : LinkInv l (e :: ys)) (hsized : Sized room (e :: ys)) :
    ∃ l', l.freeSectionAddress 0 = some (0, l') ∧ LinkInv l' (whole room e.addr) := by
  have hbase := hsized.first e (by simp)
  obtain ⟨l', hl', h'⟩ := h.freeSection_first (hsized.size_lt e (by simp))
  have htotal := hsized.total
  simp only [List.map_cons, Extent.total_cons, show Extent.size e.val = e.val.size from rfl]
    at htotal
  rw [hbase, htotal] at h'
  refine ⟨l', ?_, h'⟩
  simp only [freeSectionAddress, h.findSectionAddress_first hbase, Option.bind_eq_bind,
    Option.bind_some]
  rw [if_neg (by decide), if_neg (by simp)]
  exact hl'

theorem sized_whole {room a : Nat} (hlt : room < 2 ^ 64) : Sized room (whole room a) := by
  refine ⟨?_, by simpa [whole] using hlt, by simp [whole]⟩
  show (room + 0) % 2 ^ 64 = room
  omega

namespace Sections

variable {room : Nat} {s t s₀ : Sections} {calls : List SectionCall}

/-- Freeing base 0 again and again keeps the one free region. -/
theorem freeAll_whole (hlt : room < 2 ^ 64) {l : AddressSpace} {a : Nat}
    (h : LinkInv l (whole room a)) {bases : List Nat} (hzero : ∀ b ∈ bases, b = 0) :
    ∃ rcs l', freeAll bases l = some (rcs, l') ∧ (∀ rc ∈ rcs, rc = 0) ∧
      LinkInv l' (whole room a) := by
  induction bases generalizing l with
  | nil => exact ⟨[], l, rfl, by simp, h⟩
  | cons b bases ih =>
      obtain rfl := hzero b (by simp)
      obtain ⟨l₁, hl₁, h₁⟩ := h.freeSectionAddress_zero (sized_whole hlt)
      obtain ⟨rcs, l₂, hl₂, hrcs, h₂⟩ := ih h₁ fun b hb => hzero b (by simp [hb])
      exact ⟨0 :: rcs, l₂, by simp [freeAll, hl₁, hl₂], by simpa using hrcs, h₂⟩

/-- What allocations keep, wherever their ranges end. -/
structure Marked (room : Nat) (s : Sections) (es : List (Entry VMRegion)) : Prop where
  links : LinkInv s.space es
  sized : Sized room es
  live : ∀ a, a ∈ s.live ↔ ∃ e ∈ es, e.addr = a ∧ e.val.attr = liveAttr
  unused : s.live = [] → ∃ a, es = whole room a

theorem Marked.step {es : List (Entry VMRegion)} (h : Marked room s es) {c : SectionCall}
    (hok : s.Allocates c) (hstep : s.step c = some t) : ∃ es, Marked room t es := by
  cases c with
  | free base => cases hok
  | alloc base size top =>
      obtain ⟨a, l, hal⟩ := hok
      rcases h.links.alloc base size top with ⟨hnull, -⟩ | ⟨xs, e, ys, k, l', hc⟩
      · rw [hnull] at hal
        cases hal
      · obtain rfl := hc.split
        obtain ⟨c₁, c₂, c₃, hk⟩ := hc.carved
        have he : e ∈ xs ++ e :: ys := by simp
        have hfree := (h.links.freeAttr_of_fits he (fits_of_chosen hc.fits)).1
        have hparts : Parts e k := by
          rw [hk]
          exact Parts.carved hfree (h.sized.size_lt e he) (alignBig_lt _ _) (alignBig_lt _ _)
        have hinv := hc.inv
        have hsized := h.sized.replace hparts
        have hrfree := hparts.free k.region (by simp [Carving.list])
        rw [Carving.list_append] at hinv hsized
        obtain ⟨l'', hl'', h''⟩ := hinv.mark hrfree
        have ht : t = ⟨l'', k.region.addr :: s.live⟩ := by
          have : s.step (.alloc base size top) = some ⟨l'', k.region.addr :: s.live⟩ := by
            simp [Sections.step, hc.result, hl'']
          exact Option.some_inj.1 (hstep.symm.trans this)
        subst ht
        refine ⟨_, h'', hsized.mark rfl rfl, fun b => ?_, fun hnil => by simp at hnil⟩
        have hpiece : ∀ f ∈ k.list, f.val.attr ≠ liveAttr := fun f hf ha =>
          freeAttr_ne_liveAttr ((hparts.free f hf).symm.trans ha)
        have hfront : ∀ f ∈ k.front, f.val.attr ≠ liveAttr := fun f hf =>
          hpiece f (by simp [Carving.list, hf])
        have hback : ∀ f ∈ k.back, f.val.attr ≠ liveAttr := fun f hf =>
          hpiece f (by simp [Carving.list, hf])
        have hene : e.val.attr ≠ liveAttr := fun ha => freeAttr_ne_liveAttr (hfree.symm.trans ha)
        simp only [List.mem_cons]
        constructor
        · rintro (rfl | hb)
          · exact ⟨{ k.region with val := { k.region.val with attr := liveAttr } }, by simp, rfl,
              rfl⟩
          · obtain ⟨f, hf, rfl, ha⟩ := (h.live b).1 hb
            simp only [List.mem_append, List.mem_cons] at hf
            rcases hf with hf | rfl | hf
            · exact ⟨f, by simp [hf], rfl, ha⟩
            · exact absurd ha hene
            · exact ⟨f, by simp [hf], rfl, ha⟩
        · rintro ⟨f, hf, rfl, ha⟩
          simp only [List.mem_append, List.mem_cons] at hf
          rcases hf with (hf | hf) | rfl | hf | hf
          · exact Or.inr ((h.live _).2 ⟨f, by simp [hf], rfl, ha⟩)
          · exact absurd ha (hfront f hf)
          · exact Or.inl rfl
          · exact absurd ha (hback f hf)
          · exact Or.inr ((h.live _).2 ⟨f, by simp [hf], rfl, ha⟩)

theorem Marked.run (hlt : room < 2 ^ 64) (hstart : start room = some s₀)
    (hrun : Run (When Allocates fun s c t => s.step c = some t) s₀ calls s) :
    ∃ es, Marked room s es := by
  refine @Run.invariant _ _ _ (fun s => ∃ es, Marked room s es) _ _ _ hrun ?_ ?_
  · obtain ⟨e, he, hval, hlive⟩ := start_inv hlt hstart
    have hprev : e.prev = none := by
      obtain ⟨(⟨-, hprev⟩ | ⟨a, ha, -⟩), -⟩ := he.back
      · exact hprev
      · cases ha
    have hes : [e] = whole room e.addr := by
      rw [whole, ← hprev, ← hval]
    refine ⟨[e], he.toLinkInv, hes ▸ sized_whole hlt, fun a => ?_, fun _ => ⟨e.addr, hes⟩⟩
    simp [hlive, hval, freeAttr_ne_liveAttr]
  · rintro s c t ⟨es, hs⟩ hstep
    exact hs.step hstep.1 hstep.2

/-- After allocations every order of frees leaves one free region exactly when every region in
use starts at 0. -/
theorem freesWhole_iff (hlt : room < 2 ^ 64) (hstart : start room = some s₀)
    (hrun : Run (When Allocates fun s c t => s.step c = some t) s₀ calls s) :
    (∀ bases : List Nat, bases.Perm s.liveBases → s.FreesWhole room bases) ↔
      ∀ b ∈ s.liveBases, b = 0 := by
  obtain ⟨es, h⟩ := Marked.run hlt hstart hrun
  obtain ⟨e, ys, rfl⟩ := List.exists_cons_of_ne_nil h.links.ne_nil
  have hbase := h.sized.first e (by simp)
  constructor
  · intro hall b hb
    by_contra hne
    obtain ⟨rcs, l, r, hfree, hzero, -⟩ := hall _ (List.perm_cons_erase hb).symm
    simp only [freeAll] at hfree
    obtain ⟨⟨rc, l₁⟩, hb₁, hrest⟩ := Option.bind_eq_some_iff.1 hfree
    obtain ⟨⟨rcs', l₂⟩, -, hrcs⟩ := Option.bind_eq_some_iff.1 hrest
    obtain ⟨rfl, -⟩ : rc :: rcs' = rcs ∧ l₂ = l := by simpa using hrcs
    have hrc := hzero rc (by simp)
    by_cases ha : b &&& (VMBLOCK_AT_ALIGN - 1) = 0
    · obtain ⟨p, hp, -⟩ := h.links.findSectionAddress_spec b
      cases p with
      | none =>
          simp only [freeSectionAddress, hp, Option.bind_eq_bind, Option.bind_some] at hb₁
          rw [if_neg (not_not_intro ha), if_pos trivial] at hb₁
          obtain ⟨rfl, -⟩ : -2 = rc ∧ s.space = l₁ := by simpa using hb₁
          cases hrc
      | some a =>
          have hfault := h.links.freeSectionAddress_behind
            (fun y hy => h.sized.size_lt y (List.mem_cons_of_mem e hy)) ha hp
            (by rw [hbase]; exact fun h => hne h.symm)
          rw [hfault] at hb₁
          cases hb₁
    · simp only [freeSectionAddress] at hb₁
      rw [if_pos ha] at hb₁
      obtain ⟨rfl, -⟩ : -1 = rc ∧ s.space = l₁ := by simpa using hb₁
      cases hrc
  · intro hall bases hperm
    have hzero : ∀ b ∈ bases, b = 0 := fun b hb => hall b (hperm.subset hb)
    obtain ⟨rcs, l, a, hfree, hrcs, hl⟩ : ∃ rcs l a, freeAll bases s.space = some (rcs, l) ∧
        (∀ rc ∈ rcs, rc = 0) ∧ LinkInv l (whole room a) := by
      by_cases hnil : s.live = []
      · obtain ⟨a, ha⟩ := h.unused hnil
        have hlinks := h.links
        rw [ha] at hlinks
        obtain ⟨rcs, l, hfree, hrcs, hl⟩ := freeAll_whole hlt hlinks hzero
        exact ⟨rcs, l, a, hfree, hrcs, hl⟩
      · obtain ⟨a, live, ha⟩ := List.exists_cons_of_ne_nil hnil
        obtain ⟨f, hf, hfa, -⟩ := (h.live a).1 (by simp [ha])
        have hmem : f.val.base ∈ s.liveBases := by
          refine List.mem_filterMap.2 ⟨a, by simp [ha], ?_⟩
          rw [← hfa, region_of_links h.links hf]
          rfl
        obtain ⟨b, rest, rfl⟩ := List.exists_cons_of_ne_nil
          (List.ne_nil_of_mem (hperm.symm.subset hmem))
        obtain rfl := hzero b (by simp)
        obtain ⟨l₁, hl₁, h₁⟩ := h.links.freeSectionAddress_zero h.sized
        have hrest : ∀ b ∈ rest, b = 0 := fun b hb => hzero b (by simp [hb])
        obtain ⟨rcs, l, hfree, hrcs, hl⟩ := freeAll_whole hlt h₁ hrest
        exact ⟨0 :: rcs, l, e.addr, by simp [freeAll, hl₁, hfree], by simpa using hrcs, hl⟩
    refine ⟨rcs, l, ⟨0, room, freeAttr, Dllist.empty⟩, hfree, hrcs, hl.layout.toList, rfl, rfl, ?_⟩
    show freeAttr &&& WVM_TYPE_MASK = MEM_FREE
    decide

/-- One region at base 0 is freed. -/
theorem freesWhole_first : ∃ s : Sections, s.liveBases = [0] ∧ s.FreesWhole 0x100000 [0] := by
  have heval : ((start 0x100000).bind fun s =>
      if (s.space.allocSectionAddress 0 0x1000 false).any (fun v => v.1.isSome) then
        s.step (.alloc 0 0x1000 false) else none).any (fun s => s.liveBases = [0]) = true := by
    decide +kernel
  obtain ⟨s, hs, hlive⟩ := (Option.any_eq_true _ _).1 heval
  obtain ⟨s₀, hs₀, hstep⟩ := Option.bind_eq_some_iff.1 hs
  obtain ⟨hal, hstep⟩ := Option.ite_none_right_eq_some.1 hstep
  obtain ⟨⟨p, l⟩, hpl, hp⟩ := (Option.any_eq_true _ _).1 hal
  obtain ⟨a, rfl⟩ := Option.isSome_iff_exists.1 hp
  have hlive : s.liveBases = [0] := by simpa using hlive
  have hok : s₀.Allocates (.alloc 0 0x1000 false) := ⟨a, l, hpl⟩
  refine ⟨s, hlive, (freesWhole_iff (by decide) hs₀ (Run.snoc Run.nil ⟨hok, hstep⟩)).2
    ?_ [0] (by rw [hlive])⟩
  simp [hlive]

/-- Of two regions, the second one cannot be freed first. -/
theorem free_order_faults :
    ¬ ∀ (room : Nat) (s₀ s : Sections) (calls : List SectionCall), 0 < room →
      room % 0x10000 = 0 → room < 2 ^ 64 → start room = some s₀ →
      Run (When Allocates fun s c t => s.step c = some t) s₀ calls s →
        ∀ bases : List Nat, bases.Perm s.liveBases → s.FreesWhole room bases := by
  intro hall
  let call : SectionCall := .alloc 0 0x10000 false
  let succeeds (s : Sections) : Option Sections :=
    if (s.space.allocSectionAddress 0 0x10000 false).any (fun v => v.1.isSome) then
      s.step call else none
  have hallocates : ∀ s t, succeeds s = some t → s.Allocates call ∧ s.step call = some t := by
    intro s t hst
    obtain ⟨hal, hstep⟩ := Option.ite_none_right_eq_some.1 hst
    obtain ⟨⟨p, l⟩, hpl, hp⟩ := (Option.any_eq_true _ _).1 hal
    obtain ⟨a, rfl⟩ := Option.isSome_iff_exists.1 hp
    exact ⟨⟨a, l, hpl⟩, hstep⟩
  have heval : (((start 0x100000).bind succeeds).bind succeeds).any
      (fun s => s.liveBases = [0x10000, 0] ∧ (s.space.freeSectionAddress 0x10000).isNone) =
        true := by
    decide +kernel
  obtain ⟨s₂, hs₂, hs⟩ := (Option.any_eq_true _ _).1 heval
  obtain ⟨s₁, hs₁, h₂⟩ := Option.bind_eq_some_iff.1 hs₂
  obtain ⟨s₀, hs₀, h₁⟩ := Option.bind_eq_some_iff.1 hs₁
  obtain ⟨hlive, hfault⟩ : s₂.liveBases = [0x10000, 0] ∧
      s₂.space.freeSectionAddress 0x10000 = none := by simpa using hs
  obtain ⟨rcs, l, r, hfree, -⟩ := hall 0x100000 s₀ s₂ _ (by decide) (by decide) (by decide) hs₀
    (Run.snoc (Run.snoc Run.nil (hallocates s₀ s₁ h₁)) (hallocates s₁ s₂ h₂)) [0x10000, 0]
    (by rw [hlive])
  simp [freeAll, hfault] at hfree

end Sections

end Vin64.Space
