import Vin64.Space.Proofs.Freeing

/-!
# Allocating sections

A search from the bottom sees every region until one starts above the base, so it misses none
that could be taken.  What it takes is compared with what was asked for: the two differ when
a sum wraps, and when a range with a base ends with its region.
-/

namespace Vin64.Space

open Vin64.Utils Vin64.Utils.Dllist Vin64.Lib AddressSpace

/-! ## Rounding -/

theorem wanted_eq {size : Nat} (h : size ≤ 2 ^ 64 - VMBLOCK_AT_ALIGN) :
    wanted size = roundUp size VMBLOCK_SIZE_ALIGN := by
  unfold VMBLOCK_AT_ALIGN at h
  unfold wanted alignBig add64 roundUp VMBLOCK_SIZE_ALIGN
  split_ifs <;> omega

theorem required_eq {size : Nat} (h : size ≤ 2 ^ 64 - VMBLOCK_AT_ALIGN) :
    required size = roundUp size VMBLOCK_AT_ALIGN := by
  unfold required
  rw [wanted_eq h]
  unfold VMBLOCK_AT_ALIGN at h
  unfold alignBig add64 roundUp VMBLOCK_SIZE_ALIGN VMBLOCK_AT_ALIGN
  split_ifs <;> omega

theorem le_wanted {size : Nat} (h : size ≤ 2 ^ 64 - VMBLOCK_AT_ALIGN) : size ≤ wanted size := by
  rw [wanted_eq h]
  unfold roundUp VMBLOCK_SIZE_ALIGN
  omega

theorem wanted_le_required {size : Nat} (h : size ≤ 2 ^ 64 - VMBLOCK_AT_ALIGN) :
    wanted size ≤ required size := by
  rw [wanted_eq h, required_eq h]
  unfold roundUp VMBLOCK_SIZE_ALIGN VMBLOCK_AT_ALIGN
  omega

/-- A size whose rounding wraps, or 0, takes nothing. -/
theorem required_eq_zero {size : Nat} (hlt : size < 2 ^ 64)
    (h : size = 0 ∨ 2 ^ 64 - VMBLOCK_AT_ALIGN < size) : wanted size = 0 ∨ required size = 0 := by
  unfold VMBLOCK_AT_ALIGN at h
  unfold required wanted alignBig add64 VMBLOCK_SIZE_ALIGN VMBLOCK_AT_ALIGN
  split_ifs <;> omega

theorem and_align (base : Nat) : base &&& (VMBLOCK_AT_ALIGN - 1) = base % VMBLOCK_AT_ALIGN :=
  Nat.and_two_pow_sub_one_eq_mod base 16

theorem fits_iff {required : Nat} {r : VMRegion} :
    fits required r = true ↔ r.OnBoundary ∧ required ≤ r.size := by
  simp only [fits, Bool.decide_and, Bool.and_eq_true, decide_eq_true_eq, VMRegion.OnBoundary,
    VMRegion.IsFree]
  rw [show r.base &&& 0xFFFF = r.base % VMBLOCK_AT_ALIGN from and_align r.base, and_assoc]

/-! ## The search from the bottom -/

/-- A search that finds nothing does not take the region it is at, and goes on unless that one
starts above the base. -/
theorem LinkInv.findFit_none {l : AddressSpace} {xs ys : List (Entry VMRegion)}
    {y : Entry VMRegion} (h : LinkInv l (xs ++ y :: ys)) {base required fuel : Nat} {top : Bool}
    (hn : findFit l base required top (fuel + 1) (some y.addr) = some none) :
    chosen base required y.val = false ∧ ((base ≠ 0 ∧ base < y.val.base) ∨
      findFit l base required top fuel (xnext top ⟨y.prev, ptrTo ys none, y.val⟩) = some none) := by
  simp only [findFit, h.layout.deref, Option.bind_eq_bind, Option.bind_some] at hn
  by_cases hfit : fits required y.val = true
  · rw [if_neg (not_not_intro hfit)] at hn
    by_cases hb : base = 0
    · rw [if_neg (not_not_intro hb)] at hn
      simp at hn
    · rw [if_pos hb] at hn
      split_ifs at hn with hgt hlt hle
      · exact ⟨by simp [chosen, hb]; omega, Or.inl ⟨hb, hgt⟩⟩
      · exact ⟨by simp [chosen, hb]; omega, Or.inr hn⟩
      · exact ⟨by simp [chosen, hb]; omega, Or.inr hn⟩
      · simp at hn
  · rw [if_pos hfit] at hn
    exact ⟨by simp [chosen, hfit], Or.inr hn⟩

/-- Without a base a search that finds nothing has passed by no region it could take. -/
theorem findFit_none_walk {l : AddressSpace} {required : Nat} {top : Bool} {fuel : Nat} {p : Ptr}
    (hn : findFit l 0 required top fuel p = some none) :
    (searchWalk l top fuel p).find? (chosen 0 required) = none := by
  induction fuel generalizing p with
  | zero => cases hn
  | succ fuel ih =>
      cases p with
      | none => rfl
      | some a =>
          cases hd : l.deref (some a) with
          | none => simp [findFit, hd] at hn
          | some n =>
              simp only [findFit, hd, Option.bind_eq_bind, Option.bind_some] at hn
              by_cases hfit : fits required n.val = true
              · rw [if_neg (not_not_intro hfit), if_neg (not_not_intro rfl)] at hn
                simp at hn
              · rw [if_pos hfit] at hn
                simp only [searchWalk, hd]
                rw [List.find?_cons_of_neg (by simpa [chosen] using hfit)]
                exact ih hn

namespace SpaceInv

variable {room : Nat} {l : AddressSpace} {es xs ys : List (Entry VMRegion)} {e : Entry VMRegion}

/-- A search from the bottom that finds nothing has passed by no region it could take. -/
theorem findFit_low_none (h : SpaceInv room l (xs ++ ys)) {base required fuel : Nat}
    (hn : findFit l base required false fuel (ptrTo ys none) = some none) :
    ∀ y ∈ ys, chosen base required y.val = false := by
  induction ys generalizing xs fuel with
  | nil => simp
  | cons y ys ih =>
      cases fuel with
      | zero => cases hn
      | succ fuel =>
          obtain ⟨hy, hrest⟩ := h.toLinkInv.findFit_none hn
          intro z hz
          rcases List.mem_cons.1 hz with rfl | hz
          · exact hy
          · rcases hrest with ⟨hb, hlt⟩ | hrest
            · have := h.base_le hz
              simp [chosen, hb]
              omega
            · exact @ih (xs ++ [y]) (by simpa using h) fuel hrest z hz

theorem searchWalk_low (h : SpaceInv room l (xs ++ ys)) {fuel : Nat} (hf : ys.length ≤ fuel) :
    l.searchWalk false fuel (ptrTo ys none) = ys.map Entry.val := by
  induction ys generalizing xs fuel with
  | nil => cases fuel <;> rfl
  | cons y ys ih =>
      obtain ⟨fuel, rfl⟩ : ∃ k, fuel = k + 1 := ⟨fuel - 1, by simp at hf; omega⟩
      have hrest := @ih (xs ++ [y]) (by simpa using h) fuel (by simpa using hf)
      simp only [ptrTo_cons, searchWalk, h.layout.deref, List.map_cons]
      exact congrArg _ hrest

/-- The walk from the bottom passes by all regions in order. -/
theorem walk_low (h : SpaceInv room l es) :
    l.searchWalk false (l.fresh + 1) (xfrom l false) = es.map Entry.val := by
  have hlen := h.layout.length_le_fresh
  rw [show xfrom l false = ptrTo es none from h.layout.first]
  exact @searchWalk_low room l [] es h (l.fresh + 1) (by omega)

/-- Where the search finds nothing there is no candidate. -/
theorem candidate_none (h : SpaceInv room l es) {base size : Nat} {top : Bool}
    (hn : findFit l base (required size) (direction base top) (l.fresh + 1)
      (xfrom l (direction base top)) = some none) : l.candidate base size top = none := by
  show (l.searchWalk (direction base top) _ (xfrom l (direction base top))).find?
    (chosen base (required size)) = none
  by_cases hb : base = 0
  · subst hb
    exact findFit_none_walk hn
  · have hdir : direction base top = false := by simp [direction, hb]
    rw [hdir] at hn ⊢
    have hall := @findFit_low_none room l [] es h base (required size) (l.fresh + 1)
      (by rw [← h.layout.first]; exact hn)
    rw [h.walk_low, List.find?_eq_none]
    intro r hr
    obtain ⟨e, he, rfl⟩ := List.mem_map.1 hr
    simpa using hall e he

end SpaceInv

/-! ## Sizes and places -/

namespace SpaceInv

variable {room : Nat} {l l' : AddressSpace} {es xs ys : List (Entry VMRegion)}
  {e : Entry VMRegion} {k : Carving} {base size : Nat} {top : Bool}

/-- The region a call returns: where it lies and its size. -/
theorem carves_region (h : SpaceInv room l es)
    (hc : LinkInv.Carves l es base size top xs e ys k l') :
    k.region.val.base = Carving.place e base (required size) (direction base top) ∧
      k.region.val.size = min (wanted size) (required size) := by
  obtain ⟨c₁, c₂, c₃, hk⟩ := hc.carved
  have he : e ∈ es := by
    rw [hc.split]
    simp
  have hstop : Extent.stop e.val < 2 ^ 64 := Nat.lt_of_le_of_lt (h.stop_le he) h.room_lt
  obtain ⟨-, hreq⟩ := h.freeAttr_of_fits he (fits_of_chosen hc.fits)
  rw [hk]
  refine Carving.carved_region hstop hreq fun hb => ?_
  have hfits := hc.fits
  simp only [chosen, Bool.decide_and, Bool.and_eq_true, decide_eq_true_eq] at hfits
  obtain ⟨hlo, hhi, -⟩ := hfits.2 hb
  have hend : add64 e.val.base e.val.size = Extent.stop e.val := add64_eq hstop
  rw [hend] at hhi
  exact ⟨by simp [direction, hb], hlo, hhi⟩

theorem carves_deref (hc : LinkInv.Carves l es base size top xs e ys k l') :
    ∃ n, l'.deref (some k.region.addr) = some n ∧ n.val = k.region.val := by
  have hinv := hc.inv
  rw [Carving.list_append] at hinv
  exact ⟨_, hinv.layout.deref, rfl⟩

end SpaceInv

namespace Sections

variable {room : Nat} {s t s₀ : Sections} {calls : List SectionCall}

/-- A call that does not wrap keeps the tiling. -/
theorem spaceInv_step {es : List (Entry VMRegion)} (h : SpaceInv room s.space es) {c : SectionCall}
    (hok : s.InRange c) (hstep : s.step c = some t) : ∃ es, SpaceInv room t.space es := by
  cases c with
  | alloc base size top =>
      rcases h.toLinkInv.alloc base size top with ⟨hnull, -⟩ | ⟨xs, e, ys, k, l', hc⟩
      · obtain rfl : s = t := by simpa [Sections.step, hnull] using hstep
        exact ⟨es, h⟩
      · obtain ⟨h', hpieces, -⟩ := h.carves hc (hok hc.aligned e.val hc.candidate)
        have hfree := hpieces.free k.region (by simp [Carving.list])
        rw [Carving.list_append] at h'
        obtain ⟨l'', hl'', h''⟩ := h'.mark hfree
        obtain rfl : (⟨l'', k.region.addr :: s.live⟩ : Sections) = t := by
          simpa [Sections.step, hc.result, hl''] using hstep
        exact ⟨_, h''⟩
  | free base =>
      by_cases hnone : base &&& (VMBLOCK_AT_ALIGN - 1) = 0 → ∀ r ∈ s.space.toList, r.base ≠ base
      · obtain rfl : s = t := Option.some_inj.1 ((h.step_free_none hnone).symm.trans hstep)
        exact ⟨es, h⟩
      · obtain ⟨ha, hfound⟩ := Classical.not_imp.1 hnone
        obtain ⟨e, ys, rfl⟩ := List.exists_cons_of_ne_nil h.ne_nil
        by_cases hz : base = 0
        · subst hz
          obtain ⟨l', hl', h'⟩ := h.step_free_zero
          rw [hl'] at hstep
          obtain rfl := Option.some_inj.1 hstep
          exact ⟨_, h'⟩
        · obtain ⟨p, hp, -⟩ := h.findSectionAddress_spec base
          cases p with
          | none =>
              have hno := h.findSectionAddress_none hp
              refine absurd (fun r hr => ?_) hfound
              rw [h.layout.toList] at hr
              obtain ⟨f, hf, rfl⟩ := List.mem_map.1 hr
              exact hno f hf
          | some a =>
              have hfault := h.freeSectionAddress_behind ha hp hz
              simp [Sections.step, hp, hfault] at hstep

theorem spaceInv_run (hlt : room < 2 ^ 64) (hstart : start room = some s₀)
    (hrun : Run (When InRange fun s c t => s.step c = some t) s₀ calls s) :
    ∃ es, SpaceInv room s.space es := by
  refine @Run.invariant _ _ _ (fun s => ∃ es, SpaceInv room s.space es) _ _ _ hrun ?_ ?_
  · obtain ⟨e, he, -⟩ := start_inv hlt hstart
    exact ⟨[e], he⟩
  · rintro s c t ⟨es, hs⟩ hstep
    exact spaceInv_step hs hstep.1 hstep.2

/-- A region that is returned is a part of a free one, and as large as it was asked to be,
exactly under `PartOk`. -/
theorem returnsPart_iff (hlt : room < 2 ^ 64) (hstart : start room = some s₀)
    (hrun : Run (When InRange fun s c t => s.step c = some t) s₀ calls s) {base size : Nat}
    (hbase : base % VMBLOCK_AT_ALIGN = 0) (hsize : size < 2 ^ 64) (top : Bool) :
    s.ReturnsPart base size top ↔ s.PartOk base size top := by
  obtain ⟨es, h⟩ := spaceInv_run hlt hstart hrun
  rcases h.toLinkInv.alloc base size top with ⟨hnull, hnone⟩ | ⟨xs, e, ys, k, l', hc⟩
  · have hcand := h.candidate_none (hnone ((and_align base).trans hbase))
    refine iff_of_true ?_ fun hne => absurd hcand hne
    intro a l hal
    rw [hnull] at hal
    simp at hal
  · obtain ⟨hplace, hmin⟩ := h.carves_region hc
    obtain ⟨n, hn, hnv⟩ := SpaceInv.carves_deref hc
    have he : e ∈ es := by
      rw [hc.split]
      simp
    obtain ⟨⟨hefree, -⟩, hreq⟩ := fits_iff.1 (fits_of_chosen hc.fits)
    have hmem : e.val ∈ s.space.toList := by
      rw [h.layout.toList]
      exact List.mem_map_of_mem he
    have hplace_base : base ≠ 0 → k.region.val.base = base := fun hb => by
      rw [hplace, Carving.place, if_pos hb]
    have hreturns : s.ReturnsPart base size top ↔
        0 < k.region.val.size ∧ size ≤ k.region.val.size ∧
          ∃ r ∈ s.space.toList, r.IsFree ∧ r.Contains k.region.val.base k.region.val.size := by
      constructor
      · intro hret
        obtain ⟨n', hn', hpart⟩ := hret _ _ hc.result
        obtain rfl : n = n' := Option.some_inj.1 (hn.symm.trans hn')
        rw [hnv] at hpart
        exact hpart
      · intro hpart a l hal
        rw [hc.result] at hal
        obtain ⟨rfl, rfl⟩ : k.region.addr = a ∧ l' = l := by simpa using hal
        exact ⟨n, hn, by rw [hnv]; exact hpart⟩
    rw [hreturns, hmin]
    constructor
    · rintro ⟨hpos, hle, r, hr, hrfree, hin⟩ -
      have hok : 0 < size ∧ size ≤ 2 ^ 64 - VMBLOCK_AT_ALIGN := by
        by_contra hbad
        have := required_eq_zero hsize (by omega)
        omega
      refine ⟨hok.1, hok.2, fun hb => ⟨r, hr, hrfree, ?_⟩⟩
      rw [hplace_base hb, Nat.min_eq_left (wanted_le_required hok.2), wanted_eq hok.2] at hin
      exact hin
    · intro hok
      obtain ⟨hpos, hle, hin⟩ := hok (by rw [hc.candidate]; simp)
      have hw := le_wanted hle
      have hwr := wanted_le_required hle
      rw [Nat.min_eq_left hwr]
      refine ⟨by omega, hw, ?_⟩
      by_cases hb : base = 0
      · refine ⟨e.val, hmem, hefree, ?_⟩
        rw [hplace, Carving.place, if_neg (not_not_intro hb)]
        unfold VMRegion.Contains
        split_ifs <;> omega
      · obtain ⟨r, hr, hrfree, hrin⟩ := hin hb
        exact ⟨r, hr, hrfree, by rw [hplace_base hb, wanted_eq hle]; exact hrin⟩

/-- Three regions are given, at the bottom, at a base and at the top. -/
def earlierCalls : List SectionCall :=
  [.alloc 0 0x10000 false, .alloc 0x40000 0x20000 false, .alloc 0 0x1000 true]

/-- A page at a base in the space between two regions that were given. -/
theorem returnsPart_between : ∃ s₀ s, start 0x100000 = some s₀ ∧
    Run (When InRange fun s c t => s.step c = some t) s₀ earlierCalls.reverse s ∧
    s.space.candidate 0x80000 0x1800 false ≠ none ∧ s.ReturnsPart 0x80000 0x1800 false := by
  have heval : ((start 0x100000).bind fun s =>
      runAll (fun s c => if s.InRange c then s.step c else none) s earlierCalls).any (fun s =>
        s.space.candidate 0x80000 0x1800 false ≠ none ∧ s.PartOk 0x80000 0x1800 false) = true := by
    decide +kernel
  obtain ⟨s, hs, htest⟩ := (Option.any_eq_true _ _).1 heval
  obtain ⟨s₀, hs₀, hcalls⟩ := Option.bind_eq_some_iff.1 hs
  obtain ⟨hsplit, hok⟩ := of_decide_eq_true htest
  have hrun := run_when_of_runAll hcalls
  exact ⟨s₀, s, hs₀, hrun, hsplit, (returnsPart_iff (by decide) hs₀ hrun (by decide) (by decide)
    false).2 hok⟩

/-- A size of 0 gives an empty region. -/
theorem alloc_zero_is_empty :
    ¬ ∀ (room : Nat) (s₀ s : Sections) (calls : List SectionCall) (base size : Nat) (top : Bool),
      0 < room → room % 0x10000 = 0 → room < 2 ^ 64 → start room = some s₀ →
      Run (fun s c t => s.step c = some t) s₀ calls s → base % 0x10000 = 0 → base < 2 ^ 64 →
      size < 2 ^ 64 → s.ReturnsPart base size top := by
  intro hall
  have heval : (start 0x100000).any (fun s => (s.space.allocSectionAddress 0 0 false).any fun v =>
      v.1.isSome ∧ (v.2.deref v.1).all fun n => n.val.size = 0) = true := by decide +kernel
  obtain ⟨s, hs, hv⟩ := (Option.any_eq_true _ _).1 heval
  obtain ⟨⟨p, l⟩, hal, hempty⟩ := (Option.any_eq_true _ _).1 hv
  obtain ⟨hp, hzero⟩ : p.isSome = true ∧ (l.deref p).all (fun n => n.val.size = 0) = true := by
    simpa using hempty
  obtain ⟨a, rfl⟩ := Option.isSome_iff_exists.1 hp
  obtain ⟨n, hn, hpos, -⟩ := hall 0x100000 s s [] 0 0 false (by decide) (by decide) (by decide) hs
    Run.nil (by decide) (by decide) (by decide) a l hal
  rw [hn] at hzero
  have : n.val.size = 0 := by simpa using hzero
  omega

end Sections

/-! ## Allocating from the bottom -/

namespace SpaceInv

variable {room : Nat} {l l' : AddressSpace} {es xs ys : List (Entry VMRegion)}
  {e : Entry VMRegion} {k : Carving} {base size : Nat}

theorem direction_low (base : Nat) : direction base false = false := by
  unfold direction
  split <;> rfl

/-- The regions in front of the one a search from the bottom takes could not be taken. -/
theorem candidate_lowest (h : SpaceInv room l es) {r : VMRegion}
    (hr : l.candidate base size false = some r) {t : Entry VMRegion} (ht : t ∈ es)
    (hc : chosen base (required size) t.val = true) : r.base ≤ t.val.base := by
  have hfind : (es.map Entry.val).find? (chosen base (required size)) = some r := by
    rw [← h.walk_low]
    have hr : (l.searchWalk (direction base false) (l.fresh + 1)
      (xfrom l (direction base false))).find? (chosen base (required size)) = some r := hr
    rwa [direction_low] at hr
  obtain ⟨-, pre, post, hsplit, hpre⟩ := List.find?_eq_some_iff_append.1 hfind
  have htm : t.val ∈ pre ++ r :: post := by
    rw [← hsplit]
    exact List.mem_map_of_mem ht
  have htiles := h.tiles
  rw [hsplit] at htiles
  simp only [List.mem_append, List.mem_cons] at htm
  rcases htm with htm | htm | htm
  · have := hpre t.val htm
    simp [hc] at this
  · exact Nat.le_of_eq (congrArg VMRegion.base htm.symm)
  · have hle : r.base + r.size ≤ t.val.base := htiles.stop_le htm
    omega

/-- The state of every address as the entries of a list. -/
theorem freeAt_eq (h : SpaceInv room l es) (x : Nat) :
    Sections.freeAt l x = (Extent.cover (fun r : VMRegion =>
      decide (r.attr &&& WVM_TYPE_MASK = MEM_FREE)) (es.map Entry.val))[x]? := by
  unfold Sections.freeAt
  rw [h.layout.toList, Extent.map_lookup h.tiles _ (Nat.zero_le x), Nat.sub_zero]

/-- Carving a region and marking the result changes the state of its addresses only. -/
theorem freeAt_carves (h : SpaceInv room l es) (hsplit : es = xs ++ e :: ys)
    (hefree : e.val.attr = freeAttr) (hk : Carving.Pieces e k)
    (h' : SpaceInv room l' (xs ++ (k.list ++ ys))) {l'' : AddressSpace}
    (h'' : SpaceInv room l'' ((xs ++ k.front) ++
      { k.region with val := { k.region.val with attr := liveAttr } } :: (k.back ++ ys))) {x : Nat}
    (hx : ¬ (k.region.val.base ≤ x ∧ x < k.region.val.base + k.region.val.size)) :
    Sections.freeAt l'' x = Sections.freeAt l x := by
  have hmark : Sections.freeAt l'' x = Sections.freeAt l' x := by
    have hlookup := @Extent.lookup_replace VMRegion _ ((xs ++ k.front).map Entry.val)
      ((k.back ++ ys).map Entry.val) k.region.val { k.region.val with attr := liveAttr } rfl rfl x hx
    unfold Sections.freeAt
    rw [h''.layout.toList, h'.layout.toList, Carving.list_append]
    simp only [List.map_append, List.map_cons] at hlookup ⊢
    rw [hlookup]
  rw [hmark, h'.freeAt_eq, h.freeAt_eq, hsplit]
  -- all pieces are free, as the region was
  have hfree : decide (freeAttr &&& WVM_TYPE_MASK = MEM_FREE) = true := by decide
  have hpieces : Extent.cover (fun r : VMRegion =>
      decide (r.attr &&& WVM_TYPE_MASK = MEM_FREE)) (k.list.map Entry.val) =
        List.replicate (Extent.total (k.list.map Entry.val)) true := by
    refine Extent.cover_of_forall fun r hr => ?_
    obtain ⟨f, hf, rfl⟩ := List.mem_map.1 hr
    rw [hk.free f hf]
    exact hfree
  have htotal : Extent.total (k.list.map Entry.val) = Extent.size e.val := by
    have := hk.tiles.stop_eq
    have hstop : Extent.stop e.val = e.val.base + Extent.size e.val := rfl
    omega
  congr 1
  simp only [List.map_append, List.map_cons, Extent.cover_append, Extent.cover_cons]
  rw [hpieces, htotal, hefree, hfree]

end SpaceInv

namespace Sections

variable {room : Nat} {s s₀ : Sections} {calls : List SectionCall} {base size : Nat}

/-- Under `LowOk` the search takes the regions that suit the call. -/
theorem chosen_iff_suits {r : VMRegion} (hok : base ≠ 0 → r.OnBoundary →
      required size ≤ r.size → r.base ≤ base → base ≤ r.base + r.size →
        base + required size ≠ r.base + r.size ∧ base + required size < 2 ^ 64)
    (hstop : r.base + r.size < 2 ^ 64) :
    chosen base (required size) r = true ↔ Suits base (required size) r := by
  have hend : add64 r.base r.size = r.base + r.size := add64_eq hstop
  simp only [chosen, Bool.decide_and, Bool.and_eq_true, decide_eq_true_eq, Suits, fits_iff, hend]
  by_cases hb : base = 0
  · simp [hb]
  · simp only [ne_eq, hb, not_false_eq_true, true_implies, if_false, VMRegion.Contains]
    constructor
    · rintro ⟨⟨hbound, hreq⟩, hlo, hhi, hlt⟩
      obtain ⟨hne, hrange⟩ := hok hb hbound hreq hlo hhi
      rw [add64_eq hrange] at hlt
      exact ⟨hbound, hlo, by omega⟩
    · rintro ⟨hbound, hlo, hhi⟩
      obtain ⟨hne, hrange⟩ := hok hb hbound (by omega) hlo (by omega)
      rw [add64_eq hrange]
      exact ⟨⟨hbound, by omega⟩, hlo, by omega, by omega⟩

/-- A call from the bottom that returns null could not take any region. -/
theorem not_chosen_of_null {es : List (Entry VMRegion)} (h : SpaceInv room s.space es)
    (hn : findFit s.space base (required size) (direction base false) (s.space.fresh + 1)
      (xfrom s.space (direction base false)) = some none) :
    ∀ r ∈ s.space.toList, chosen base (required size) r = false := by
  intro r hr
  rw [SpaceInv.direction_low] at hn
  rw [h.layout.toList] at hr
  obtain ⟨e, he, rfl⟩ := List.mem_map.1 hr
  exact @SpaceInv.findFit_low_none room _ [] es h base (required size) (s.space.fresh + 1)
    (by rw [← h.layout.first]; exact hn) e he

theorem stop_lt {es : List (Entry VMRegion)} (h : SpaceInv room s.space es) {r : VMRegion}
    (hr : r ∈ s.space.toList) : r.base + r.size < 2 ^ 64 := by
  rw [h.layout.toList] at hr
  obtain ⟨e, he, rfl⟩ := List.mem_map.1 hr
  exact Nat.lt_of_le_of_lt (h.stop_le he) h.room_lt

/-- A call that keeps its promise is in no conflict with `LowOk`. -/
theorem lowOk_of_allocsLow {es : List (Entry VMRegion)} (h : SpaceInv room s.space es)
    (hbase : base % VMBLOCK_AT_ALIGN = 0) (hpos : 0 < size)
    (hsize : size ≤ 2 ^ 64 - VMBLOCK_AT_ALIGN) (hal : s.AllocsLow base size) :
    s.LowOk base size := by
  have hw := le_wanted hsize
  have hwr := wanted_le_required hsize
  obtain ⟨p, l, hal, hiff, -⟩ := hal
  intro hb r hr hbound hreq hlo hhi
  rw [← required_eq hsize] at hiff hreq ⊢
  have hrstop := stop_lt h hr
  have hend : add64 r.base r.size = r.base + r.size := add64_eq hrstop
  constructor
  · -- a region that ends with the range suits, but is not taken
    intro heq
    have hsuits : Suits base (required size) r := by
      refine ⟨hbound, ?_⟩
      rw [if_neg hb]
      exact ⟨hlo, Nat.le_of_eq heq⟩
    have hp := hiff.2 ⟨r, hr, hsuits⟩
    rcases h.toLinkInv.alloc base size false with ⟨hn, -⟩ | ⟨xs, e, ys, k, l', hc⟩
    · obtain ⟨rfl, -⟩ : none = p ∧ s.space = l := by simpa [hn] using hal
      exact hp rfl
    · have he : e.val ∈ es.map Entry.val := List.mem_map_of_mem (by rw [hc.split]; simp)
      have hestop := stop_lt h (show e.val ∈ s.space.toList by rw [h.layout.toList]; exact he)
      have hfits := hc.fits
      simp only [chosen, Bool.decide_and, Bool.and_eq_true, decide_eq_true_eq] at hfits
      obtain ⟨helo, -, hehi⟩ := hfits.2 hb
      rw [add64_eq hestop, add64_eq (show base + required size < 2 ^ 64 by omega)] at hehi
      have hre : r = e.val := by
        have hr' : r ∈ es.map Entry.val := by rw [← h.layout.toList]; exact hr
        have hrc : Extent.Covers r base := ⟨hlo, by show base < r.base + r.size; omega⟩
        have hec : Extent.Covers e.val base := ⟨helo, by
          show base < e.val.base + e.val.size
          omega⟩
        exact h.tiles.eq_of_covers hr' he hrc hec
      rw [← hre] at hehi
      omega
  · -- a range whose end wraps is taken, but suits no region
    by_contra hwrap
    have hrlt : required size < 2 ^ 64 := alignBig_lt _ _
    have hchosen : chosen base (required size) r = true := by
      simp only [chosen, Bool.decide_and, Bool.and_eq_true, decide_eq_true_eq, hend]
      refine ⟨fits_iff.2 ⟨hbound, hreq⟩, fun _ => ⟨hlo, hhi, ?_⟩⟩
      unfold add64
      omega
    rcases h.toLinkInv.alloc base size false with ⟨-, hn⟩ | ⟨xs, e, ys, k, l', hc⟩
    · have := not_chosen_of_null h (hn ((and_align base).trans hbase)) r hr
      rw [hchosen] at this
      cases this
    · obtain ⟨rfl, -⟩ : some k.region.addr = p ∧ l' = l := by simpa [hc.result] using hal
      obtain ⟨t, ht, -, hin⟩ := hiff.1 (by simp)
      rw [if_neg hb] at hin
      have := stop_lt h ht
      have := hin.2
      omega

/-- Under `LowOk` a call keeps its promise. -/
theorem allocsLow_of_lowOk {es : List (Entry VMRegion)} (h : SpaceInv room s.space es)
    (hbase : base % VMBLOCK_AT_ALIGN = 0) (hsize : size ≤ 2 ^ 64 - VMBLOCK_AT_ALIGN)
    (hok : s.LowOk base size) : s.AllocsLow base size := by
  have hwr := wanted_le_required hsize
  unfold LowOk at hok
  unfold AllocsLow
  rw [← required_eq hsize] at hok ⊢
  have hsuits : ∀ r ∈ s.space.toList,
      (chosen base (required size) r = true ↔ Suits base (required size) r) := fun r hr =>
    chosen_iff_suits (fun hb => hok hb r hr) (stop_lt h hr)
  rcases h.toLinkInv.alloc base size false with ⟨hn, hnone⟩ | ⟨xs, e, ys, k, l', hc⟩
  · refine ⟨none, s.space, hn, ⟨fun hp => absurd rfl hp, ?_⟩, fun a ha => by cases ha⟩
    rintro ⟨r, hr, hsr⟩ -
    have := not_chosen_of_null h (hnone ((and_align base).trans hbase)) r hr
    rw [(hsuits r hr).2 hsr] at this
    cases this
  · have he : e ∈ es := by rw [hc.split]; simp
    have hmem : e.val ∈ s.space.toList := by
      rw [h.layout.toList]
      exact List.mem_map_of_mem he
    have hesuits := (hsuits e.val hmem).1 hc.fits
    have hestop := stop_lt h hmem
    have hrange : base ≠ 0 → base + required size < 2 ^ 64 := by
      intro hb
      have hin := hesuits.2
      rw [if_neg hb] at hin
      have := hin.2
      omega
    obtain ⟨h', hpieces, -⟩ := h.carves hc hrange
    obtain ⟨hplace, hmin⟩ := h.carves_region hc
    obtain ⟨n, hn, hnv⟩ := SpaceInv.carves_deref hc
    have hefree := (h.freeAttr_of_fits he (fits_of_chosen hc.fits)).1
    have hm' := h'
    rw [Carving.list_append] at hm'
    obtain ⟨l'', hl'', h''⟩ := hm'.mark (hpieces.free k.region (by simp [Carving.list]))
    rw [Nat.min_eq_left hwr] at hmin
    refine ⟨some k.region.addr, l', hc.result, ⟨fun _ => ⟨e.val, hmem, hesuits⟩, by simp⟩, ?_⟩
    rintro a -
    refine ⟨n, l'', hn, hl'', by rw [hnv, hmin, wanted_eq hsize], ?_, ?_⟩
    · by_cases hb : base = 0
      · rw [if_pos hb]
        subst hb
        refine ⟨e.val, hmem, hesuits, ?_, fun t ht hst => ?_⟩
        · rw [hnv, hplace]
          simp [Carving.place]
        · have htc := (hsuits t ht).2 hst
          rw [h.layout.toList] at ht
          obtain ⟨f, hf, rfl⟩ := List.mem_map.1 ht
          exact h.candidate_lowest hc.candidate hf htc
      · rw [if_neg hb, hnv, hplace, Carving.place, if_pos hb]
    · intro x hx
      rw [hnv] at hx
      refine h.freeAt_carves hc.split hefree hpieces h' h'' fun hin => hx ⟨hin.1, ?_⟩
      omega

/-- The search from the bottom keeps its promise exactly under `LowOk`. -/
theorem allocsLow_iff (hlt : room < 2 ^ 64) (hstart : start room = some s₀)
    (hrun : Run (When InRange fun s c t => s.step c = some t) s₀ calls s)
    (hbase : base % VMBLOCK_AT_ALIGN = 0) (hpos : 0 < size)
    (hsize : size ≤ 2 ^ 64 - VMBLOCK_AT_ALIGN) : s.AllocsLow base size ↔ s.LowOk base size := by
  obtain ⟨es, h⟩ := spaceInv_run hlt hstart hrun
  exact ⟨lowOk_of_allocsLow h hbase hpos hsize, allocsLow_of_lowOk h hbase hsize⟩

/-- A range at a base in the space between two regions that were given. -/
theorem allocsLow_between : ∃ s₀ s, start 0x100000 = some s₀ ∧
    Run (When InRange fun s c t => s.step c = some t) s₀ earlierCalls.reverse s ∧
    s.AllocsLow 0x80000 0x11000 := by
  have heval : ((start 0x100000).bind fun s =>
      runAll (fun s c => if s.InRange c then s.step c else none) s earlierCalls).any (fun s =>
        s.LowOk 0x80000 0x11000) = true := by
    decide +kernel
  obtain ⟨s, hs, hok⟩ := (Option.any_eq_true _ _).1 heval
  obtain ⟨s₀, hs₀, hcalls⟩ := Option.bind_eq_some_iff.1 hs
  have hrun := run_when_of_runAll hcalls
  exact ⟨s₀, s, hs₀, hrun, (allocsLow_iff (by decide) hs₀ hrun (by decide) (by decide)
    (by decide)).2 (of_decide_eq_true hok)⟩

/-- A range that ends with its region is not found. -/
theorem alloc_misses_exact_fit :
    ¬ ∀ (room : Nat) (s₀ s : Sections) (calls : List SectionCall) (base size : Nat),
      room % 0x10000 = 0 → room < 2 ^ 64 → start room = some s₀ →
      Run (fun s c t => s.step c = some t) s₀ calls s → base % 0x10000 = 0 → base < 2 ^ 64 →
      0 < size → size ≤ 2 ^ 64 - 0x10000 → s.AllocsLow base size := by
  intro hall
  have heval : (start 0x100000).any (fun s => (s.space.allocSectionAddress 0xF0000 0x10000 false).any
      (fun v => v.1.isNone) ∧ s.space.toList.any fun r =>
        r.attr &&& WVM_TYPE_MASK = MEM_FREE ∧ r.base = 0 ∧ r.size = 0x100000) = true := by
    decide +kernel
  obtain ⟨s, hs, hv⟩ := (Option.any_eq_true _ _).1 heval
  obtain ⟨hnull, hregion⟩ : (s.space.allocSectionAddress 0xF0000 0x10000 false).any
      (fun v => v.1.isNone) = true ∧ (s.space.toList.any fun r =>
        r.attr &&& WVM_TYPE_MASK = MEM_FREE ∧ r.base = 0 ∧ r.size = 0x100000) = true := by
    simpa using hv
  obtain ⟨⟨p, l⟩, hal, hp⟩ := (Option.any_eq_true _ _).1 hnull
  obtain ⟨r, hr, hvals⟩ := List.any_eq_true.1 hregion
  obtain ⟨hfree, hrb, hrs⟩ : r.attr &&& WVM_TYPE_MASK = MEM_FREE ∧ r.base = 0 ∧
      r.size = 0x100000 := by simpa using hvals
  obtain rfl : p = none := by simpa using hp
  obtain ⟨p', l', hal', hiff, -⟩ := hall 0x100000 s s [] 0xF0000 0x10000 (by decide) (by decide) hs
    Run.nil (by decide) (by decide) (by decide) (by decide)
  obtain ⟨rfl, -⟩ : none = p' ∧ l = l' := by simpa [hal] using hal'
  refine hiff.2 ⟨r, hr, ⟨hfree, by rw [hrb]; decide⟩, ?_⟩ rfl
  rw [if_neg (by decide)]
  refine ⟨by omega, ?_⟩
  have hreq : roundUp 0x10000 VMBLOCK_AT_ALIGN = 0x10000 := by decide
  rw [hreq]
  omega

end Sections

end Vin64.Space
