import Vin64.Space.Proofs.Links

/-!
# Allocating and freeing sections

`SpaceInv` is kept by every split: the regions tile the room and every `_prev` points to a
region before.  It says nothing of the immediate neighbour, because `linkNext` leaves the
`_prev` of the region behind an insertion as it was.
-/

namespace Vin64.Space

open Vin64.Utils Vin64.Utils.Dllist Vin64.Lib AddressSpace

/-- The space `l` consists of the regions `es`. -/
structure SpaceInv (room : Nat) (l : AddressSpace) (es : List (Entry VMRegion)) : Prop
    extends LinkInv l es where
  tiles : Extent.Tiles 0 (es.map Entry.val) room
  room_lt : room < 2 ^ 64

/-- No region of `es` that is in use is added, changed or removed in `es'`. -/
def SameLive (es es' : List (Entry VMRegion)) : Prop :=
  ∀ e : Entry VMRegion, e.val.attr = liveAttr → (e ∈ es ↔ e ∈ es')

/-- No region is empty. -/
def AllPos (es : List (Entry VMRegion)) : Prop := ∀ e ∈ es, 0 < e.val.size

namespace SpaceInv

variable {room : Nat} {l : AddressSpace} {es xs ys : List (Entry VMRegion)} {e : Entry VMRegion}

theorem stop_le (h : SpaceInv room l es) (he : e ∈ es) : e.val.base + e.val.size ≤ room :=
  (h.tiles.mem (List.mem_map_of_mem he)).2

/-! ## Allocating -/

/-- The range of a call lies in the region it carves, unless its end wraps. -/
theorem range_of_chosen {base required : Nat} {r : VMRegion} {top : Bool}
    (h : chosen base required r = true) (hstop : Extent.stop r < 2 ^ 64)
    (hrange : base ≠ 0 → base + required < 2 ^ 64) :
    base ≠ 0 → direction base top = false ∧ r.base ≤ base ∧ base + required < Extent.stop r := by
  intro hb
  simp only [chosen, Bool.decide_and, Bool.and_eq_true, decide_eq_true_eq] at h
  obtain ⟨hlo, -, hhi⟩ := h.2 hb
  have hend : add64 r.base r.size = Extent.stop r := add64_eq hstop
  rw [hend, add64_eq (hrange hb)] at hhi
  exact ⟨by simp [direction, hb], hlo, hhi⟩

/-- A call that carves a region keeps the tiling and the regions in use. -/
theorem carves (h : SpaceInv room l es) {base size : Nat} {top : Bool} {k : Carving}
    {l' : AddressSpace} (hc : LinkInv.Carves l es base size top xs e ys k l')
    (hrange : base ≠ 0 → base + required size < 2 ^ 64) :
    SpaceInv room l' (xs ++ (k.list ++ ys)) ∧ Carving.Pieces e k ∧
      SameLive es (xs ++ (k.list ++ ys)) := by
  obtain rfl := hc.split
  obtain ⟨c₁, c₂, c₃, hk⟩ := hc.carved
  have he : e ∈ xs ++ e :: ys := by simp
  have hstop : Extent.stop e.val < 2 ^ 64 := Nat.lt_of_le_of_lt (h.stop_le he) h.room_lt
  obtain ⟨hfree, hreq⟩ := h.freeAttr_of_fits he (fits_of_chosen hc.fits)
  have hin := @range_of_chosen _ _ _ top hc.fits hstop hrange
  have hpieces : Carving.Pieces e k := by
    rw [hk]
    refine Carving.carved_pieces hfree hstop hreq fun hb => ?_
    obtain ⟨htop, hlo, hhi⟩ := hin hb
    exact ⟨htop, hlo, Nat.le_of_lt hhi⟩
  refine ⟨⟨hc.inv, ?_, h.room_lt⟩, hpieces, ?_⟩
  · have htiles := h.tiles
    have hk' := hpieces.tiles
    have htotal := hk'.stop_eq
    simp only [List.map_append, List.map_cons] at htiles ⊢
    rw [Extent.tiles_append] at htiles ⊢
    obtain ⟨hfront, hbase, hback⟩ := htiles
    have hebase : e.val.base = 0 + Extent.total (xs.map Entry.val) := hbase
    rw [hebase] at hk' htotal
    refine ⟨hfront, Extent.tiles_append.2 ⟨?_, ?_⟩⟩
    · rw [← htotal]
      exact hk'
    · rw [← htotal]
      have hstop_eq : Extent.stop e.val = 0 + Extent.total (xs.map Entry.val) +
          Extent.size e.val := by
        rw [← hbase]
        rfl
      rw [hstop_eq]
      exact hback
  · intro y hy
    have hye : y ≠ e := by
      rintro rfl
      exact freeAttr_ne_liveAttr (hfree.symm.trans hy)
    have hyk : y ∉ k.list := fun hm =>
      freeAttr_ne_liveAttr ((hpieces.free y hm).symm.trans hy)
    simp [hye, hyk]

/-- The regions stay positive, unless nothing is wanted or a whole region is taken. -/
theorem carves_pos (h : SpaceInv room l es) {base size : Nat} {top : Bool} {k : Carving}
    {l' : AddressSpace} (hc : LinkInv.Carves l es base size top xs e ys k l')
    (hrange : base ≠ 0 → base + required size < 2 ^ 64) (hpos : 0 < required size)
    (hne : base = 0 → required size ≠ e.val.size) (hall : AllPos es) :
    AllPos (xs ++ (k.list ++ ys)) := by
  obtain rfl := hc.split
  obtain ⟨c₁, c₂, c₃, hk⟩ := hc.carved
  have he : e ∈ xs ++ e :: ys := by simp
  have hstop : Extent.stop e.val < 2 ^ 64 := Nat.lt_of_le_of_lt (h.stop_le he) h.room_lt
  obtain ⟨hfree, hreq⟩ := h.freeAttr_of_fits he (fits_of_chosen hc.fits)
  have hwanted : 0 < wanted size := by
    by_contra hz
    have hz : wanted size = 0 := by omega
    have hrz : required size = 0 := by simp only [required, hz]; decide
    omega
  have hk' := @Carving.carved_pos e base (wanted size) (required size) c₁ c₂ c₃
    (direction base top) hfree hstop hreq (range_of_chosen hc.fits hstop hrange) hwanted hpos hne
  rw [← hk] at hk'
  intro y hy
  simp only [List.mem_append] at hy
  rcases hy with hy | hy | hy
  · exact hall y (by simp [hy])
  · exact hk' y hy
  · exact hall y (by simp [hy])

theorem mark (h : SpaceInv room l (xs ++ e :: ys)) (hfree : e.val.attr = freeAttr) :
    ∃ l', Sections.mark l (some e.addr) = some l' ∧
      SpaceInv room l' (xs ++ { e with val := { e.val with attr := liveAttr } } :: ys) := by
  obtain ⟨l', hl', h'⟩ := h.toLinkInv.mark hfree
  refine ⟨l', hl', h', ?_, h.room_lt⟩
  have htiles := h.tiles
  simp only [List.map_append, List.map_cons] at htiles ⊢
  rw [Extent.tiles_append] at htiles ⊢
  exact htiles

/-! ## Freeing -/

/-- Freeing the first region absorbs all others, whatever their state. -/
theorem freeSection_first {ms : List (Entry VMRegion)} (h : SpaceInv room l (e :: ms)) :
    ∃ l', freeSection l (some e.addr) = some (0, l') ∧
      SpaceInv room l' [⟨e.addr, none, ⟨0, room, freeAttr, Dllist.empty⟩⟩] := by
  have hbase : e.val.base = 0 := h.tiles.1
  have hroom := h.room_lt
  have htotal := h.tiles.stop_eq
  simp only [List.map_cons, Extent.total_cons, show Extent.size e.val = e.val.size from rfl]
    at htotal
  obtain ⟨l', hl', h'⟩ := h.toLinkInv.freeSection_first (show e.val.size < 2 ^ 64 by omega)
  rw [hbase, Nat.mod_eq_of_lt (by omega), show e.val.size + Extent.total (ms.map Entry.val) = room
    by omega] at h'
  refine ⟨l', hl', h', ⟨rfl, ?_⟩, hroom⟩
  show 0 + room = room
  omega

/-- A call that frees nothing. -/
theorem step_free_none {s : Sections} (h : SpaceInv room s.space es) {base : Nat}
    (hok : base &&& (VMBLOCK_AT_ALIGN - 1) = 0 → ∀ r ∈ s.space.toList, r.base ≠ base) :
    s.step (.free base) = some s := by
  obtain ⟨p, hp, hfound⟩ := h.findSectionAddress_spec base
  by_cases ha : base &&& (VMBLOCK_AT_ALIGN - 1) = 0
  · have hpn : p = none := by
      by_contra hne
      obtain ⟨a, rfl⟩ := Option.ne_none_iff_exists'.1 hne
      obtain ⟨y, hy, -, hyb⟩ := hfound a rfl
      refine hok ha y.val ?_ hyb
      rw [h.layout.toList]
      exact List.mem_map_of_mem hy
    subst hpn
    simp [Sections.step, hp, freeSectionAddress, ha]
  · simp only [Sections.step, hp, freeSectionAddress, Option.bind_eq_bind, Option.bind_some]
    rw [if_pos ha]
    rfl

/-- A call that frees the first region. -/
theorem step_free_zero {s : Sections} (h : SpaceInv room s.space (e :: ys)) :
    ∃ l', s.step (.free 0) = some ⟨l', s.live.filter fun a => some a ≠ some e.addr⟩ ∧
      SpaceInv room l' [⟨e.addr, none, ⟨0, room, freeAttr, Dllist.empty⟩⟩] := by
  obtain ⟨l', hl', h'⟩ := h.freeSection_first
  refine ⟨l', ?_, h'⟩
  simp only [Sections.step, h.toLinkInv.findSectionAddress_first h.tiles.1, freeSectionAddress,
    Option.bind_eq_bind, Option.bind_some]
  rw [if_neg (by decide), if_neg (by simp), hl']
  rfl

end SpaceInv

/-! ## Runs -/

namespace Sections

variable {room : Nat} {s t : Sections}

/-- The live regions are the marked ones. -/
def LiveInv (room : Nat) (s : Sections) : Prop :=
  ∃ es, SpaceInv room s.space es ∧
    ∀ a, a ∈ s.live ↔ ∃ e ∈ es, e.addr = a ∧ e.val.attr = liveAttr

def TilesInv (room : Nat) (s : Sections) : Prop :=
  ∃ es, SpaceInv room s.space es ∧ AllPos es

theorem start_inv (hlt : room < 2 ^ 64) (hs : start room = some s) :
    ∃ e, SpaceInv room s.space [e] ∧ e.val = ⟨0, room, freeAttr, Dllist.empty⟩ ∧ s.live = [] := by
  obtain ⟨h₁, hc₁⟩ := (@layout_empty VMRegion).new ⟨0, room, freeAttr, Dllist.empty⟩
  obtain ⟨l, hl, h₂⟩ := h₁.setFirst hc₁
  have hinit : AddressSpace.init room = some l := hl
  have : s = ⟨l, []⟩ := by
    simpa [start, hinit] using hs.symm
  subst this
  refine ⟨_, ⟨⟨h₂, ⟨Or.inl ⟨rfl, rfl⟩, trivial⟩, by simp, by simp, by simp⟩, ⟨rfl, ?_⟩, hlt⟩,
    rfl, rfl⟩
  show 0 + room = room
  omega

theorem region_of_links {es : List (Entry VMRegion)} (h : LinkInv s.space es)
    {e : Entry VMRegion} (he : e ∈ es) : s.region e.addr = some e.val := by
  obtain ⟨xs, ys, rfl⟩ := List.append_of_mem he
  simp [region, h.layout.deref]

theorem region_eq {es : List (Entry VMRegion)} (h : SpaceInv room s.space es)
    {e : Entry VMRegion} (he : e ∈ es) : s.region e.addr = some e.val :=
  region_of_links h.toLinkInv he

theorem LiveInv.liveDisjoint (h : LiveInv room s) : LiveDisjoint room s := by
  obtain ⟨es, h, hlive⟩ := h
  constructor
  · intro a ha
    obtain ⟨e, he, rfl, -⟩ := (hlive a).1 ha
    exact ⟨e.val, region_eq h he, h.stop_le he⟩
  · intro a ha b hb hab r t hr ht
    obtain ⟨e, he, rfl, -⟩ := (hlive a).1 ha
    obtain ⟨f, hf, rfl, -⟩ := (hlive b).1 hb
    obtain rfl : e.val = r := by simpa [region_eq h he] using hr
    obtain rfl : f.val = t := by simpa [region_eq h hf] using ht
    obtain ⟨xs, ys, rfl⟩ := List.append_of_mem he
    have htiles := h.tiles
    simp only [List.map_append, List.map_cons] at htiles
    simp only [List.mem_append, List.mem_cons] at hf
    rcases hf with hf | rfl | hf
    · right
      obtain ⟨us, vs, rfl⟩ := List.append_of_mem hf
      simp only [List.map_append, List.map_cons, List.append_assoc, List.cons_append] at htiles
      exact htiles.stop_le (List.mem_append_right _ List.mem_cons_self)
    · exact absurd rfl hab
    · left
      exact htiles.stop_le (List.mem_map_of_mem hf)

/-- What a call that meets `LiveOk` does. -/
theorem LiveInv.step (h : LiveInv room s) {c : SectionCall} (hok : s.LiveOk c) :
    ∃ t, s.step c = some t ∧ LiveInv room t ∧ KeepsLive s t := by
  obtain ⟨es, h, hlive⟩ := h
  cases c with
  | alloc base size top =>
      rcases h.toLinkInv.alloc base size top with ⟨hnull, -⟩ | ⟨xs, e, ys, k, l', hc⟩
      · exact ⟨s, by simp [Sections.step, hnull], ⟨es, h, hlive⟩, fun a _ _ => rfl⟩
      · obtain ⟨h', hpieces, hsame⟩ := h.carves hc (hok hc.aligned e.val hc.candidate)
        have hl' := hc.result
        have hfree := hpieces.free k.region (by simp [Carving.list])
        rw [Carving.list_append] at h' hsame
        generalize xs ++ k.front = xs at h' hsame
        generalize k.region = f at h' hsame hl' hfree
        generalize k.back ++ ys = ys at h' hsame
        obtain ⟨l'', hl'', h''⟩ := h'.mark hfree
        have hkeep : ∀ e : Entry VMRegion, e.val.attr = liveAttr → e ∈ es →
            e ∈ xs ++ { f with val := { f.val with attr := liveAttr } } :: ys := by
          intro e ha he
          have := (hsame e ha).1 he
          simp only [List.mem_append, List.mem_cons] at this ⊢
          rcases this with he | rfl | he
          · exact Or.inl he
          · exact absurd (hfree.symm.trans ha) freeAttr_ne_liveAttr
          · exact Or.inr (Or.inr he)
        refine ⟨⟨l'', f.addr :: s.live⟩, by simp [Sections.step, hl', hl''],
          ⟨_, h'', fun a => ?_⟩, ?_⟩
        · simp only [List.mem_cons]
          constructor
          · rintro (rfl | ha)
            · exact ⟨{ f with val := { f.val with attr := liveAttr } }, by simp, rfl, rfl⟩
            · obtain ⟨e, he, hea, hattr⟩ := (hlive a).1 ha
              exact ⟨e, hkeep e hattr he, hea, hattr⟩
          · rintro ⟨e, he, rfl, hattr⟩
            simp only [List.mem_append, List.mem_cons] at he
            rcases he with he | rfl | he
            · exact Or.inr ((hlive _).2 ⟨e, (hsame e hattr).2 (by simp [he]), rfl, hattr⟩)
            · exact Or.inl rfl
            · exact Or.inr ((hlive _).2 ⟨e, (hsame e hattr).2 (by simp [he]), rfl, hattr⟩)
        · intro a ha _
          obtain ⟨e, he, rfl, hattr⟩ := (hlive a).1 ha
          rw [region_eq h he]
          exact @region_eq room ⟨l'', f.addr :: s.live⟩ _ h'' e (hkeep e hattr he)
  | free base =>
      by_cases hnone : base &&& (VMBLOCK_AT_ALIGN - 1) = 0 → ∀ r ∈ s.space.toList, r.base ≠ base
      · exact ⟨s, h.step_free_none hnone, ⟨es, h, hlive⟩, fun a _ _ => rfl⟩
      · obtain ⟨ha, hfound⟩ := Classical.not_imp.1 hnone
        obtain ⟨rfl, halone⟩ := (hok ha).resolve_left hfound
        obtain ⟨e, ys, rfl⟩ := List.exists_cons_of_ne_nil h.ne_nil
        obtain ⟨l', hstep, h'⟩ := h.step_free_zero
        have hnil : (s.live.filter fun a => some a ≠ some e.addr) = [] := by
          rw [List.filter_eq_nil_iff]
          intro a ha
          have := halone a ha
          rw [h.layout.first] at this
          simpa using this.symm
        rw [hnil] at hstep
        refine ⟨_, hstep, ⟨_, h', fun a => ?_⟩, fun a _ ha => by cases ha⟩
        simp [freeAttr_ne_liveAttr]

theorem LiveInv.run (hlt : room < 2 ^ 64) {s₀ : Sections} (hstart : start room = some s₀)
    {calls : List SectionCall}
    (hrun : Run (When LiveOk fun s c t => s.step c = some t) s₀ calls s) : LiveInv room s := by
  refine hrun.invariant ?_ fun s c t hs hstep => ?_
  · obtain ⟨e, he, hval, hlive⟩ := start_inv hlt hstart
    exact ⟨[e], he, fun a => by simp [hlive, hval, freeAttr_ne_liveAttr]⟩
  · obtain ⟨t', ht', hinv, -⟩ := hs.step hstep.1
    obtain rfl : t' = t := Option.some_inj.1 (ht'.symm.trans hstep.2)
    exact hinv

/-- The regions that were returned and not yet freed stay apart and are left alone, in every
run whose calls all meet `LiveOk`. -/
theorem run_keepsLive (hlt : room < 2 ^ 64) {s₀ : Sections}
    (hstart : start room = some s₀) {calls : List SectionCall}
    (hrun : Run (When LiveOk fun s c t => s.step c = some t) s₀ calls s) :
    LiveDisjoint room s ∧ ∀ c, s.LiveOk c → ∃ t, s.step c = some t ∧ KeepsLive s t := by
  have hinv := LiveInv.run hlt hstart hrun
  refine ⟨hinv.liveDisjoint, fun c hok => ?_⟩
  obtain ⟨t, ht, -, hkeeps⟩ := hinv.step hok
  exact ⟨t, ht, hkeeps⟩

/-- A region is given and freed, and three are given after it, at the bottom, at a base and at the
top; no region starts at the last base. -/
def severalCalls : List SectionCall :=
  [.alloc 0 0x10000 false, .free 0, .alloc 0 0x2000 false, .alloc 0x40000 0x20000 false,
    .alloc 0 0x1000 true, .free 0x50000]

theorem run_keepsLive_several : ∃ s₀ s, start 0x100000 = some s₀ ∧
    Run (When LiveOk fun s c t => s.step c = some t) s₀ severalCalls.reverse s ∧
    s.live = [6, 4, 0] ∧ LiveDisjoint 0x100000 s := by
  have heval : ((start 0x100000).bind fun s =>
      runAll (fun s c => if s.LiveOk c then s.step c else none) s severalCalls).any
      (fun s => s.live = [6, 4, 0]) = true := by decide +kernel
  obtain ⟨s, hs, hlive⟩ := (Option.any_eq_true _ _).1 heval
  obtain ⟨s₀, hs₀, hcalls⟩ := Option.bind_eq_some_iff.1 hs
  have hrun := run_when_of_runAll hcalls
  exact ⟨s₀, s, hs₀, hrun, by simpa using hlive, (run_keepsLive (by decide) hs₀ hrun).1⟩

/-- Freeing the first of two regions absorbs and deletes the second one. -/
theorem free_absorbs_live :
    ¬ ∀ (room : Nat) (s₀ s : Sections) (calls : List SectionCall), 0 < room →
      room % 0x10000 = 0 → room < 2 ^ 64 → start room = some s₀ →
      Run (fun s c t => s.step c = some t) s₀ calls s →
      LiveDisjoint room s ∧ ∀ c, ∃ t, s.step c = some t ∧ KeepsLive s t := by
  intro hall
  have heval : ((start 0x100000).bind fun s => runAll step s
      [.alloc 0 0x10000 false, .alloc 0 0x10000 false, .free 0]).any
      (fun s => s.live = [1] ∧ (s.region 1).isNone) = true := by decide +kernel
  obtain ⟨s, hs, hlive⟩ := (Option.any_eq_true _ _).1 heval
  obtain ⟨s₀, hs₀, hcalls⟩ := Option.bind_eq_some_iff.1 hs
  obtain ⟨hlive, hgone⟩ : s.live = [1] ∧ s.region 1 = none := by simpa using hlive
  have hrun := run_of_runAll (Run.nil (s := s₀)) hcalls
  have hdisj := (hall 0x100000 s₀ s _ (by decide) (by decide) (by decide) hs₀ hrun).1
  obtain ⟨r, hr, -⟩ := hdisj.1 1 (by simp [hlive])
  rw [hgone] at hr
  cases hr

theorem TilesInv.tilesRoom (h : TilesInv room s) : TilesRoom room s := by
  obtain ⟨es, h, hpos⟩ := h
  refine ⟨?_, ?_, ?_⟩
  · rw [h.layout.toList]
    exact h.tiles
  · rw [h.layout.toList]
    intro r hr
    obtain ⟨e, he, rfl⟩ := List.mem_map.1 hr
    exact hpos e he
  · obtain ⟨xs, e, rfl⟩ : ∃ xs e, es = xs ++ [e] :=
      ⟨_, _, (List.dropLast_append_getLast h.ne_nil).symm⟩
    rw [h.layout.last, h.layout.toList]
    simp [h.layout.deref]

/-- What a call that meets `TilesOk` does. -/
theorem TilesInv.step (h : TilesInv room s) {c : SectionCall} (hok : s.TilesOk c) :
    ∃ t, s.step c = some t ∧ TilesInv room t := by
  obtain ⟨es, h, hpos⟩ := h
  cases c with
  | alloc base size top =>
      rcases h.toLinkInv.alloc base size top with ⟨hnull, -⟩ | ⟨xs, e, ys, k, l', hc⟩
      · exact ⟨s, by simp [Sections.step, hnull], es, h, hpos⟩
      · have hrange := hok.1 hc.aligned e.val hc.candidate
        obtain ⟨h', hpieces, -⟩ := h.carves hc hrange
        obtain ⟨hreq, hne⟩ := hok.2 hc.aligned e.val hc.candidate
        have hpos'' := h.carves_pos hc hrange hreq hne hpos
        have hl' := hc.result
        have hfree := hpieces.free k.region (by simp [Carving.list])
        rw [Carving.list_append] at h' hpos''
        generalize xs ++ k.front = xs at h' hpos''
        generalize k.region = f at h' hpos'' hl' hfree
        generalize k.back ++ ys = ys at h' hpos''
        obtain ⟨l'', hl'', h''⟩ := h'.mark hfree
        refine ⟨⟨l'', f.addr :: s.live⟩, by simp [Sections.step, hl', hl''], _, h'', ?_⟩
        intro e he
        simp only [List.mem_append, List.mem_cons] at he
        rcases he with he | rfl | he
        · exact hpos'' e (by simp [he])
        · exact hpos'' f (by simp)
        · exact hpos'' e (by simp [he])
  | free base =>
      by_cases hnone : base &&& (VMBLOCK_AT_ALIGN - 1) = 0 → ∀ r ∈ s.space.toList, r.base ≠ base
      · exact ⟨s, h.step_free_none hnone, es, h, hpos⟩
      · obtain ⟨ha, hfound⟩ := Classical.not_imp.1 hnone
        obtain rfl := (hok ha).resolve_left hfound
        obtain ⟨e, ys, rfl⟩ := List.exists_cons_of_ne_nil h.ne_nil
        obtain ⟨l', hstep, h'⟩ := h.step_free_zero
        refine ⟨_, hstep, _, h', fun y hy => ?_⟩
        obtain rfl := List.mem_singleton.1 hy
        have hsize := hpos e (by simp)
        have hstop := h.stop_le (e := e) (by simp)
        show 0 < room
        omega

/-- The regions tile the room in every run whose calls all meet `TilesOk`. -/
theorem run_tilesRoom (hroom : 0 < room) (hlt : room < 2 ^ 64) {s₀ : Sections}
    (hstart : start room = some s₀) {calls : List SectionCall}
    (hrun : Run (When TilesOk fun s c t => s.step c = some t) s₀ calls s) :
    TilesRoom room s ∧ ∀ c, s.TilesOk c → ∃ t, s.step c = some t := by
  have hinv : TilesInv room s := by
    refine hrun.invariant ?_ fun s c t hs hstep => ?_
    · obtain ⟨e, he, hval, -⟩ := start_inv hlt hstart
      refine ⟨[e], he, fun y hy => ?_⟩
      obtain rfl := List.mem_singleton.1 hy
      rw [hval]
      exact hroom
    · obtain ⟨t', ht', hinv⟩ := hs.step hstep.1
      obtain rfl : t' = t := Option.some_inj.1 (ht'.symm.trans hstep.2)
      exact hinv
  refine ⟨hinv.tilesRoom, fun c hok => ?_⟩
  obtain ⟨t, ht, -⟩ := hinv.step hok
  exact ⟨t, ht⟩

/-- The first region is freed while others are live. -/
theorem run_tilesRoom_several : ∃ s₀ s, start 0x100000 = some s₀ ∧
    Run (When TilesOk fun s c t => s.step c = some t) s₀
      [.alloc 0 0x3000 false, .free 0, .alloc 0 0x1000 true, .alloc 0x40000 0x20000 false,
        .alloc 0 0x2000 false] s ∧ s.live.length = 3 ∧ TilesRoom 0x100000 s := by
  have heval : ((start 0x100000).bind fun s =>
      runAll (fun s c => if s.TilesOk c then s.step c else none) s
        [.alloc 0 0x2000 false, .alloc 0x40000 0x20000 false, .alloc 0 0x1000 true, .free 0,
          .alloc 0 0x3000 false]).any (fun s => s.live.length = 3) = true := by decide +kernel
  obtain ⟨s, hs, hlive⟩ := (Option.any_eq_true _ _).1 heval
  obtain ⟨s₀, hs₀, hcalls⟩ := Option.bind_eq_some_iff.1 hs
  have hrun := run_when_of_runAll hcalls
  exact ⟨s₀, s, hs₀, hrun, by simpa using hlive, (run_tilesRoom (by decide) (by decide) hs₀ hrun).1⟩

/-- An allocation that fills the room leaves an empty region behind. -/
theorem exact_fit_leaves_empty :
    ¬ ∀ (room : Nat) (s₀ s : Sections) (calls : List SectionCall), 0 < room →
      room % 0x10000 = 0 → room < 2 ^ 64 → start room = some s₀ →
      Run (fun s c t => s.step c = some t) s₀ calls s → TilesRoom room s := by
  intro hall
  have heval : ((start 0x10000).bind fun s => runAll step s [.alloc 0 0x10000 false]).any
      (fun s => s.space.toList.any fun r => r.size = 0) = true := by decide +kernel
  obtain ⟨s, hs, hempty⟩ := (Option.any_eq_true _ _).1 heval
  obtain ⟨s₀, hs₀, hcalls⟩ := Option.bind_eq_some_iff.1 hs
  obtain ⟨r, hr, hz⟩ := List.any_eq_true.1 hempty
  have htiles := hall 0x10000 s₀ s _ (by decide) (by decide) (by decide) hs₀
    (run_of_runAll (Run.nil (s := s₀)) hcalls)
  have hpos := htiles.2.1 r hr
  have hz : r.size = 0 := by simpa using hz
  omega

end Sections

end Vin64.Space
