import Vin64.Vx64.FlatView

/-!
# Rendering shows what the tree means

At every address the view has what the tree of regions resolves to, and no assertion fails.
Merging changes no address, and leaves no two neighbours that could be merged.
-/

namespace Vin64.Vx64

open Vin64.Lib Vin64.Lib.Ranges

variable {f : RegionFields} {view view' : FlatView} {base remain a b : Int} {readonly : Bool}
  {offset : BitVec 64} {clip : AddrRange}

theorem int128Get64_of_lt {n : Int} (h : 0 ≤ n) (h' : n < 18446744073709551616) :
    int128Get64 n = some n.toNat := if_pos ⟨h, h'⟩

/-! ## The gaps -/

/-- The view is in order from an address on. -/
abbrev FlatView.From (b : Int) (view : FlatView) : Prop :=
  Ranges.From (·.addr.start) (·.addr.stop) b view

/-- What a region that starts at `base` shows at an address. -/
def RegionFields.hit (f : RegionFields) (readonly : Bool) (base a : Int) : Hit :=
  ⟨f.mr, a - base, f.dirtyLogMask, f.readable, readonly⟩

theorem hit_flatRange (f : RegionFields) (readonly : Bool) (offset : BitVec 64) (r : AddrRange)
    (a : Int) :
    (f.flatRange readonly offset r).hit a = f.hit readonly (r.start - offset.toNat) a := by
  have hoffset : (offset.toNat : Int) + (a - r.start) = a - (r.start - offset.toNat) := by omega
  exact congrArg (Hit.mk f.mr · f.dirtyLogMask f.readable readonly) hoffset

/-- What the region shows from `base` on. -/
def RegionFields.shown (f : RegionFields) (readonly : Bool) (base : Int) (offset : BitVec 64)
    (remain a : Int) : Option Hit :=
  if base ≤ a ∧ a < base + remain then some (f.hit readonly (base - offset.toNat) a) else none

theorem shown_of_outside (h : a < base ∨ base + remain ≤ a) :
    f.shown readonly base offset remain a = none := if_neg fun hc => by omega

/-- The part that is still to be rendered shows the same. -/
theorem shown_advance {now : Int} (hnow : 0 ≤ now)
    (hfits : offset.toNat + remain ≤ 18446744073709551616) (ha : base + now ≤ a) :
    f.shown readonly (base + now) (offset + BitVec.ofNat 64 now.toNat) (remain - now) a =
      f.shown readonly base offset remain a := by
  by_cases hin : a < base + remain
  · have hoffset : ((offset + BitVec.ofNat 64 now.toNat).toNat : Int) = offset.toNat + now := by
      rw [BitVec.toNat_add, BitVec.toNat_ofNat]
      omega
    have hstart : base + now - (offset + BitVec.ofNat 64 now.toNat).toNat =
        base - offset.toNat := by omega
    unfold RegionFields.shown
    rw [if_pos ⟨ha, by omega⟩, if_pos ⟨by omega, hin⟩, hstart]
  · rw [shown_of_outside (.inr (by omega)), shown_of_outside (.inr (by omega))]

theorem fits_advance {now : Int} (hnow : 0 ≤ now)
    (hfits : offset.toNat + remain ≤ 18446744073709551616) :
    ((offset + BitVec.ofNat 64 now.toNat).toNat : Int) + (remain - now) ≤
      18446744073709551616 := by
  have hsum : (offset + BitVec.ofNat 64 now.toNat).toNat ≤ offset.toNat + now.toNat := by
    rw [BitVec.toNat_add, BitVec.toNat_ofNat]
    have hmod := Nat.mod_le (offset.toNat + now.toNat % 2 ^ 64) (2 ^ 64)
    have hmod' := Nat.mod_le now.toNat (2 ^ 64)
    omega
  omega

theorem renderGaps_zero (fr : BitVec 64 → AddrRange → FlatRange) (view : FlatView) (base : Int)
    (offset : BitVec 64) : renderGaps fr view base offset 0 = some view := by
  cases view with
  | nil => rfl
  | cons r view => exact if_pos rfl

/-- The region goes on behind a range that obscures it. -/
theorem lookup_cons_or {r : FlatRange} {rest : FlatView} {g g' : Int → Option Hit}
    (hrest : ∀ a, rest.lookup a = (view.lookup a).or (g a))
    (hsame : ∀ a, ¬ (r.addr.start ≤ a ∧ a < r.addr.stop) → g a = g' a) (a : Int) :
    FlatView.lookup (r :: rest) a = (FlatView.lookup (r :: view) a).or (g' a) := by
  by_cases hin : r.addr.start ≤ a ∧ a < r.addr.stop
  · have hfirst : ∀ view : FlatView, FlatView.lookup (r :: view) a = some (r.hit a) := fun _ =>
      if_pos hin
    rw [hfirst, hfirst]
    rfl
  · have hskip : ∀ view : FlatView, FlatView.lookup (r :: view) a = view.lookup a := fun _ =>
      if_neg hin
    rw [hskip, hskip, hrest, hsame a hin]

/-- The region fills the addresses that the view leaves free. -/
theorem renderGaps_spec (hview : FlatView.From b view) (hremain : 0 ≤ remain)
    (hbase : remain ≠ 0 → b ≤ base) (hfits : offset.toNat + remain ≤ 18446744073709551616)
    (hlt : remain < 18446744073709551616) :
    ∃ view', renderGaps (f.flatRange readonly) view base offset remain = some view' ∧
      FlatView.From b view' ∧
      ∀ a, view'.lookup a = (view.lookup a).or (f.shown readonly base offset remain a) := by
  induction view generalizing b base offset remain with
  | nil =>
      by_cases hzero : remain = 0
      · subst hzero
        refine ⟨[], rfl, trivial, fun a => ?_⟩
        rw [shown_of_outside (by omega)]
        rfl
      · refine ⟨[f.flatRange readonly offset ⟨base, remain⟩], ?_,
          ⟨hbase hzero, ?_, trivial⟩, fun a => ?_⟩
        · rw [renderGaps, if_pos hzero]
        · have hpos : base < base + remain := by omega
          exact hpos
        · have hone : FlatView.lookup [f.flatRange readonly offset ⟨base, remain⟩] a =
              if base ≤ a ∧ a < base + remain then
                some ((f.flatRange readonly offset ⟨base, remain⟩).hit a) else none := rfl
          rw [hone, hit_flatRange]
          rfl
  | cons r view ih =>
      obtain ⟨hstart, hne, htail⟩ : b ≤ r.addr.start ∧ r.addr.start < r.addr.stop ∧
        FlatView.From r.addr.stop view := hview
      by_cases hzero : remain = 0
      · subst hzero
        refine ⟨r :: view, renderGaps_zero .., ⟨hstart, hne, htail⟩, fun a => ?_⟩
        rw [shown_of_outside (by omega), Option.or_none]
      -- the range `r` obscures what is in it
      have hpass : ∀ (base : Int) (offset : BitVec 64) (remain : Int), base < r.addr.stop →
          0 ≤ remain → (remain ≠ 0 → r.addr.start ≤ base) →
          offset.toNat + remain ≤ 18446744073709551616 → remain < 18446744073709551616 →
          ∃ n rest, int128Get64 (min (base + remain) r.addr.stop - base) = some n ∧
            renderGaps (f.flatRange readonly) view
              (base + (min (base + remain) r.addr.stop - base)) (offset + BitVec.ofNat 64 n)
              (remain - (min (base + remain) r.addr.stop - base)) = some rest ∧
            FlatView.From r.addr.stop rest ∧
            ∀ a, FlatView.lookup (r :: rest) a = (FlatView.lookup (r :: view) a).or
              (f.shown readonly base offset remain a) := by
        intro base offset remain hstop hremain hbase hfits hlt
        have hnow : 0 ≤ min (base + remain) r.addr.stop - base := by omega
        have hle : min (base + remain) r.addr.stop - base ≤ remain := by omega
        have hfits' := fits_advance hnow hfits
        obtain ⟨rest, hrun, hfrom, hlookup⟩ := @ih (base +
          (min (base + remain) r.addr.stop - base)) (remain -
          (min (base + remain) r.addr.stop - base)) r.addr.stop (offset +
          BitVec.ofNat 64 (min (base + remain) r.addr.stop - base).toNat) htail (by omega)
          (fun _ => by omega) hfits' (by omega)
        refine ⟨_, rest, int128Get64_of_lt hnow (by omega), hrun, hfrom,
          lookup_cons_or hlookup fun a hout => ?_⟩
        by_cases ha : base + (min (base + remain) r.addr.stop - base) ≤ a
        · exact shown_advance hnow hfits ha
        · have hnot : a < base ∨ base + remain ≤ a := by
            by_cases hrest : remain = 0
            · omega
            · have hge := hbase hrest
              omega
          rw [shown_of_outside (.inl (by omega)), shown_of_outside hnot]
      by_cases hbehind : base ≥ r.addr.stop
      · obtain ⟨rest, hrun, hfrom, hlookup⟩ := ih htail hremain (fun _ => hbehind) hfits hlt
        refine ⟨r :: rest, ?_, ⟨hstart, hne, hfrom⟩, lookup_cons_or hlookup fun _ _ => rfl⟩
        rw [renderGaps, if_neg hzero, if_pos hbehind, hrun]
        rfl
      by_cases hgap : base < r.addr.start
      · -- the gap in front of `r`, then `r`
        have hnow : 0 ≤ min remain (r.addr.start - base) := by omega
        have hle : min remain (r.addr.start - base) ≤ remain := by omega
        obtain ⟨n, rest, hget, hrun, hfrom, hlookup⟩ :=
          hpass (base + min remain (r.addr.start - base))
            (offset + BitVec.ofNat 64 (min remain (r.addr.start - base)).toNat)
            (remain - min remain (r.addr.start - base)) (by omega) (by omega) (by omega)
            (fits_advance hnow hfits) (by omega)
        refine ⟨f.flatRange readonly offset ⟨base, min remain (r.addr.start - base)⟩ :: r :: rest,
          ?_, ⟨hbase hzero, ?_, ?_, hne, hfrom⟩, fun a => ?_⟩
        · rw [renderGaps, if_neg hzero, if_neg hbehind, if_pos hgap]
          simp only [int128Get64_of_lt hnow (by omega), hget, hrun, Option.bind_eq_bind,
            Option.bind_some]
        · have hpos : base < base + min remain (r.addr.start - base) := by omega
          exact hpos
        · have hend : base + min remain (r.addr.start - base) ≤ r.addr.start := by omega
          exact hend
        · by_cases hin : base ≤ a ∧ a < base + min remain (r.addr.start - base)
          · have hfirst : FlatView.lookup
                (f.flatRange readonly offset ⟨base, min remain (r.addr.start - base)⟩ :: r :: rest)
                a = some ((f.flatRange readonly offset
                  ⟨base, min remain (r.addr.start - base)⟩).hit a) := if_pos hin
            have hnone : FlatView.lookup (r :: view) a = none :=
              From.lookup_of_lt (b := r.addr.start) ⟨Int.le_refl _, hne, htail⟩ (by omega)
            rw [hfirst, hnone, hit_flatRange, Option.none_or, RegionFields.shown,
              if_pos ⟨hin.1, by omega⟩]
          · have hskip : FlatView.lookup
                (f.flatRange readonly offset ⟨base, min remain (r.addr.start - base)⟩ :: r :: rest)
                a = FlatView.lookup (r :: rest) a := if_neg hin
            rw [hskip, hlookup]
            by_cases ha : base + min remain (r.addr.start - base) ≤ a
            · rw [shown_advance hnow hfits ha]
            · rw [shown_of_outside (.inl (by omega)), shown_of_outside (.inl (by omega))]
      · obtain ⟨n, rest, hget, hrun, hfrom, hlookup⟩ :=
          hpass base offset remain (by omega) hremain (fun _ => by omega) hfits hlt
        refine ⟨r :: rest, ?_, ⟨hstart, hne, hfrom⟩, hlookup⟩
        rw [renderGaps, if_neg hzero, if_neg hbehind, if_neg hgap]
        simp only [hget, hrun, Option.bind_eq_bind, Option.bind_some]

/-! ## The tree -/

def AddrRange.Has (r : AddrRange) (a : Int) : Prop := r.start ≤ a ∧ a < r.stop

instance (r : AddrRange) (a : Int) : Decidable (r.Has a) := inferInstanceAs (Decidable (_ ∧ _))

theorem AddrRange.intersects_iff (r1 r2 : AddrRange) :
    r1.intersects r2 = true ↔
      r1.start ≤ r2.start ∧ r2.start < r1.stop ∨ r2.start ≤ r1.start ∧ r1.start < r2.stop := by
  simp only [AddrRange.intersects, AddrRange.contains, Bool.or_eq_true, Bool.and_eq_true,
    decide_eq_true_eq, ge_iff_le]

/-- The part of a region that can be seen. -/
structure RegionFields.Placed (f : RegionFields) (base : Int) (clip clip' : AddrRange) : Prop where
  has : ∀ a, clip'.Has a ↔ clip.Has a ∧ f.Covers base a
  start : base + f.addr.toNat ≤ clip'.start
  size : 0 ≤ clip'.size
  fits : clip'.start - (base + f.addr.toNat) + clip'.size ≤ f.size

theorem place_some {base' : Int} {clip' : AddrRange} (hsize : 0 ≤ f.size) (hclip : 0 ≤ clip.size)
    (hplace : f.place base clip = some (base', clip')) :
    base' = base + f.addr.toNat ∧ f.Placed base clip clip' := by
  simp only [RegionFields.place] at hplace
  split at hplace
  · rename_i hseen
    cases hplace
    rw [Bool.and_eq_true] at hseen
    obtain ⟨henabled, hmeet⟩ := hseen
    rw [AddrRange.intersects_iff] at hmeet
    unfold AddrRange.stop at hmeet
    dsimp only at hmeet
    refine ⟨rfl, fun a => ?_, ?_, ?_, ?_⟩
    · simp only [AddrRange.Has, AddrRange.intersection, AddrRange.stop, RegionFields.Covers,
        henabled, true_and]
      omega
    · simp only [AddrRange.intersection]
      omega
    · simp only [AddrRange.intersection, AddrRange.stop]
      omega
    · simp only [AddrRange.intersection, AddrRange.stop]
      omega
  · cases hplace

/-- What is not rendered covers nothing that can be seen. -/
theorem place_none (hclip : clip.Has a) (hplace : f.place base clip = none) :
    ¬ f.Covers base a := by
  rintro ⟨henabled, hstart, hstop⟩
  simp only [RegionFields.place] at hplace
  split at hplace
  · cases hplace
  · rename_i hunseen
    refine hunseen ?_
    rw [henabled, Bool.true_and, AddrRange.intersects_iff]
    unfold AddrRange.Has at hclip
    unfold AddrRange.stop at hclip ⊢
    dsimp only
    omega

/-- The view gets what `g` has in the clip. -/
def FlatView.Gains (view : FlatView) (clip : AddrRange) (g : Int → Option Hit)
    (view' : FlatView) : Prop :=
  view'.Sorted ∧ ∀ a, view'.lookup a = (view.lookup a).or (if clip.Has a then g a else none)

theorem FlatView.Gains.of_none {g : Int → Option Hit} (h : view.Sorted)
    (hnone : ∀ a, clip.Has a → g a = none) : view.Gains clip g view := by
  refine ⟨h, fun a => ?_⟩
  split
  · rename_i ha
    rw [hnone a ha, Option.or_none]
  · rw [Option.or_none]

theorem FlatView.Gains.trans {g g' : Int → Option Hit} {view'' : FlatView}
    (h : view.Gains clip g view') (h' : view'.Gains clip g' view'') :
    view.Gains clip (fun a => (g a).or (g' a)) view'' := by
  refine ⟨h'.1, fun a => ?_⟩
  rw [h'.2, h.2, Option.or_assoc]
  split <;> rfl

/-- The part that can be seen is all that counts. -/
theorem FlatView.Gains.placed {g g' : Int → Option Hit} {clip' : AddrRange}
    (h : view.Gains clip' g view') (hplaced : f.Placed base clip clip')
    (hg : ∀ a, g' a = if f.Covers base a then g a else none) : view.Gains clip g' view' := by
  refine ⟨h.1, fun a => ?_⟩
  rw [h.2, hg]
  have hhas := hplaced.has a
  by_cases hclip : clip.Has a
  · by_cases hcovers : f.Covers base a
    · rw [if_pos (hhas.2 ⟨hclip, hcovers⟩), if_pos hclip, if_pos hcovers]
    · rw [if_neg fun hin => hcovers (hhas.1 hin).2, if_pos hclip, if_neg hcovers]
  · rw [if_neg fun hin => hclip (hhas.1 hin).1, if_neg hclip]

/-- The region itself, behind its subregions. -/
theorem renderGaps_gains {clip' : AddrRange} (hview : view.Sorted)
    (hlt : f.size < 18446744073709551616) (hplaced : f.Placed base clip clip') :
    ∃ n view', int128Get64 (clip'.start - (base + f.addr.toNat)) = some n ∧
      renderGaps (f.flatRange readonly) view clip'.start (BitVec.ofNat 64 n) clip'.size =
        some view' ∧
      view.Gains clip' (fun a => some (f.hit readonly (base + f.addr.toNat) a)) view' := by
  have hstart := hplaced.start
  have hsize := hplaced.size
  have hfits := hplaced.fits
  obtain ⟨b, hb⟩ := hview
  by_cases hempty : clip'.start - (base + f.addr.toNat) < 18446744073709551616
  · have hmod : ((BitVec.ofNat 64 (clip'.start - (base + f.addr.toNat)).toNat).toNat : Int) =
        clip'.start - (base + f.addr.toNat) := by
      rw [BitVec.toNat_ofNat]
      omega
    obtain ⟨view', hrun, hfrom, hlookup⟩ := @renderGaps_spec f view clip'.start
      clip'.size (min b clip'.start) readonly
      (BitVec.ofNat 64 (clip'.start - (base + f.addr.toNat)).toNat) (hb.mono (by omega)) hsize (fun _ => by omega) (by omega) (by omega)
    refine ⟨_, view', int128Get64_of_lt (by omega) hempty, hrun, ⟨_, hfrom⟩, fun a => ?_⟩
    have hbase : clip'.start - (BitVec.ofNat 64 (clip'.start - (base + f.addr.toNat)).toNat).toNat =
        base + f.addr.toNat := by omega
    rw [hlookup, RegionFields.shown, hbase]
    rfl
  · omega

mutual

/-- Every address that the view left free shows what the region resolves to. -/
theorem renderMemoryRegion_gains (region : MemoryRegion) (hsized : region.Sized)
    (view : FlatView) (hview : view.Sorted) (base : Int) (clip : AddrRange)
    (hclip : 0 ≤ clip.size) (readonly : Bool) :
    ∃ view', renderMemoryRegion view region base clip readonly = some view' ∧
      view.Gains clip (region.resolve base readonly) view' := by
  cases region with
  | container f subregions =>
      obtain ⟨hsize, hlt, hsubs⟩ := hsized
      cases hplace : f.place base clip with
      | none =>
          refine ⟨view, by simp only [renderMemoryRegion, hplace], .of_none hview fun a ha => ?_⟩
          rw [MemoryRegion.resolve, if_neg (place_none ha hplace)]
      | some placed =>
          obtain ⟨base', clip'⟩ := placed
          obtain ⟨rfl, hplaced⟩ := place_some hsize hclip hplace
          obtain ⟨view₁, hrun₁, hgains₁⟩ := renderSubregions_gains subregions hsubs view hview
            (base + f.addr.toNat) clip' hplaced.size (readonly || f.readonly)
          cases hterminates : f.terminates with
          | false =>
              refine ⟨view₁, ?_, hgains₁.placed hplaced fun a => ?_⟩
              · simp only [renderMemoryRegion, hplace, hrun₁, hterminates, Option.bind_eq_bind,
                  Option.bind_some, Bool.false_eq_true, if_false]
              · rw [MemoryRegion.resolve, hterminates]
                simp only [Bool.false_eq_true, if_false, Option.or_none]
          | true =>
              obtain ⟨n, view₂, hget, hrun₂, hgains₂⟩ :=
                @renderGaps_gains f view₁ base (readonly || f.readonly) clip clip' hgains₁.1
                  (hlt hterminates) hplaced
              refine ⟨view₂, ?_, (hgains₁.trans hgains₂).placed hplaced fun a => ?_⟩
              · simp only [renderMemoryRegion, hplace, hrun₁, hterminates, hget, hrun₂,
                  Option.bind_eq_bind, Option.bind_some, if_true]
              · rw [MemoryRegion.resolve, hterminates]
                rfl
  | aliasOf f target aliasOffset =>
      obtain ⟨hsize, htarget⟩ := hsized
      cases hplace : f.place base clip with
      | none =>
          refine ⟨view, by simp only [renderMemoryRegion, hplace], .of_none hview fun a ha => ?_⟩
          rw [MemoryRegion.resolve, if_neg (place_none ha hplace)]
      | some placed =>
          obtain ⟨base', clip'⟩ := placed
          obtain ⟨rfl, hplaced⟩ := place_some hsize hclip hplace
          obtain ⟨view', hrun, hgains⟩ := renderMemoryRegion_gains target htarget view hview
            (base + f.addr.toNat - target.fields.addr.toNat - aliasOffset.toNat) clip'
            hplaced.size (readonly || f.readonly)
          refine ⟨view', by simp only [renderMemoryRegion, hplace, hrun],
            hgains.placed hplaced fun a => ?_⟩
          rw [MemoryRegion.resolve]

theorem renderSubregions_gains (subregions : List MemoryRegion) (hsized : allSized subregions)
    (view : FlatView) (hview : view.Sorted) (base : Int) (clip : AddrRange)
    (hclip : 0 ≤ clip.size) (readonly : Bool) :
    ∃ view', renderSubregions view subregions base clip readonly = some view' ∧
      view.Gains clip (resolveFirst subregions base readonly) view' := by
  cases subregions with
  | nil => exact ⟨view, rfl, .of_none hview fun _ _ => rfl⟩
  | cons subregion subregions =>
      obtain ⟨view₁, hrun₁, hgains₁⟩ := renderMemoryRegion_gains subregion hsized.1 view hview base
        clip hclip readonly
      obtain ⟨view₂, hrun₂, hgains₂⟩ := renderSubregions_gains subregions hsized.2 view₁
        hgains₁.1 base clip hclip readonly
      refine ⟨view₂, ?_, hgains₁.trans hgains₂⟩
      simp only [renderSubregions, hrun₁, hrun₂, Option.bind_eq_bind, Option.bind_some]

end

/-! ## Merging -/

variable {r r' s last : FlatRange}

/-- Two neighbours can be merged when what they show goes on. -/
theorem canMerge_iff :
    canMerge r s = true ↔ r.addr.stop = s.addr.start ∧ r.hit s.addr.start = s.hit s.addr.start := by
  simp only [canMerge, Bool.and_eq_true, decide_eq_true_eq, FlatRange.hit, Hit.mk.injEq]
  constructor
  · rintro ⟨⟨⟨⟨⟨hstop, hmr⟩, hoffset⟩, hlog⟩, hreadable⟩, hreadonly⟩
    unfold AddrRange.stop at hstop
    exact ⟨hstop, hmr, by omega, hlog, hreadable, hreadonly⟩
  · rintro ⟨hstop, hmr, hoffset, hlog, hreadable, hreadonly⟩
    have hsum : (r.offsetInRegion.toNat : Int) + r.addr.size = s.offsetInRegion.toNat := by
      unfold AddrRange.stop at hstop
      omega
    exact ⟨⟨⟨⟨⟨hstop, hmr⟩, hsum⟩, hlog⟩, hreadable⟩, hreadonly⟩

/-- What two ranges show is the same everywhere when it is at one address. -/
theorem hit_rigid (r s : FlatRange) (a b : Int) (h : r.hit a = s.hit a) : r.hit b = s.hit b := by
  simp only [FlatRange.hit, Hit.mk.injEq] at h ⊢
  exact ⟨h.1, by omega, h.2.2⟩

theorem flatRange_ext (r s : FlatRange) (hstart : r.addr.start = s.addr.start)
    (hstop : r.addr.stop = s.addr.stop) (hhit : r.hit = s.hit) : r = s := by
  have hat := congrFun hhit s.addr.start
  simp only [FlatRange.hit, Hit.mk.injEq] at hat
  unfold AddrRange.stop at hstop
  cases r with
  | mk mr offset addr log readable readonly =>
      cases s with
      | mk mr' offset' addr' log' readable' readonly' =>
          cases addr
          cases addr'
          simp only at hat hstart hstop
          obtain ⟨rfl, hoffset, rfl, rfl, rfl⟩ := hat
          obtain rfl := hstart
          have hsize : _ = _ := Int.add_left_cancel hstop
          have heq : offset = offset' := BitVec.eq_of_toNat_eq (by omega)
          rw [hsize, heq]

/-- The range that grows is in step with the one that was absorbed last. -/
structure InStep (r last : FlatRange) : Prop where
  stop : r.addr.stop = last.addr.stop
  hit : r.hit = last.hit
  start : r.addr.start ≤ last.addr.start

abbrev Unmerged (view : FlatView) : Prop :=
  Ranges.Unmerged (·.addr.start) (·.addr.stop) FlatRange.hit view

/-- A range takes in the next one, which goes on with what it shows. -/
theorem grow {next : FlatRange} (hhit : r.hit = next.hit) (htouch : r.addr.stop = next.addr.start)
    (hr : r.addr.start < r.addr.stop) (hnext : next.addr.start < next.addr.stop)
    (view : FlatView) :
    InStep { r with addr := ⟨r.addr.start, r.addr.size + next.addr.size⟩ } next ∧
      ∀ a, FlatView.lookup
        ({ r with addr := ⟨r.addr.start, r.addr.size + next.addr.size⟩ } :: view) a =
        FlatView.lookup (r :: next :: view) a := by
  have hstop : r.addr.start + (r.addr.size + next.addr.size) = next.addr.stop := by
    unfold AddrRange.stop at *
    omega
  refine ⟨⟨hstop, hhit, by dsimp only; omega⟩, fun a => ?_⟩
  have hgrown : FlatView.lookup
      ({ r with addr := ⟨r.addr.start, r.addr.size + next.addr.size⟩ } :: view) a =
      if r.addr.start ≤ a ∧ a < next.addr.stop then some (r.hit a) else view.lookup a := by
    rw [← hstop]
    rfl
  have hboth : FlatView.lookup (r :: next :: view) a =
      if r.addr.start ≤ a ∧ a < r.addr.stop then some (r.hit a)
      else if next.addr.start ≤ a ∧ a < next.addr.stop then some (next.hit a)
      else view.lookup a := rfl
  rw [hgrown, hboth, ← hhit]
  by_cases hin : r.addr.start ≤ a ∧ a < r.addr.stop
  · rw [if_pos hin, if_pos ⟨hin.1, by omega⟩]
  · by_cases hin' : next.addr.start ≤ a ∧ a < next.addr.stop
    · rw [if_neg hin, if_pos hin', if_pos ⟨by omega, hin'.2⟩]
    · rw [if_neg hin, if_neg hin', if_neg fun hc => by omega]

theorem absorb_spec (hstep : InStep r last) (hlast : FlatView.From b (last :: view)) :
    (absorb r last view).1.addr.start = r.addr.start ∧
      (absorb r last view).1.hit = r.hit ∧
      r.addr.start < (absorb r last view).1.addr.stop ∧
      FlatView.From (absorb r last view).1.addr.stop (absorb r last view).2 ∧
      (∀ s ∈ (absorb r last view).2.head?, canMerge (absorb r last view).1 s = false) ∧
      ∀ a, FlatView.lookup ((absorb r last view).1 :: (absorb r last view).2) a =
        FlatView.lookup (r :: view) a := by
  induction view generalizing r last b with
  | nil =>
      have hlt : last.addr.start < last.addr.stop := hlast.2.1
      have hrange : r.addr.start < r.addr.stop :=
        hstep.stop ▸ Int.lt_of_le_of_lt hstep.start hlt
      exact ⟨rfl, rfl, hrange, trivial, nofun, fun _ => rfl⟩
  | cons next view ih =>
      obtain ⟨-, hlt, hnext⟩ : b ≤ last.addr.start ∧ last.addr.start < last.addr.stop ∧
        FlatView.From last.addr.stop (next :: view) := hlast
      have hstart := hstep.start
      have hstop := hstep.stop
      by_cases hmerge : canMerge last next = true
      · obtain ⟨htouch, hgoes⟩ := canMerge_iff.1 hmerge
        have hrange : next.addr.start < next.addr.stop := hnext.2.1
        have hhit : r.hit = next.hit :=
          hstep.hit.trans (funext fun a => hit_rigid last next _ a hgoes)
        obtain ⟨hgrown, hlookup⟩ := grow hhit (hstop.trans htouch) (by omega) hrange view
        obtain ⟨h1, h2, h3, h4, h5, h6⟩ := ih hgrown hnext
        rw [absorb, if_pos hmerge]
        exact ⟨h1, h2, h3, h4, h5, fun a => (h6 a).trans (hlookup a)⟩
      · rw [absorb, if_neg hmerge]
        refine ⟨rfl, rfl, Int.lt_of_le_of_lt hstart (hstop ▸ hlt), hstop ▸ hnext, ?_, fun _ => rfl⟩
        intro s hs
        obtain rfl : next = s := Option.some.inj hs
        rw [Bool.eq_false_iff, ne_eq, canMerge_iff, hstop, hstep.hit, ← canMerge_iff]
        exact hmerge

/-- Merging changes no address, and leaves no neighbours that could be merged. -/
theorem flatviewSimplify_spec (hview : FlatView.From b view) :
    FlatView.From b (flatviewSimplify view) ∧ Unmerged (flatviewSimplify view) ∧
      (∀ s ∈ (flatviewSimplify view).head?,
        ∃ r ∈ view.head?, s.addr.start = r.addr.start ∧ s.hit = r.hit) ∧
      (flatviewSimplify view).lookup = view.lookup := by
  induction view using flatviewSimplify.induct generalizing b with
  | case1 =>
      rw [flatviewSimplify]
      exact ⟨trivial, trivial, nofun, rfl⟩
  | case2 r view _ ih =>
      have hstart : b ≤ r.addr.start := hview.1
      obtain ⟨h1, h2, h3, h4, h5, h6⟩ :=
        absorb_spec ⟨rfl, rfl, Int.le_refl r.addr.start⟩ hview
      obtain ⟨hfrom, hunmerged, hhead, hlookup⟩ := ih h4
      rw [flatviewSimplify]
      refine ⟨⟨Int.le_trans hstart (Int.le_of_eq h1.symm), Int.lt_of_le_of_lt (Int.le_of_eq h1) h3,
        hfrom⟩, ⟨fun s hs htouch hgoes => ?_, hunmerged⟩, fun s hs => ?_, funext fun a => ?_⟩
      · obtain ⟨t, ht, hst, hsame⟩ := hhead s hs
        have hmerge : canMerge (absorb r r view).1 t = true := by
          rw [canMerge_iff, ← hst, ← hsame]
          exact ⟨htouch, hgoes⟩
        rw [h5 t ht] at hmerge
        cases hmerge
      · obtain rfl : (absorb r r view).1 = s := Option.some.inj hs
        exact ⟨r, rfl, h1, h2⟩
      · have hcons : ∀ rest : FlatView, FlatView.lookup ((absorb r r view).1 :: rest) a =
            if (absorb r r view).1.addr.start ≤ a ∧ a < (absorb r r view).1.addr.stop then
              some ((absorb r r view).1.hit a) else rest.lookup a := fun _ => rfl
        rw [← h6, hcons, hcons, hlookup]

/-! ## The map of an address space -/

/-- What an address of 64 bits shows. -/
def MemoryRegion.meaning (region : MemoryRegion) (a : Int) : Option Hit :=
  if 0 ≤ a ∧ a < 18446744073709551616 then region.resolve 0 false a else none

theorem generateMemoryTopology_spec {region : MemoryRegion} (hsized : region.Sized) :
    ∃ view, generateMemoryTopology (some region) = some view ∧ view.Sorted ∧ Unmerged view ∧
      view.lookup = region.meaning := by
  obtain ⟨view, hrender, ⟨b, hfrom⟩, hlookup⟩ := renderMemoryRegion_gains region hsized []
    Sorted.nil 0 ⟨0, 18446744073709551616⟩ (by decide) false
  obtain ⟨hsorted, hunmerged, -, hsame⟩ := flatviewSimplify_spec hfrom
  refine ⟨flatviewSimplify view, ?_, ⟨b, hsorted⟩, hunmerged, hsame.trans (funext fun a => ?_)⟩
  · simp only [generateMemoryTopology, hrender, Option.bind_eq_bind, Option.bind_some]
  · exact (hlookup a).trans (Option.none_or ..)

theorem FlatView.eq_of_lookup_eq (hview : view.Sorted) (hview' : view'.Sorted)
    (hunmerged : Unmerged view) (hunmerged' : Unmerged view') (heq : view.lookup = view'.lookup) :
    view = view' :=
  hview.elim fun _ hfrom => hview'.elim fun _ hfrom' =>
    Ranges.eq_of_lookup_eq hit_rigid flatRange_ext hfrom hfrom' hunmerged hunmerged' heq

/-- Two windows of RAM under `system_memory`, the newer one in the middle of the other. -/
def overlaidWindows : MemoryRegion :=
  .container ⟨0, 0, 9223372036854775807, true, false, true, false, 0⟩
    [.container ⟨2, 8192, 4096, true, true, true, false, 0⟩ [],
      .container ⟨1, 4096, 12288, true, true, true, false, 0⟩ []]

theorem overlaidWindows_sized : overlaidWindows.Sized := by
  simp [overlaidWindows, MemoryRegion.Sized, allSized]

/-- The same memory, with an alias of the older window and a disabled one above all. -/
def aliasedWindows : MemoryRegion :=
  .container ⟨0, 0, 9223372036854775807, true, false, true, false, 0⟩
    [.container ⟨4, 0, 65536, false, true, true, false, 0⟩ [],
      .container ⟨2, 8192, 4096, true, true, true, false, 0⟩ [],
      .aliasOf ⟨3, 4096, 12288, true, false, true, false, 0⟩
        (.container ⟨1, 0, 12288, true, true, true, false, 0⟩ []) 0]

theorem aliasedWindows_sized : aliasedWindows.Sized := by
  simp [aliasedWindows, MemoryRegion.Sized, allSized]

/-- Every address of the new map shows what the tree of regions resolves it to, and rendering
fails on no assertion. -/
theorem generateMemoryTopology_resolves (region : MemoryRegion) (hsized : region.Sized) :
    ∃ view, generateMemoryTopology (some region) = some view ∧ view.Sorted ∧
      ∀ a, view.lookup a = if 0 ≤ a ∧ a < 18446744073709551616 then region.resolve 0 false a
        else none := by
  obtain ⟨view, hrun, hsorted, -, hlookup⟩ := generateMemoryTopology_spec hsized
  exact ⟨view, hrun, hsorted, fun a => congrFun hlookup a⟩

theorem generateMemoryTopology_resolves_overlaid :
    ∃ view, generateMemoryTopology (some overlaidWindows) = some view ∧ view.Sorted ∧
      ∀ a, view.lookup a = if 0 ≤ a ∧ a < 18446744073709551616 then
        overlaidWindows.resolve 0 false a else none :=
  generateMemoryTopology_resolves overlaidWindows overlaidWindows_sized

/-- Two trees have the same map just when they resolve every address alike. -/
theorem generateMemoryTopology_canonical (region region' : MemoryRegion) (hsized : region.Sized)
    (hsized' : region'.Sized) :
    generateMemoryTopology (some region) = generateMemoryTopology (some region') ↔
      ∀ a, 0 ≤ a → a < 18446744073709551616 →
        region.resolve 0 false a = region'.resolve 0 false a := by
  obtain ⟨view, hrun, hsorted, hunmerged, hlookup⟩ := generateMemoryTopology_spec hsized
  obtain ⟨view', hrun', hsorted', hunmerged', hlookup'⟩ := generateMemoryTopology_spec hsized'
  rw [hrun, hrun', Option.some.injEq]
  constructor
  · rintro rfl a hge hlt
    have hsame := congrFun (hlookup.symm.trans hlookup') a
    rwa [MemoryRegion.meaning, MemoryRegion.meaning, if_pos ⟨hge, hlt⟩, if_pos ⟨hge, hlt⟩] at hsame
  · intro hsame
    refine FlatView.eq_of_lookup_eq hsorted hsorted' hunmerged hunmerged' ?_
    rw [hlookup, hlookup']
    funext a
    unfold MemoryRegion.meaning
    split
    · exact hsame a (by omega) (by omega)
    · rfl

theorem generateMemoryTopology_canonical_aliased :
    generateMemoryTopology (some overlaidWindows) = generateMemoryTopology (some aliasedWindows) ↔
      ∀ a, 0 ≤ a → a < 18446744073709551616 →
        overlaidWindows.resolve 0 false a = aliasedWindows.resolve 0 false a :=
  generateMemoryTopology_canonical overlaidWindows aliasedWindows overlaidWindows_sized
    aliasedWindows_sized

end Vin64.Vx64
