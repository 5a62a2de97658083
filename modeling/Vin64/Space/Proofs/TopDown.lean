import Vin64.Space.Proofs.Allocations
import Mathlib.Data.List.Induction

/-!
# Allocating from the top

The search from the top follows the back links.  `linkNext` leaves the back link of the region
behind the new one as it was, so the link passes by the new region.  The search finds what it
should as long as no back link passes by a free region that starts on a boundary.
-/

namespace Vin64.Utils.Dllist

variable {α : Type} {bad bad' : Nat → Prop} {rs us : List Nat} {p : Ptr}
  {xs ys : List (Entry α)}

/-- A back link that passes by bad objects only; `rs` are the objects in front, the nearest
first. -/
def Accepts (bad : Nat → Prop) : List Nat → Ptr → Prop
  | [], p => p = none
  | a :: rs, p => p = some a ∨ bad a ∧ Accepts bad rs p

/-- Every back link passes by bad objects only. -/
def Skips (bad : Nat → Prop) : List Nat → List (Entry α) → Prop
  | _, [] => True
  | rs, e :: es => Accepts bad rs e.prev ∧ Skips bad (e.addr :: rs) es

theorem Accepts.mono (h : Accepts bad rs p) (hbad : ∀ a ∈ rs, bad a → bad' a) :
    Accepts bad' rs p := by
  induction rs with
  | nil => exact h
  | cons a rs ih =>
      rcases h with h | ⟨ha, h⟩
      · exact Or.inl h
      · exact Or.inr ⟨hbad a (by simp) ha, ih h fun b hb => hbad b (by simp [hb])⟩

/-- A bad object may be put anywhere. -/
theorem Accepts.insert {c : Nat} (h : Accepts bad (us ++ rs) p) (hc : bad c) :
    Accepts bad (us ++ c :: rs) p := by
  induction us with
  | nil => exact Or.inr ⟨hc, h⟩
  | cons a us ih =>
      rcases h with h | ⟨ha, h⟩
      · exact Or.inl h
      · exact Or.inr ⟨ha, ih h⟩

theorem Skips.mono (h : Skips bad rs xs) (hbad : ∀ a ∈ rs ++ addrs xs, bad a → bad' a) :
    Skips bad' rs xs := by
  induction xs generalizing rs with
  | nil => trivial
  | cons x xs ih =>
      refine ⟨h.1.mono fun a ha => hbad a (by simp [ha]), ih h.2 fun a ha => hbad a ?_⟩
      simp only [List.cons_append, List.mem_cons, List.mem_append] at ha
      simp only [List.map_cons, List.mem_append, List.mem_cons]
      tauto

theorem Skips.insert {c : Nat} (h : Skips bad (us ++ rs) xs) (hc : bad c) :
    Skips bad (us ++ c :: rs) xs := by
  induction xs generalizing us with
  | nil => trivial
  | cons x xs ih => exact ⟨h.1.insert hc, @ih (x.addr :: us) h.2⟩

theorem skips_append :
    Skips bad rs (xs ++ ys) ↔ Skips bad rs xs ∧ Skips bad ((addrs xs).reverse ++ rs) ys := by
  induction xs generalizing rs with
  | nil => simp [Skips]
  | cons x xs ih => simp [Skips, ih, and_assoc]

/-- An object inserted in the middle must be a bad one. -/
theorem Skips.split {e e₁ e₂ : Entry α} (h : Skips bad [] (xs ++ e :: ys))
    (haddr : e₁.addr = e.addr) (hprev : e₁.prev = e.prev) (hlink : e₂.prev = some e.addr)
    (hbad : bad e₂.addr ∨ ys = []) : Skips bad [] (xs ++ e₁ :: e₂ :: ys) := by
  rw [skips_append] at h ⊢
  obtain ⟨hxs, he, hys⟩ := h
  refine ⟨hxs, by rw [hprev]; exact he, Or.inl (by rw [hlink, haddr]), ?_⟩
  rcases hbad with hbad | rfl
  · rw [haddr]
    exact @Skips.insert _ bad _ [] ys e₂.addr hys hbad
  · trivial

end Vin64.Utils.Dllist

namespace Vin64.Space

open Vin64.Utils Vin64.Utils.Dllist Vin64.Lib AddressSpace

/-- No search has to see the region: it is in use, off the boundary or empty. -/
def Ineligible (r : VMRegion) : Prop := ¬ (r.OnBoundary ∧ 0 < r.size)

/-- A back link may pass by the region at the address. -/
def Passable (es : List (Entry VMRegion)) (a : Nat) : Prop :=
  ∃ e ∈ es, e.addr = a ∧ Ineligible e.val

/-- What a search from the top needs: no back link passes by a free region on a boundary, and
such a region also ends on one. -/
structure TopInv (room : Nat) (l : AddressSpace) (es : List (Entry VMRegion)) : Prop
    extends SpaceInv room l es where
  skips : Skips (Passable es) [] es
  aligned : ∀ e ∈ es, e.val.OnBoundary → e.val.size % VMBLOCK_AT_ALIGN = 0

namespace TopInv

variable {room : Nat} {l : AddressSpace} {es xs ys : List (Entry VMRegion)}

/-- The search from the top finds the last region that fits. -/
theorem findFit_top (h : TopInv room l (xs ++ ys)) {required fuel : Nat} {p : Ptr}
    (hp : Accepts (Passable (xs ++ ys)) (addrs xs).reverse p) (hreq : 0 < required)
    (hf : xs.length < fuel) :
    findFit l 0 required true fuel p =
      some ((xs.reverse.find? fun e => fits required e.val).map Entry.addr) := by
  induction xs using List.reverseRecOn generalizing ys fuel p with
  | nil =>
      obtain ⟨fuel, rfl⟩ : ∃ k, fuel = k + 1 := ⟨fuel - 1, by simp at hf; omega⟩
      obtain rfl : p = none := hp
      rfl
  | append_singleton xs x ih =>
      obtain ⟨fuel, rfl⟩ : ∃ k, fuel = k + 1 := ⟨fuel - 1, by omega⟩
      have hl : xs ++ [x] ++ ys = xs ++ x :: ys := by simp
      rw [hl] at h hp
      have hlen : xs.length < fuel := by simpa using hf
      simp only [List.map_append, List.map_cons, List.map_nil, List.reverse_append,
        List.reverse_cons, List.reverse_nil, List.nil_append, List.singleton_append] at hp ⊢
      rcases hp with rfl | ⟨hbad, hp⟩
      · simp only [findFit, h.layout.deref, Option.bind_eq_bind, Option.bind_some]
        by_cases hfit : fits required x.val = true
        · rw [if_neg (not_not_intro hfit), if_neg (not_not_intro rfl)]
          simp [hfit]
        · rw [if_pos hfit, List.find?_cons_of_neg (by simpa using hfit)]
          have hx := (skips_append.1 h.skips).2.1
          rw [List.append_nil] at hx
          exact ih h hx hlen
      · obtain ⟨y, hy, hyx, hinel⟩ := hbad
        obtain rfl : y = x := h.layout.addr_inj hy (by simp) hyx
        have hfit : ¬ fits required y.val = true := fun hfit => by
          obtain ⟨hbound, hle⟩ := fits_iff.1 hfit
          exact hinel ⟨hbound, by omega⟩
        rw [List.find?_cons_of_neg (by simpa using hfit)]
        exact ih h hp (by omega)

end TopInv

/-! ## The pieces of the region that was split -/

namespace Carving

variable {e : Entry VMRegion} {k : Carving} {base size required w c c₁ c₂ c₃ : Nat} {top : Bool}

/-- The pieces around the one in hand that start on a boundary end on one. -/
def SidesAligned (k : Carving) : Prop :=
  ∀ f ∈ k.front ++ k.back, f.val.base % VMBLOCK_AT_ALIGN = 0 → f.val.size % VMBLOCK_AT_ALIGN = 0

theorem SidesAligned.atBase (hstop : Extent.stop e.val < 2 ^ 64)
    (hbase : base ≠ 0 → e.val.base ≤ base ∧ base ≤ Extent.stop e.val)
    (hal : base % VMBLOCK_AT_ALIGN = 0) (heb : e.val.base % VMBLOCK_AT_ALIGN = 0) (c : Nat) :
    (atBase e base c).SidesAligned := by
  have hsum : e.val.base + e.val.size < 2 ^ 64 := hstop
  have hstop_eq : Extent.stop e.val = e.val.base + e.val.size := rfl
  unfold Carving.atBase
  split_ifs with hcut
  · obtain ⟨hlo, hhi⟩ := hbase hcut.1
    have hoff : sub64 base e.val.base = base - e.val.base := sub64_eq hlo (by omega)
    intro f hf _
    obtain rfl : f = low e (sub64 base e.val.base) := by simpa [Carving.keepHigh] using hf
    show sub64 base e.val.base % _ = 0
    rw [hoff]
    unfold VMBLOCK_AT_ALIGN at *
    omega
  · intro f hf
    simp at hf

theorem SidesAligned.take (h : k.SidesAligned) (hstop : Extent.stop k.region.val < 2 ^ 64)
    (hreq : required ≤ k.region.val.size) (hr : required % VMBLOCK_AT_ALIGN = 0)
    (hs : k.region.val.size % VMBLOCK_AT_ALIGN = 0) (top : Bool) (c : Nat) :
    (k.take required top c).SidesAligned := by
  have hsum : k.region.val.base + k.region.val.size < 2 ^ 64 := hstop
  unfold VMBLOCK_AT_ALIGN at hr hs
  intro f hf hfb
  unfold Carving.take at hf
  split_ifs at hf
  · have hsub : sub64 k.region.val.size required = k.region.val.size - required :=
      sub64_eq hreq (by omega)
    simp only [Carving.keepHigh, List.append_assoc, List.mem_append, List.mem_singleton] at hf
    rcases hf with hf | rfl | hf
    · exact h f (by simp [hf]) hfb
    · show sub64 k.region.val.size required % _ = 0
      rw [hsub]
      unfold VMBLOCK_AT_ALIGN
      omega
    · exact h f (by simp [hf]) hfb
  · simp only [Carving.keepLow, List.mem_append, List.mem_cons] at hf
    rcases hf with hf | rfl | hf
    · exact h f (by simp [hf]) hfb
    · rw [high_val hstop hreq]
      show (k.region.val.size - required) % _ = 0
      unfold VMBLOCK_AT_ALIGN
      omega
    · exact h f (by simp [hf]) hfb

/-- The gap starts off the boundary. -/
theorem gap_base (hstop : Extent.stop k.region.val < 2 ^ 64)
    (hb : k.region.val.base % VMBLOCK_AT_ALIGN = 0) (hw : w ≤ k.region.val.size)
    (hoff : w % VMBLOCK_AT_ALIGN ≠ 0) (c : Nat) :
    (high k.region w c).val.base % VMBLOCK_AT_ALIGN ≠ 0 := by
  rw [high_val hstop hw]
  show (k.region.val.base + w) % _ ≠ 0
  unfold VMBLOCK_AT_ALIGN at *
  omega

theorem SidesAligned.trim (h : k.SidesAligned) (hstop : Extent.stop k.region.val < 2 ^ 64)
    (hb : k.region.val.base % VMBLOCK_AT_ALIGN = 0) (hs : k.region.val.size = required)
    (hgap : required > size → size % VMBLOCK_AT_ALIGN ≠ 0) (c : Nat) :
    (k.trim size required c).SidesAligned := by
  unfold Carving.trim
  split_ifs with hlt
  · intro f hf hfb
    simp only [Carving.keepLow, List.mem_append, List.mem_cons] at hf
    rcases hf with hf | rfl | hf
    · exact h f (by simp [hf]) hfb
    · exact absurd hfb (gap_base hstop hb (by omega) (hgap hlt) c)
    · exact h f (by simp [hf]) hfb
  · exact h

/-- The pieces around the region that is returned end on boundaries, and the gap starts off
one. -/
theorem carved_aligned (hstop : Extent.stop e.val < 2 ^ 64) (hreq : required ≤ e.val.size)
    (hbase : base ≠ 0 → top = false ∧ e.val.base ≤ base ∧ base + required ≤ Extent.stop e.val)
    (hal : base % VMBLOCK_AT_ALIGN = 0) (heb : e.val.base % VMBLOCK_AT_ALIGN = 0)
    (hes : e.val.size % VMBLOCK_AT_ALIGN = 0) (hr : required % VMBLOCK_AT_ALIGN = 0)
    (hgap : required > size → size % VMBLOCK_AT_ALIGN ≠ 0) :
    (carved e base size required top c₁ c₂ c₃).SidesAligned ∧
      (required > size →
        (high ((atBase e base c₁).take required top c₂).region size c₃).val.base %
          VMBLOCK_AT_ALIGN ≠ 0) := by
  have hsum : e.val.base + e.val.size < 2 ^ 64 := hstop
  have hstop_eq : Extent.stop e.val = e.val.base + e.val.size := rfl
  have hbase' : base ≠ 0 → e.val.base ≤ base ∧ base ≤ Extent.stop e.val := fun hb => by
    have := hbase hb
    omega
  obtain ⟨hb₁, hs₁⟩ := @atBase_region e base c₁ hstop hbase'
  have hreq₁ : required ≤ (atBase e base c₁).region.val.size := by
    rw [hs₁]
    split_ifs with hb
    · have := hbase hb
      omega
    · omega
  have hstop₁ : Extent.stop (atBase e base c₁).region.val < 2 ^ 64 := by
    show (atBase e base c₁).region.val.base + (atBase e base c₁).region.val.size < _
    rw [hb₁, hs₁]
    split_ifs with hb
    · have := hbase hb
      omega
    · omega
  have hbal : (atBase e base c₁).region.val.base % VMBLOCK_AT_ALIGN = 0 := by
    rw [hb₁]
    split_ifs <;> assumption
  have hsal : (atBase e base c₁).region.val.size % VMBLOCK_AT_ALIGN = 0 := by
    rw [hs₁, hstop_eq]
    unfold VMBLOCK_AT_ALIGN at *
    split_ifs <;> omega
  obtain ⟨hb₂, hs₂⟩ :=
    @take_region (atBase e base c₁) required c₂ top hstop₁ fun _ => hreq₁
  have hsides := (SidesAligned.atBase hstop hbase' hal heb c₁).take hstop₁ hreq₁ hr
    hsal top c₂
  have hstop_eq₁ : Extent.stop (atBase e base c₁).region.val =
    (atBase e base c₁).region.val.base + (atBase e base c₁).region.val.size := rfl
  have hstop₂ : Extent.stop ((atBase e base c₁).take required top c₂).region.val < 2 ^ 64 := by
    show ((atBase e base c₁).take required top c₂).region.val.base +
      ((atBase e base c₁).take required top c₂).region.val.size < _
    rw [hb₂, hs₂]
    split_ifs <;> omega
  have hbal₂ : ((atBase e base c₁).take required top c₂).region.val.base % VMBLOCK_AT_ALIGN =
      0 := by
    rw [hb₂]
    unfold VMBLOCK_AT_ALIGN at *
    split_ifs <;> omega
  exact ⟨hsides.trim hstop₂ hbal₂ hs₂ hgap c₃,
    fun hlt => gap_base hstop₂ hbal₂ (by omega) (hgap hlt) c₃⟩

end Carving

theorem required_mod (size : Nat) : required size % VMBLOCK_AT_ALIGN = 0 := by
  unfold required alignBig add64 VMBLOCK_AT_ALIGN
  split_ifs <;> omega

/-- A size that leaves a gap is off the boundary. -/
theorem wanted_mod {size : Nat} (h : required size > wanted size) :
    wanted size % VMBLOCK_AT_ALIGN ≠ 0 := by
  have hlt : wanted size < 2 ^ 64 := alignBig_lt _ _
  intro hz
  have heq : required size = wanted size := by
    unfold required
    unfold VMBLOCK_AT_ALIGN at hz
    generalize wanted size = v at hlt hz
    unfold alignBig add64 VMBLOCK_AT_ALIGN
    rw [if_neg (not_not_intro hz)]
    omega
  omega

namespace Carving

variable {e : Entry VMRegion} {k : Carving} {xs ys : List (Entry VMRegion)} {w c : Nat}
  {bad : Nat → Prop}

theorem skips_keepLow (h : Skips bad [] (xs ++ (k.list ++ ys)))
    (hc : bad c ∨ k.back ++ ys = []) : Skips bad [] (xs ++ ((k.keepLow w c).list ++ ys)) := by
  rw [list_append] at h ⊢
  exact h.split rfl rfl rfl hc

theorem skips_keepHigh (h : Skips bad [] (xs ++ (k.list ++ ys)))
    (hc : bad c ∨ k.back ++ ys = []) : Skips bad [] (xs ++ ((k.keepHigh w c).list ++ ys)) := by
  have hlist : (k.keepHigh w c).list = (k.keepLow w c).list := by
    simp [Carving.list, Carving.keepHigh, Carving.keepLow]
  rw [hlist]
  exact skips_keepLow h hc

/-- The back links after all cuts, when a region that is left behind may be passed by. -/
theorem skips_carved {base size required : Nat} {top : Bool} {c₁ c₂ c₃ : Nat}
    (h : Skips bad [] (xs ++ e :: ys)) (hbase : base ≠ 0 → top = false)
    (hregion : bad (carved e base size required top c₁ c₂ c₃).region.addr)
    (hrest : base = 0 → top = false → bad c₂ ∨ ys = []) (hlast : base ≠ 0 → ys = [])
    (hgap : required > size → bad c₃) :
    Skips bad [] (xs ++ ((carved e base size required top c₁ c₂ c₃).list ++ ys)) := by
  have hstart : Skips bad [] (xs ++ ((Carving.mk [] e []).list ++ ys)) := h
  have h₁ : Skips bad [] (xs ++ ((atBase e base c₁).list ++ ys)) := by
    unfold Carving.atBase
    split_ifs with hcut
    · exact skips_keepHigh hstart (Or.inr (by simp [hlast hcut.1]))
    · exact hstart
  have hback : (atBase e base c₁).back = [] := by
    unfold Carving.atBase
    split_ifs <;> rfl
  have h₂ : Skips bad [] (xs ++ (((atBase e base c₁).take required top c₂).list ++ ys)) := by
    cases top with
    | true =>
        refine skips_keepHigh h₁ (Or.inl ?_)
        have haddr : (carved e base size required true c₁ c₂ c₃).region.addr = c₂ := by
          unfold carved Carving.trim
          split_ifs <;> rfl
        rwa [haddr] at hregion
    | false =>
        refine skips_keepLow h₁ ?_
        rw [hback, List.nil_append]
        by_cases hb : base = 0
        · exact hrest hb rfl
        · exact Or.inr (hlast hb)
  unfold carved Carving.trim
  split_ifs with hlt
  · exact skips_keepLow h₂ (Or.inl (hgap hlt))
  · exact h₂

/-- What a search from the bottom leaves behind. -/
theorem rest_mem {base size required c₁ c₂ c₃ : Nat} (hb : base = 0) :
    high e required c₂ ∈ (carved e base size required false c₁ c₂ c₃).back := by
  have hat : atBase e base c₁ = ⟨[], e, []⟩ := by simp [Carving.atBase, hb]
  have htake : (atBase e base c₁).take required false c₂ = keepLow ⟨[], e, []⟩ required c₂ := by
    rw [hat]
    rfl
  unfold carved Carving.trim
  rw [htake]
  split_ifs <;> simp [Carving.keepLow]

theorem gap_mem {base size required c₁ c₂ c₃ : Nat} {top : Bool} (hlt : required > size) :
    high ((atBase e base c₁).take required top c₂).region size c₃ ∈
      (carved e base size required top c₁ c₂ c₃).back := by
  unfold carved Carving.trim
  rw [if_pos hlt]
  simp [Carving.keepLow]

/-- The first piece is the region itself. -/
theorem addr_mem_carved (e : Entry VMRegion) (base size : Nat) (top : Bool) (c₁ c₂ c₃ : Nat) :
    e.addr ∈ addrs (carved e base (wanted size) (required size) top c₁ c₂ c₃).list := by
  refine @carved_of (fun k => e.addr ∈ addrs k.list) e base _ _ top c₁ c₂ c₃ (alignBig_lt _ _)
    (alignBig_lt _ _) (by simp [Carving.list]) ?_ ?_
  · intro k w c _ hk
    simp only [Carving.list, Carving.keepLow, List.map_append, List.map_cons, List.mem_append,
      List.mem_cons, low_addr] at hk ⊢
    tauto
  · intro k w c _ hk
    simp only [Carving.list, Carving.keepHigh, List.map_append, List.map_cons, List.mem_append,
      List.mem_cons, low_addr, List.map_nil, high_addr] at hk ⊢
    tauto

end Carving

/-- What a region is to be marked as. -/
def marked (e : Entry VMRegion) : Entry VMRegion :=
  { e with val := { e.val with attr := liveAttr } }

theorem marked_not_free (e : Entry VMRegion) : ¬ (marked e).val.IsFree := by
  have hlive : (marked e).val.attr = liveAttr := rfl
  rw [VMRegion.IsFree, hlive]
  decide

theorem marked_ineligible (e : Entry VMRegion) : Ineligible (marked e).val :=
  fun h => marked_not_free e h.1.1

theorem skips_marked {bad : Nat → Prop} {xs ys : List (Entry VMRegion)} {e : Entry VMRegion}
    (h : Skips bad [] (xs ++ e :: ys)) : Skips bad [] (xs ++ marked e :: ys) := by
  rw [skips_append] at h ⊢
  exact h

namespace Carving

variable {e : Entry VMRegion} {k : Carving} {xs ys : List (Entry VMRegion)}

/-- The space after the region in hand was marked. -/
def within (k : Carving) (xs ys : List (Entry VMRegion)) : List (Entry VMRegion) :=
  (xs ++ k.front) ++ marked k.region :: (k.back ++ ys)

theorem mem_within {g : Entry VMRegion} :
    g ∈ k.within xs ys ↔ g ∈ xs ∨ g ∈ k.front ++ k.back ∨ g = marked k.region ∨ g ∈ ys := by
  simp only [within, List.mem_append, List.mem_cons]
  tauto

theorem passable_region : Passable (k.within xs ys) k.region.addr :=
  ⟨marked k.region, mem_within.2 (by simp), rfl, marked_ineligible k.region⟩

theorem passable_side {g : Entry VMRegion} (hg : g ∈ k.front ++ k.back) (h : Ineligible g.val) :
    Passable (k.within xs ys) g.addr :=
  ⟨g, mem_within.2 (Or.inr (Or.inl hg)), rfl, h⟩

/-- The pieces of an empty region are empty. -/
theorem passable_empty (h : Pieces e k) (hz : e.val.size = 0) {a : Nat} (ha : a ∈ addrs k.list) :
    Passable (k.within xs ys) a := by
  obtain ⟨g, hg, rfl⟩ := List.mem_map.1 ha
  have hinel : Ineligible g.val := by
    rintro ⟨-, hpos⟩
    obtain ⟨hlo, hhi⟩ := h.tiles.mem (List.mem_map_of_mem hg)
    have hlo : e.val.base ≤ g.val.base := hlo
    have hhi : g.val.base + g.val.size ≤ e.val.base + e.val.size := hhi
    omega
  simp only [Carving.list, List.mem_append, List.mem_cons] at hg
  rcases hg with hg | rfl | hg
  · exact passable_side (by simp [hg]) hinel
  · exact passable_region
  · exact passable_side (by simp [hg]) hinel

/-- What could be passed by before can be passed by after. -/
theorem passable_mono (h : Pieces e k) (he : e.val.OnBoundary) (hmem : e.addr ∈ addrs k.list)
    {a : Nat} (ha : Passable (xs ++ e :: ys) a) : Passable (k.within xs ys) a := by
  obtain ⟨y, hy, rfl, hinel⟩ := ha
  simp only [List.mem_append, List.mem_cons] at hy
  rcases hy with hy | rfl | hy
  · exact ⟨y, mem_within.2 (by simp [hy]), rfl, hinel⟩
  · have hz : y.val.size = 0 := by
      by_contra hne
      exact hinel ⟨he, Nat.pos_of_ne_zero hne⟩
    exact passable_empty h hz hmem
  · exact ⟨y, mem_within.2 (by simp [hy]), rfl, hinel⟩

end Carving

namespace TopInv

variable {room : Nat} {l l' : AddressSpace} {es xs ys : List (Entry VMRegion)}
  {e : Entry VMRegion} {k : Carving} {base size : Nat} {top : Bool}

/-- Splitting a region keeps what the search from the top needs, when no free region is left
behind the split one. -/
theorem carves (h : TopInv room l es) (hc : LinkInv.Carves l es base size top xs e ys k l')
    (hrange : base ≠ 0 → base + required size < 2 ^ 64)
    (hleave : ys = [] ∨ base = 0 ∧ (top = true ∨ required size = e.val.size)) :
    ∃ l'', Sections.mark l' (some k.region.addr) = some l'' ∧
      TopInv room l'' (k.within xs ys) := by
  obtain ⟨h', hpieces, -⟩ := h.toSpaceInv.carves hc hrange
  have hkfree := hpieces.free k.region (by simp [Carving.list])
  rw [Carving.list_append] at h'
  obtain ⟨l'', hl'', h''⟩ := h'.mark hkfree
  obtain rfl := hc.split
  obtain ⟨c₁, c₂, c₃, hk⟩ := hc.carved
  have he : e ∈ xs ++ e :: ys := by simp
  have hstop : Extent.stop e.val < 2 ^ 64 := Nat.lt_of_le_of_lt (h.stop_le he) h.room_lt
  obtain ⟨hebound, hreq⟩ := fits_iff.1 (fits_of_chosen hc.fits)
  have hbase : base ≠ 0 → direction base top = false ∧ e.val.base ≤ base ∧
      base + required size ≤ Extent.stop e.val := fun hb => by
    obtain ⟨hd, hlo, hhi⟩ :=
      @SpaceInv.range_of_chosen base (required size) e.val top hc.fits hstop hrange hb
    exact ⟨hd, hlo, Nat.le_of_lt hhi⟩
  obtain ⟨hsides, hgap⟩ := @Carving.carved_aligned e base (wanted size) (required size) c₁ c₂ c₃
    (direction base top) hstop hreq hbase ((and_align base).symm.trans hc.aligned) hebound.2
    (h.aligned e he hebound) (required_mod size) wanted_mod
  rw [← hk] at hsides
  refine ⟨l'', hl'', h'', ?_, ?_⟩
  · have hmem := Carving.addr_mem_carved e base size (direction base top) c₁ c₂ c₃
    rw [← hk] at hmem
    have hstart : Skips (Passable (k.within xs ys)) [] (xs ++ ((Carving.mk [] e []).list ++ ys)) :=
      h.skips.mono fun a _ ha => Carving.passable_mono hpieces hebound hmem ha
    have hregion : Passable (k.within xs ys) k.region.addr := Carving.passable_region
    have hcarved : Skips (Passable (k.within xs ys)) [] (xs ++ (k.list ++ ys)) := by
      have hskips := @Carving.skips_carved e xs ys (Passable (k.within xs ys)) base (wanted size)
        (required size) (direction base top) c₁ c₂ c₃ hstart (fun hb => (hbase hb).1)
        (by rw [← hk]; exact hregion) (fun hb hd => ?_) (fun hb => ?_) (fun hlt => ?_)
      · rw [← hk] at hskips
        exact hskips
      · rcases hleave with hys | ⟨-, htop | heq⟩
        · exact Or.inr hys
        · simp [direction, hb, htop] at hd
        · left
          have hrest := @Carving.rest_mem e base (wanted size) (required size) c₁ c₂ c₃ hb
          rw [← hd, ← hk] at hrest
          refine Carving.passable_side (List.mem_append_right _ hrest) fun hel => ?_
          have hpos := hel.2
          rw [Carving.high_val hstop hreq, heq] at hpos
          simp at hpos
      · rcases hleave with hys | ⟨hb', -⟩
        · exact hys
        · exact absurd hb' hb
      · have hmem := @Carving.gap_mem e base (wanted size) (required size) c₁ c₂ c₃
          (direction base top) hlt
        rw [← hk] at hmem
        exact Carving.passable_side (List.mem_append_right _ hmem) fun hel =>
          hgap hlt hel.1.2
    rw [Carving.list_append] at hcarved
    exact skips_marked hcarved
  · intro g hg hbound
    rcases Carving.mem_within.1 hg with hg | hg | rfl | hg
    · exact h.aligned g (by simp [hg]) hbound
    · exact hsides g hg hbound.2
    · exact absurd hbound.1 (marked_not_free k.region)
    · exact h.aligned g (by simp [hg]) hbound

end TopInv

/-! ## Runs -/

namespace Sections

variable {room : Nat} {s t s₀ : Sections} {calls : List SectionCall} {size : Nat}

theorem topInv_start (hroom : room % VMBLOCK_AT_ALIGN = 0) (hlt : room < 2 ^ 64)
    (hs : start room = some s) : ∃ es, TopInv room s.space es := by
  obtain ⟨e, he, hval, -⟩ := start_inv hlt hs
  refine ⟨[e], he, ⟨?_, trivial⟩, ?_⟩
  · rcases he.back.1 with ⟨-, hprev⟩ | ⟨a, ha, -⟩
    · exact hprev
    · cases ha
  · intro f hf _
    obtain rfl := List.mem_singleton.1 hf
    rw [hval]
    exact hroom

/-- An allocation that leaves no free region behind keeps the back links usable. -/
theorem topInv_step {es : List (Entry VMRegion)} (h : TopInv room s.space es) {c : SectionCall}
    (hok : s.HighOk c) (hstep : s.step c = some t) : ∃ es, TopInv room t.space es := by
  cases c with
  | free base => cases hok
  | alloc base size top =>
      obtain ⟨hrange, hleaves⟩ := hok
      rcases h.toLinkInv.alloc base size top with ⟨hnull, -⟩ | ⟨xs, e, ys, k, l', hc⟩
      · obtain rfl : s = t := by simpa [Sections.step, hnull] using hstep
        exact ⟨es, h⟩
      · have hin := hrange hc.aligned e.val hc.candidate
        have hleave : ys = [] ∨ base = 0 ∧ (top = true ∨ required size = e.val.size) := by
          rcases hleaves e.val hc.candidate with hlast | hrest
          · refine or_iff_not_imp_left.2 fun hys => ?_
            -- another region with the base and the size of `e` comes last: `e` is empty
            have hz : e.val.size = 0 := by
              obtain ⟨zs, z, rfl⟩ := (List.eq_nil_or_concat' ys).resolve_left hys
              have hsplit : es = (xs ++ e :: zs) ++ [z] := by
                rw [hc.split]
                simp
              rw [h.layout.toList, hsplit, List.map_append] at hlast
              have hzv : z.val = e.val := by
                rw [List.map_singleton, List.getLast?_concat] at hlast
                exact Option.some_inj.1 hlast
              have htiles := h.tiles
              rw [hc.split] at htiles
              have hle : e.val.base + e.val.size ≤ z.val.base := by
                rw [List.map_append, List.map_cons] at htiles
                exact htiles.stop_le (List.mem_map_of_mem (by simp))
              rw [hzv] at hle
              omega
            have he : e ∈ es := by
              rw [hc.split]
              simp
            have hstop : Extent.stop e.val < 2 ^ 64 :=
              Nat.lt_of_le_of_lt (h.stop_le he) h.room_lt
            have hreq := (fits_iff.1 (fits_of_chosen hc.fits)).2
            refine ⟨?_, Or.inr (by omega)⟩
            by_contra hb
            obtain ⟨-, hlo, hhi⟩ := @SpaceInv.range_of_chosen base (required size) e.val top
              hc.fits hstop hin hb
            have hstop_eq : Extent.stop e.val = e.val.base + e.val.size := rfl
            omega
          · exact Or.inr hrest
        obtain ⟨l'', hl'', h''⟩ := h.carves hc hin hleave
        obtain rfl : (⟨l'', k.region.addr :: s.live⟩ : Sections) = t := by
          simpa [Sections.step, hc.result, hl''] using hstep
        exact ⟨_, h''⟩

theorem topInv_run (hroom : room % VMBLOCK_AT_ALIGN = 0) (hlt : room < 2 ^ 64)
    (hstart : start room = some s₀)
    (hrun : Run (When HighOk fun s c t => s.step c = some t) s₀ calls s) :
    ∃ es, TopInv room s.space es := by
  refine @Run.invariant _ _ _ (fun s => ∃ es, TopInv room s.space es) _ _ _ hrun
    (topInv_start hroom hlt hstart) ?_
  rintro s c t ⟨es, hs⟩ hstep
  exact topInv_step hs hstep.1 hstep.2

/-- The search from the top of the whole space. -/
theorem findFit_last {es : List (Entry VMRegion)} (h : TopInv room s.space es) {required : Nat}
    (hreq : 0 < required) :
    findFit s.space 0 required true (s.space.fresh + 1) (xfrom s.space true) =
      some ((es.reverse.find? fun e => fits required e.val).map Entry.addr) := by
  have hes : es ++ [] = es := List.append_nil es
  have hlen := h.layout.length_le_fresh
  refine @TopInv.findFit_top room s.space es [] (by rwa [hes]) required _ _ ?_ hreq (by omega)
  have hlast : xfrom s.space true = es.getLast?.map Entry.addr := h.layout.last
  obtain ⟨zs, z, rfl⟩ := (List.eq_nil_or_concat' es).resolve_left h.ne_nil
  rw [hlast]
  simp [Accepts]

/-- While no allocation leaves a free region behind, the search from the top keeps its
promise. -/
theorem allocsHigh_of_highOk (hroom : room % VMBLOCK_AT_ALIGN = 0) (hlt : room < 2 ^ 64)
    (hstart : start room = some s₀)
    (hrun : Run (When HighOk fun s c t => s.step c = some t) s₀ calls s) (hpos : 0 < size)
    (hsize : size ≤ 2 ^ 64 - VMBLOCK_AT_ALIGN) : s.AllocsHigh size := by
  obtain ⟨es, h⟩ := topInv_run hroom hlt hstart hrun
  have hw := le_wanted hsize
  have hwr := wanted_le_required hsize
  have hfind := findFit_last h (show 0 < required size by omega)
  unfold AllocsHigh
  rw [← required_eq hsize, ← wanted_eq hsize]
  have hsuits : ∀ r : VMRegion, Suits 0 (required size) r ↔ fits (required size) r = true := by
    intro r
    rw [fits_iff, Suits, if_pos rfl]
  rcases h.toLinkInv.alloc 0 size true with ⟨hnull, hnone⟩ | ⟨xs, e, ys, k, l', hc⟩
  · refine ⟨none, s.space, hnull, fun _ r hr hsr => ?_, fun a ha => by cases ha⟩
    have hno := hnone (by decide)
    rw [show direction 0 true = true from rfl, hfind] at hno
    have hno : (es.reverse.find? fun e => fits (required size) e.val) = none := by simpa using hno
    rw [h.layout.toList] at hr
    obtain ⟨y, hy, rfl⟩ := List.mem_map.1 hr
    exact List.find?_eq_none.1 hno y (by simpa using hy) ((hsuits y.val).1 hsr)
  · have hfound := hc.found
    rw [show direction 0 true = true from rfl, hfind] at hfound
    have he : e ∈ es := by
      rw [hc.split]
      simp
    have hmem : e.val ∈ s.space.toList := by
      rw [h.layout.toList]
      exact List.mem_map_of_mem he
    obtain ⟨hbound, hreq⟩ := fits_iff.1 (fits_of_chosen hc.fits)
    have hstop : Extent.stop e.val < 2 ^ 64 := Nat.lt_of_le_of_lt (h.stop_le he) h.room_lt
    obtain ⟨hplace, hmin⟩ := h.carves_region hc
    have hplace : k.region.val.base = e.val.base + (e.val.size - required size) := hplace
    rw [Nat.min_eq_left hwr] at hmin
    obtain ⟨n, hn, hnv⟩ := SpaceInv.carves_deref hc
    have hesize := h.aligned e he hbound
    have hbase := hbound.2
    have hrmod := required_mod size
    refine ⟨some k.region.addr, l', hc.result, fun hp => (by cases hp), ?_⟩
    intro a ha
    obtain rfl : k.region.addr = a := by simpa using ha
    refine ⟨n, hn, ?_, by rw [hnv, hmin], e.val, hmem, (hsuits e.val).2 (fits_of_chosen hc.fits),
      ?_, ?_⟩
    · rw [hnv, hplace]
      unfold VMBLOCK_AT_ALIGN at *
      omega
    · rw [hnv, hplace]
      omega
    · intro r hr hsr
      rw [h.layout.toList] at hr
      obtain ⟨y, hy, rfl⟩ := List.mem_map.1 hr
      obtain ⟨e', he', haddr⟩ : ∃ e', (es.reverse.find? fun e => fits (required size) e.val) =
          some e' ∧ e'.addr = e.addr := by simpa using hfound
      obtain ⟨-, as, bs, hsplit, hbehind⟩ := List.find?_eq_some_iff_append.1 he'
      have hes : es = bs.reverse ++ e' :: as.reverse := by
        rw [← List.reverse_reverse es, hsplit]
        simp
      obtain rfl : e' = e := h.layout.addr_inj (by rw [hes]; simp) he haddr
      rw [hes] at hy
      simp only [List.mem_append, List.mem_cons, List.mem_reverse] at hy
      rcases hy with hy | rfl | hy
      · obtain ⟨us, ws, hus⟩ := List.append_of_mem (List.mem_reverse.2 hy)
        refine @SpaceInv.base_le room s.space us (ws ++ e' :: as.reverse) y ?_ e' (by simp)
        have h' := h.toSpaceInv
        rw [hes, hus] at h'
        simpa using h'
      · exact Nat.le_refl _
      · have hno := hbehind y hy
        rw [(hsuits y.val).1 hsr] at hno
        cases hno

/-- A second region from the top. -/
theorem allocsHigh_second : ∃ s₀ s : Sections, start 0x100000 = some s₀ ∧
    s₀.step (.alloc 0 0x1000 true) = some s ∧ s.AllocsHigh 0x10000 := by
  have heval : ((start 0x100000).bind fun s => s.step (.alloc 0 0x1000 true)).isSome = true := by
    decide +kernel
  obtain ⟨s, hs⟩ := Option.isSome_iff_exists.1 heval
  obtain ⟨s₀, hs₀, hstep⟩ := Option.bind_eq_some_iff.1 hs
  have hok : s₀.HighOk (.alloc 0 0x1000 true) :=
    ⟨fun _ r _ hb => absurd rfl hb, fun r _ => Or.inr ⟨rfl, Or.inl rfl⟩⟩
  exact ⟨s₀, s, hs₀, hstep, allocsHigh_of_highOk (by decide) (by decide) hs₀
    (Run.snoc Run.nil ⟨hok, hstep⟩) (by decide) (by decide)⟩

/-- An allocation from the bottom hides the region behind it from the search. -/
theorem alloc_top_passes_by :
    ¬ ∀ (room : Nat) (s₀ s : Sections) (calls : List SectionCall) (size : Nat),
      room % 0x10000 = 0 → room < 2 ^ 64 → start room = some s₀ →
      (∀ c ∈ calls, ∃ base size top, c = .alloc base size top) →
      Run (fun s c t => s.step c = some t) s₀ calls s → 0 < size →
      size ≤ 2 ^ 64 - 0x10000 → s.AllocsHigh size := by
  intro hall
  have heval : (((start 0x100000).bind fun s => s.step (.alloc 0 0x10000 true)).bind fun s =>
      s.step (.alloc 0 0x10000 false)).any (fun s =>
        (s.space.allocSectionAddress 0 0x10000 true).any (fun v => v.1.isNone) ∧
        s.space.toList.any fun r =>
          r.attr &&& WVM_TYPE_MASK = MEM_FREE ∧ r.base = 0x10000 ∧ r.size = 0xE0000) = true := by
    decide +kernel
  obtain ⟨s, hs₂, hv⟩ := (Option.any_eq_true _ _).1 heval
  obtain ⟨s₁, hs₁, h₂⟩ := Option.bind_eq_some_iff.1 hs₂
  obtain ⟨s₀, hs₀, h₁⟩ := Option.bind_eq_some_iff.1 hs₁
  obtain ⟨hnull, hregion⟩ : (s.space.allocSectionAddress 0 0x10000 true).any
      (fun v => v.1.isNone) = true ∧ (s.space.toList.any fun r =>
        r.attr &&& WVM_TYPE_MASK = MEM_FREE ∧ r.base = 0x10000 ∧ r.size = 0xE0000) = true := by
    simpa using hv
  obtain ⟨⟨p, l⟩, hal, hp⟩ := (Option.any_eq_true _ _).1 hnull
  obtain ⟨r, hr, hvals⟩ := List.any_eq_true.1 hregion
  obtain ⟨hfree, hrb, hrs⟩ : r.attr &&& WVM_TYPE_MASK = MEM_FREE ∧ r.base = 0x10000 ∧
      r.size = 0xE0000 := by simpa using hvals
  obtain rfl : p = none := by simpa using hp
  obtain ⟨p', l', hal', hnone, -⟩ := hall 0x100000 s₀ s
    [.alloc 0 0x10000 false, .alloc 0 0x10000 true] 0x10000 (by decide) (by decide) hs₀
    (by simp) (Run.snoc (Run.snoc Run.nil h₁) h₂) (by decide) (by decide)
  obtain ⟨rfl, -⟩ : none = p' ∧ l = l' := by simpa [hal] using hal'
  refine hnone rfl r hr ⟨⟨hfree, by rw [hrb]; decide⟩, ?_⟩
  have hreq : roundUp 0x10000 VMBLOCK_AT_ALIGN = 0x10000 := by decide
  rw [if_pos rfl, hrs, hreq]
  decide

end Sections

end Vin64.Space
