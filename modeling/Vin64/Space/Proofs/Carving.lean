import Vin64.Space.Sections
import Mathlib.Tactic.SplitIfs

/-!
# The pieces of a region

`allocSectionAddress` cuts a free region up to three times.  A `Carving` is the list of the
pieces with the one that the next cut is made in; the links among them are the ones that
`split` makes.
-/

namespace Vin64.Space

open Vin64.Utils Vin64.Utils.Dllist Vin64.Lib AddressSpace

/-- The attribute of a region that is not in use. -/
def freeAttr : BitVec 32 := MEM_FREE ||| PAGE_NOACCESS

/-- The attribute of a region marked by the caller. -/
def liveAttr : BitVec 32 := freeAttr ||| (MEM_PRIVATE ||| MEM_RESERVE)

theorem freeAttr_ne_liveAttr : freeAttr ≠ liveAttr := by decide

/-- The size `allocSectionAddress` returns. -/
abbrev wanted (size : Nat) : Nat := alignBig size VMBLOCK_SIZE_ALIGN

/-- The size `allocSectionAddress` takes from a region. -/
abbrev required (size : Nat) : Nat := alignBig (wanted size) VMBLOCK_AT_ALIGN

theorem alignBig_lt (v a : Nat) : alignBig v a < 2 ^ 64 := Nat.mod_lt _ (by decide)

/-- The direction of the search: a base is searched from the bottom. -/
abbrev direction (base : Nat) (top : Bool) : Bool := if base ≠ 0 then false else top

/-- A region cut down to its first `w` addresses. -/
def low (e : Entry VMRegion) (w : Nat) : Entry VMRegion := { e with val := { e.val with size := w } }

/-- The region made of the rest. -/
def high (e : Entry VMRegion) (w c : Nat) : Entry VMRegion :=
  ⟨c, some e.addr, ⟨add64 e.val.base w, sub64 e.val.size w, freeAttr, Dllist.empty⟩⟩

@[simp] theorem low_addr (e : Entry VMRegion) (w : Nat) : (low e w).addr = e.addr := rfl

@[simp] theorem high_addr (e : Entry VMRegion) (w c : Nat) : (high e w c).addr = c := rfl

/-- A free region that is carved: the part in hand and what lies in front of it and behind. -/
structure Carving where
  front : List (Entry VMRegion)
  region : Entry VMRegion
  back : List (Entry VMRegion)

namespace Carving

def list (k : Carving) : List (Entry VMRegion) := k.front ++ k.region :: k.back

theorem list_append (k : Carving) (xs ys : List (Entry VMRegion)) :
    xs ++ (k.list ++ ys) = (xs ++ k.front) ++ k.region :: (k.back ++ ys) := by
  simp [list]

/-- Split, and go on with the first part. -/
def keepLow (k : Carving) (w c : Nat) : Carving :=
  ⟨k.front, low k.region w, high k.region w c :: k.back⟩

/-- Split, and go on with the second part. -/
def keepHigh (k : Carving) (w c : Nat) : Carving :=
  ⟨k.front ++ [low k.region w], high k.region w c, k.back⟩

/-- The region `e` after `cutBase`. -/
def atBase (e : Entry VMRegion) (base c : Nat) : Carving :=
  if base ≠ 0 ∧ sub64 base e.val.base ≠ 0 then
    Carving.keepHigh ⟨[], e, []⟩ (sub64 base e.val.base) c
  else ⟨[], e, []⟩

/-- Take the required size from the bottom or from the top. -/
def take (k : Carving) (required : Nat) (top : Bool) (c : Nat) : Carving :=
  if top then k.keepHigh (sub64 k.region.val.size required) c else k.keepLow required c

/-- Give back what exceeds the size. -/
def trim (k : Carving) (size required c : Nat) : Carving :=
  if required > size then k.keepLow size c else k

/-- The region `e` after `carve`. -/
def carved (e : Entry VMRegion) (base size required : Nat) (top : Bool) (c₁ c₂ c₃ : Nat) :
    Carving :=
  ((atBase e base c₁).take required top c₂).trim size required c₃

/-- What holds of the pieces of `e` when every cut keeps it. -/
theorem carved_of {P : Carving → Prop} {e : Entry VMRegion} {base size required : Nat} {top : Bool}
    {c₁ c₂ c₃ : Nat} (hsize : size < 2 ^ 64) (hreq : required < 2 ^ 64) (h : P ⟨[], e, []⟩)
    (hlow : ∀ k w c, w < 2 ^ 64 → P k → P (k.keepLow w c))
    (hhigh : ∀ k w c, w < 2 ^ 64 → P k → P (k.keepHigh w c)) :
    P (carved e base size required top c₁ c₂ c₃) := by
  have hsub : ∀ a b, sub64 a b < 2 ^ 64 := fun a b => Nat.mod_lt _ (by decide)
  have h₁ : P (atBase e base c₁) := by
    unfold atBase
    split
    · exact hhigh _ _ _ (hsub _ _) h
    · exact h
  have h₂ : P ((atBase e base c₁).take required top c₂) := by
    unfold take
    split
    · exact hhigh _ _ _ (hsub _ _) h₁
    · exact hlow _ _ _ hreq h₁
  unfold carved trim
  split
  · exact hlow _ _ _ hsize h₂
  · exact h₂

end Carving

namespace Carving

variable {e f : Entry VMRegion} {k : Carving} {base size required w c c₁ c₂ c₃ : Nat} {top : Bool}

/-! ## The pieces tile the region -/

theorem high_val (hstop : Extent.stop e.val < 2 ^ 64) (hw : w ≤ e.val.size) :
    (high e w c).val = ⟨e.val.base + w, e.val.size - w, freeAttr, Dllist.empty⟩ := by
  have hsum : e.val.base + e.val.size < 2 ^ 64 := hstop
  simp only [high]
  rw [add64_eq (by omega), sub64_eq hw (by omega)]

/-- The pieces of `e`: they tile it and are free. -/
structure Pieces (e : Entry VMRegion) (k : Carving) : Prop where
  tiles : Extent.Tiles e.val.base (k.list.map Entry.val) (Extent.stop e.val)
  free : ∀ f ∈ k.list, f.val.attr = freeAttr

theorem pieces_start (hfree : e.val.attr = freeAttr) : Pieces e ⟨[], e, []⟩ := by
  refine ⟨⟨rfl, rfl⟩, fun f hf => ?_⟩
  obtain rfl := List.mem_singleton.1 hf
  exact hfree

theorem Pieces.region_stop (h : Pieces e k) : Extent.stop k.region.val ≤ Extent.stop e.val :=
  (h.tiles.mem (List.mem_map_of_mem (by simp [Carving.list]))).2

/-- Cutting the region in hand keeps the tiling. -/
theorem Pieces.cut (h : Pieces e k) (hstop : Extent.stop e.val < 2 ^ 64)
    (hw : w ≤ k.region.val.size) (c : Nat) :
    Extent.Tiles e.val.base ((k.front ++ low k.region w :: high k.region w c :: k.back).map
        Entry.val) (Extent.stop e.val) ∧
      ∀ f ∈ k.front ++ low k.region w :: high k.region w c :: k.back, f.val.attr = freeAttr := by
  have hstop' := Nat.lt_of_le_of_lt h.region_stop hstop
  have htiles := h.tiles
  have hfree := h.free
  simp only [Carving.list, List.map_append, List.map_cons] at htiles hfree ⊢
  rw [high_val hstop' hw]
  refine ⟨htiles.split rfl rfl (show w + (k.region.val.size - w) = k.region.val.size by omega),
    fun f hf => ?_⟩
  simp only [List.mem_append, List.mem_cons] at hf
  rcases hf with hf | rfl | rfl | hf
  · exact hfree f (by simp [hf])
  · exact hfree k.region (by simp)
  · rfl
  · exact hfree f (by simp [hf])

theorem Pieces.keepLow (h : Pieces e k) (hstop : Extent.stop e.val < 2 ^ 64)
    (hw : w ≤ k.region.val.size) (c : Nat) : Pieces e (k.keepLow w c) := by
  obtain ⟨htiles, hfree⟩ := h.cut hstop hw c
  exact ⟨htiles, hfree⟩

theorem Pieces.keepHigh (h : Pieces e k) (hstop : Extent.stop e.val < 2 ^ 64)
    (hw : w ≤ k.region.val.size) (c : Nat) : Pieces e (k.keepHigh w c) := by
  obtain ⟨htiles, hfree⟩ := h.cut hstop hw c
  exact ⟨by simpa [Carving.list, Carving.keepHigh] using htiles,
    fun f hf => hfree f (by simpa [Carving.list, Carving.keepHigh] using hf)⟩

theorem size_lt {r : VMRegion} (h : Extent.stop r < 2 ^ 64) : r.size < 2 ^ 64 :=
  Nat.lt_of_le_of_lt (Nat.le_add_left r.size r.base) h

theorem Pieces.take (h : Pieces e k) (hstop : Extent.stop e.val < 2 ^ 64)
    (hreq : required ≤ k.region.val.size) (top : Bool) (c : Nat) :
    Pieces e (k.take required top c) := by
  have hsize := size_lt (Nat.lt_of_le_of_lt h.region_stop hstop)
  unfold Carving.take
  split_ifs
  · refine h.keepHigh hstop ?_ c
    rw [sub64_eq hreq hsize]
    omega
  · exact h.keepLow hstop hreq c

/-! ## The region that is returned -/

/-- Where the region is taken from `e`. -/
def place (e : Entry VMRegion) (base required : Nat) (top : Bool) : Nat :=
  if base ≠ 0 then base else if top then e.val.base + (e.val.size - required) else e.val.base

theorem atBase_region (hstop : Extent.stop e.val < 2 ^ 64)
    (hbase : base ≠ 0 → e.val.base ≤ base ∧ base ≤ Extent.stop e.val) :
    (atBase e base c).region.val.base = (if base ≠ 0 then base else e.val.base) ∧
      (atBase e base c).region.val.size =
        Extent.stop e.val - (if base ≠ 0 then base else e.val.base) := by
  have hsum : e.val.base + e.val.size < 2 ^ 64 := hstop
  have hstop_eq : Extent.stop e.val = e.val.base + e.val.size := rfl
  by_cases hb : base = 0
  · have hat : atBase e base c = ⟨[], e, []⟩ := by simp [atBase, hb]
    rw [hat, if_neg (by simp [hb]), hstop_eq]
    exact ⟨rfl, by show e.val.size = _; omega⟩
  · obtain ⟨hlo, hhi⟩ := hbase hb
    have hoff : sub64 base e.val.base = base - e.val.base := sub64_eq hlo (by omega)
    rw [if_pos hb, hstop_eq]
    by_cases hz : base - e.val.base = 0
    · have hat : atBase e base c = ⟨[], e, []⟩ := by simp [atBase, hoff, hz]
      rw [hat]
      constructor
      · show e.val.base = base
        omega
      · show e.val.size = _
        omega
    · have hat : atBase e base c = keepHigh ⟨[], e, []⟩ (base - e.val.base) c := by
        simp [atBase, hoff, hz, hb]
      have hval := @high_val e (base - e.val.base) c hstop (by omega)
      rw [hat]
      simp only [Carving.keepHigh, hval]
      omega

theorem atBase_pieces (hfree : e.val.attr = freeAttr) (hstop : Extent.stop e.val < 2 ^ 64)
    (hbase : base ≠ 0 → e.val.base ≤ base ∧ base ≤ Extent.stop e.val) (c : Nat) :
    Pieces e (atBase e base c) := by
  have hsum : e.val.base + e.val.size < 2 ^ 64 := hstop
  have hstop_eq : Extent.stop e.val = e.val.base + e.val.size := rfl
  unfold atBase
  split_ifs with hcut
  · obtain ⟨hlo, hhi⟩ := hbase hcut.1
    have hoff : sub64 base e.val.base = base - e.val.base := sub64_eq hlo (by omega)
    refine (pieces_start hfree).keepHigh hstop ?_ c
    show sub64 base e.val.base ≤ e.val.size
    omega
  · exact pieces_start hfree

theorem take_region (hstop : Extent.stop k.region.val < 2 ^ 64)
    (hreq : top = true → required ≤ k.region.val.size) :
    (k.take required top c).region.val.base =
        (if top then k.region.val.base + (k.region.val.size - required) else k.region.val.base) ∧
      (k.take required top c).region.val.size = required := by
  have hsum : k.region.val.base + k.region.val.size < 2 ^ 64 := hstop
  cases top with
  | false => exact ⟨rfl, rfl⟩
  | true =>
      have hreq := hreq rfl
      have hsub : sub64 k.region.val.size required = k.region.val.size - required :=
        sub64_eq hreq (by omega)
      have hval := @high_val k.region (k.region.val.size - required) c hstop (by omega)
      simp only [Carving.take, if_true, Carving.keepHigh, hsub, hval]
      exact ⟨trivial, by omega⟩

theorem trim_region : (k.trim size required c).region.val.base = k.region.val.base ∧
    (k.region.val.size = required →
      (k.trim size required c).region.val.size = min size required) := by
  unfold trim
  split_ifs with hgap
  · exact ⟨rfl, fun _ => by show size = _; omega⟩
  · exact ⟨rfl, fun hk => by rw [hk]; omega⟩

/-- The base and the size of the region that is returned. -/
theorem carved_region (hstop : Extent.stop e.val < 2 ^ 64) (hreq : required ≤ e.val.size)
    (hbase : base ≠ 0 → top = false ∧ e.val.base ≤ base ∧ base ≤ Extent.stop e.val) :
    (carved e base size required top c₁ c₂ c₃).region.val.base = place e base required top ∧
      (carved e base size required top c₁ c₂ c₃).region.val.size = min size required := by
  have hsum : e.val.base + e.val.size < 2 ^ 64 := hstop
  have hstop_eq : Extent.stop e.val = e.val.base + e.val.size := rfl
  obtain ⟨hb₁, hs₁⟩ := @atBase_region e base c₁ hstop fun hb => (hbase hb).2
  have hstop₁ : Extent.stop (atBase e base c₁).region.val < 2 ^ 64 := by
    show (atBase e base c₁).region.val.base + (atBase e base c₁).region.val.size < _
    rw [hb₁, hs₁]
    split_ifs with hb
    · have := hbase hb
      omega
    · omega
  have hreq₁ : top = true → required ≤ (atBase e base c₁).region.val.size := by
    intro ht
    have hb : base = 0 := by
      by_contra hb
      rw [(hbase hb).1] at ht
      cases ht
    rw [hs₁, if_neg (by simp [hb])]
    omega
  obtain ⟨hb₂, hs₂⟩ := @take_region (atBase e base c₁) required c₂ top hstop₁ hreq₁
  obtain ⟨hb₃, hs₃⟩ := @trim_region ((atBase e base c₁).take required top c₂) size required c₃
  refine ⟨?_, hs₃ hs₂⟩
  show ((_ : Carving).trim size required c₃).region.val.base = _
  rw [hb₃, hb₂, hb₁, hs₁]
  unfold place
  by_cases hb : base = 0
  · simp only [hb, ne_eq, not_true_eq_false, if_false, hstop_eq, Nat.add_sub_cancel_left]
  · simp [hb, (hbase hb).1]

/-- The pieces that are left, when the range lies in the region. -/
theorem carved_pieces (hfree : e.val.attr = freeAttr) (hstop : Extent.stop e.val < 2 ^ 64)
    (hreq : required ≤ e.val.size)
    (hbase : base ≠ 0 → top = false ∧ e.val.base ≤ base ∧ base + required ≤ Extent.stop e.val) :
    Pieces e (carved e base size required top c₁ c₂ c₃) := by
  have hsum : e.val.base + e.val.size < 2 ^ 64 := hstop
  have hstop_eq : Extent.stop e.val = e.val.base + e.val.size := rfl
  have hbase' : base ≠ 0 → e.val.base ≤ base ∧ base ≤ Extent.stop e.val := fun hb => by
    have := hbase hb
    omega
  have h₁ := atBase_pieces hfree hstop hbase' c₁
  have hs₁ := (@atBase_region e base c₁ hstop hbase').2
  have hreq₁ : required ≤ (atBase e base c₁).region.val.size := by
    rw [hs₁]
    split_ifs with hb
    · have := hbase hb
      omega
    · omega
  have hstop₁ := Nat.lt_of_le_of_lt h₁.region_stop hstop
  have h₂ := h₁.take hstop hreq₁ top c₂
  have hs₂ := (@take_region (atBase e base c₁) required c₂ top hstop₁ fun _ => hreq₁).2
  unfold carved trim
  split_ifs with hgap
  · exact h₂.keepLow hstop (by omega) c₃
  · exact h₂

/-! ## Empty pieces -/

/-- Cutting inside the region in hand leaves no empty piece. -/
theorem cut_pos (hstop : Extent.stop k.region.val < 2 ^ 64) (h : ∀ f ∈ k.list, 0 < f.val.size)
    (hw : 0 < w) (hlt : w < k.region.val.size) (c : Nat) :
    ∀ f ∈ k.front ++ low k.region w :: high k.region w c :: k.back, 0 < f.val.size := by
  intro f hf
  simp only [List.mem_append, List.mem_cons] at hf
  rcases hf with hf | rfl | rfl | hf
  · exact h f (by simp [Carving.list, hf])
  · exact hw
  · rw [high_val hstop (Nat.le_of_lt hlt)]
    show 0 < k.region.val.size - w
    omega
  · exact h f (by simp [Carving.list, hf])

theorem keepLow_pos (hstop : Extent.stop k.region.val < 2 ^ 64) (h : ∀ f ∈ k.list, 0 < f.val.size)
    (hw : 0 < w) (hlt : w < k.region.val.size) (c : Nat) :
    ∀ f ∈ (k.keepLow w c).list, 0 < f.val.size := cut_pos hstop h hw hlt c

theorem keepHigh_pos (hstop : Extent.stop k.region.val < 2 ^ 64)
    (h : ∀ f ∈ k.list, 0 < f.val.size) (hw : 0 < w) (hlt : w < k.region.val.size) (c : Nat) :
    ∀ f ∈ (k.keepHigh w c).list, 0 < f.val.size := fun f hf =>
  cut_pos hstop h hw hlt c f (by simpa [Carving.list, Carving.keepHigh] using hf)

/-- No piece is empty, unless nothing is wanted or the whole region is taken. -/
theorem carved_pos (hfree : e.val.attr = freeAttr) (hstop : Extent.stop e.val < 2 ^ 64)
    (hreq : required ≤ e.val.size)
    (hbase : base ≠ 0 → top = false ∧ e.val.base ≤ base ∧ base + required < Extent.stop e.val)
    (hsize : 0 < size) (hpos : 0 < required) (hne : base = 0 → required ≠ e.val.size) :
    ∀ f ∈ (carved e base size required top c₁ c₂ c₃).list, 0 < f.val.size := by
  have hsum : e.val.base + e.val.size < 2 ^ 64 := hstop
  have hstop_eq : Extent.stop e.val = e.val.base + e.val.size := rfl
  have hbase' : base ≠ 0 → e.val.base ≤ base ∧ base ≤ Extent.stop e.val := fun hb => by
    have := hbase hb
    omega
  have h₁ := atBase_pieces hfree hstop hbase' c₁
  have hs₁ := (@atBase_region e base c₁ hstop hbase').2
  have hlt₁ : required < (atBase e base c₁).region.val.size := by
    rw [hs₁]
    split_ifs with hb
    · have := hbase hb
      omega
    · have := hne (not_not.1 hb)
      omega
  have hstop₁ := Nat.lt_of_le_of_lt h₁.region_stop hstop
  have hsize₁ := size_lt hstop₁
  have hpos₁ : ∀ f ∈ (atBase e base c₁).list, 0 < f.val.size := by
    have hstart : ∀ f ∈ (Carving.mk [] e []).list, 0 < f.val.size := by
      intro f hf
      obtain rfl := List.mem_singleton.1 hf
      omega
    unfold atBase
    split_ifs with hcut
    · have := hbase hcut.1
      have hoff : sub64 base e.val.base = base - e.val.base := sub64_eq this.2.1 (by omega)
      rw [hoff] at hcut ⊢
      refine keepHigh_pos hstop hstart ?_ ?_ c₁
      · omega
      · show base - e.val.base < e.val.size
        omega
    · exact hstart
  have hpos₂ : ∀ f ∈ ((atBase e base c₁).take required top c₂).list, 0 < f.val.size := by
    unfold take
    split_ifs
    · rw [sub64_eq (Nat.le_of_lt hlt₁) hsize₁]
      exact keepHigh_pos hstop₁ hpos₁ (by omega) (by omega) c₂
    · exact keepLow_pos hstop₁ hpos₁ hpos hlt₁ c₂
  obtain ⟨-, hs₂⟩ := @take_region (atBase e base c₁) required c₂ top hstop₁
    fun _ => Nat.le_of_lt hlt₁
  have hstop₂ := Nat.lt_of_le_of_lt
    (h₁.take hstop (Nat.le_of_lt hlt₁) top c₂).region_stop hstop
  unfold carved trim
  split_ifs with hgap
  · exact keepLow_pos hstop₂ hpos₂ hsize (by omega) c₃
  · exact hpos₂

end Carving

end Vin64.Space
