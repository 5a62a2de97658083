import Mathlib.Data.List.Basic
import Mathlib.Algebra.Group.Nat.Defs

/-!
# Lists of extents that tile a range of addresses

An extent has a base and a size.  A list of extents tiles `[lo, hi)` when the first
starts at `lo`, each starts where the one before it ends and the last ends at `hi`.
`cover f xs` spells out the value of `f` at every address in turn: two tilings of one
range give every address the same value exactly when their covers are equal.
-/

namespace Vin64.Lib

/-- A type whose values occupy the addresses `[base x, base x + size x)`. -/
class Extent (α : Type) where
  base : α → Nat
  size : α → Nat

namespace Extent

variable {α β : Type} [Extent α]

/-- The address after the last one of `x`. -/
def stop (x : α) : Nat := base x + size x

/-- `a` lies in `x`. -/
def Covers (x : α) (a : Nat) : Prop := base x ≤ a ∧ a < stop x

instance (x : α) (a : Nat) : Decidable (Covers x a) :=
  inferInstanceAs (Decidable (base x ≤ a ∧ a < stop x))

/-- The number of addresses of a list of extents. -/
def total : List α → Nat
  | [] => 0
  | x :: xs => size x + total xs

def Tiles : Nat → List α → Nat → Prop
  | lo, [], hi => lo = hi
  | lo, x :: xs, hi => base x = lo ∧ Tiles (lo + size x) xs hi

/-- The extent that contains `a`. -/
def lookup (xs : List α) (a : Nat) : Option α := xs.find? fun x => Covers x a

/-- The values of `f` at all addresses of `xs`, in order. -/
def cover (f : α → β) (xs : List α) : List β :=
  xs.flatMap fun x => List.replicate (size x) (f x)

/-! ## Totals and covers -/

@[simp] theorem total_nil : total ([] : List α) = 0 := rfl

@[simp] theorem total_cons (x : α) (xs : List α) : total (x :: xs) = size x + total xs := rfl

@[simp] theorem total_append (xs ys : List α) : total (xs ++ ys) = total xs + total ys := by
  induction xs with
  | nil => simp
  | cons x xs ih => simp [ih, Nat.add_assoc]

@[simp] theorem cover_nil (f : α → β) : cover f ([] : List α) = [] := rfl

@[simp] theorem cover_cons (f : α → β) (x : α) (xs : List α) :
    cover f (x :: xs) = List.replicate (size x) (f x) ++ cover f xs := by
  simp [cover]

@[simp] theorem cover_append (f : α → β) (xs ys : List α) :
    cover f (xs ++ ys) = cover f xs ++ cover f ys := by
  simp [cover]

@[simp] theorem length_cover (f : α → β) (xs : List α) : (cover f xs).length = total xs := by
  induction xs with
  | nil => rfl
  | cons x xs ih => simp [ih]

theorem map_cover {γ : Type} (g : β → γ) (f : α → β) (xs : List α) :
    (cover f xs).map g = cover (g ∘ f) xs := by
  induction xs with
  | nil => rfl
  | cons x xs ih => simp [ih]

/-- Appended lists whose first parts have one length are equal part by part. -/
theorem append_eq_append {xs ys xs' ys' : List β} (hl : xs.length = xs'.length) :
    xs ++ ys = xs' ++ ys' ↔ xs = xs' ∧ ys = ys' :=
  ⟨fun h => List.append_inj h hl, fun h => by rw [h.1, h.2]⟩

theorem cover_of_forall {f : α → β} {xs : List α} {b : β} (h : ∀ x ∈ xs, f x = b) :
    cover f xs = List.replicate (total xs) b := by
  induction xs with
  | nil => rfl
  | cons x xs ih =>
      rw [cover_cons, total_cons, List.replicate_add, h x (by simp),
        ih fun y hy => h y (by simp [hy])]

/-- A cover is constant exactly when all its extents have that value, but for empty ones. -/
theorem cover_eq_replicate_iff {f : α → β} {xs : List α} {b : β} :
    cover f xs = List.replicate (total xs) b ↔ ∀ x ∈ xs, 0 < size x → f x = b := by
  induction xs with
  | nil => simp
  | cons x xs ih =>
      rw [cover_cons, total_cons, List.replicate_add, append_eq_append (by simp), ih,
        List.forall_mem_cons, Nat.pos_iff_ne_zero, List.replicate_inj]
      tauto

theorem cover_eq_replicate {f : α → β} {xs : List α} {b : β}
    (hpos : ∀ x ∈ xs, 0 < size x) :
    cover f xs = List.replicate (total xs) b ↔ ∀ x ∈ xs, f x = b := by
  rw [cover_eq_replicate_iff]
  exact forall₂_congr fun x hx => forall_prop_of_true (hpos x hx)

/-! ## Tilings -/

theorem tiles_append {lo hi : Nat} {xs ys : List α} :
    Tiles lo (xs ++ ys) hi ↔ Tiles lo xs (lo + total xs) ∧ Tiles (lo + total xs) ys hi := by
  induction xs generalizing lo with
  | nil => simp [Tiles]
  | cons x xs ih => simp only [List.cons_append, Tiles, total_cons, ih, Nat.add_assoc, and_assoc]

theorem Tiles.stop_eq {lo hi : Nat} {xs : List α} (h : Tiles lo xs hi) :
    hi = lo + total xs := by
  induction xs generalizing lo with
  | nil => simpa [Tiles] using h.symm
  | cons x xs ih => simpa [Nat.add_assoc] using ih h.2

theorem Tiles.ne_nil {lo hi : Nat} {xs : List α} (h : Tiles lo xs hi) (hlt : lo < hi) :
    xs ≠ [] := by
  rintro rfl
  exact absurd h (Nat.ne_of_lt hlt)

/-- The extents of a tiling lie inside its range. -/
theorem Tiles.mem {lo hi : Nat} {xs : List α} (h : Tiles lo xs hi) {x : α} (hx : x ∈ xs) :
    lo ≤ base x ∧ stop x ≤ hi := by
  induction xs generalizing lo with
  | nil => simp at hx
  | cons y ys ih =>
      have hhi := h.2.stop_eq
      rcases List.mem_cons.1 hx with rfl | hx
      · exact ⟨Nat.le_of_eq h.1.symm, by rw [stop, h.1]; omega⟩
      · have := ih h.2 hx
        omega

/-- Two neighbours of a tiling meet; all that comes later lies behind. -/
theorem Tiles.stop_le {lo hi : Nat} {xs ys : List α} {x : α}
    (h : Tiles lo (xs ++ x :: ys) hi) {y : α} (hy : y ∈ ys) : stop x ≤ base y := by
  have h₂ := (tiles_append.1 h).2
  have := h₂.2.mem hy
  rw [stop, h₂.1]
  exact this.1

/-- Every address of the range lies in one extent of the tiling. -/
theorem Tiles.exists_split {lo hi : Nat} {xs : List α} (h : Tiles lo xs hi) {a : Nat}
    (hlo : lo ≤ a) (hhi : a < hi) :
    ∃ pre x post, xs = pre ++ x :: post ∧ Covers x a := by
  induction xs generalizing lo with
  | nil => simp only [Tiles] at h; omega
  | cons x xs ih =>
      by_cases hx : a < lo + size x
      · exact ⟨[], x, xs, rfl, by rw [h.1]; exact hlo, by rw [stop, h.1]; exact hx⟩
      · obtain ⟨pre, y, post, rfl, hy⟩ := ih h.2 (by omega)
        exact ⟨x :: pre, y, post, rfl, hy⟩

/-- Extents before the one that contains `a` end at or below `a`. -/
theorem Tiles.stop_le_of_covers {lo hi : Nat} {pre post : List α} {x : α}
    (h : Tiles lo (pre ++ x :: post) hi) {a : Nat} (hx : Covers x a) {y : α}
    (hy : y ∈ pre) : stop y ≤ a := by
  have h₁ := (tiles_append.1 h).1.mem hy
  have h₂ := (tiles_append.1 h).2.1
  have := hx.1
  omega

theorem lookup_eq_some {lo hi : Nat} {pre post : List α} {x : α}
    (h : Tiles lo (pre ++ x :: post) hi) {a : Nat} (hx : Covers x a) :
    lookup (pre ++ x :: post) a = some x := by
  have hpre : pre.find? (fun y => decide (Covers y a)) = none := by
    rw [List.find?_eq_none]
    intro y hy hc
    have := h.stop_le_of_covers hx hy
    have hc' : Covers y a := by simpa using hc
    exact absurd hc'.2 (by omega)
  simp [lookup, List.find?_append, hpre, hx]

theorem Tiles.lookup_mem {lo hi : Nat} {xs : List α} (h : Tiles lo xs hi) {x : α} (hx : x ∈ xs)
    {a : Nat} (ha : Covers x a) : lookup xs a = some x := by
  obtain ⟨pre, post, rfl⟩ := List.append_of_mem hx
  exact lookup_eq_some h ha

/-- The extent that contains an address is the only one. -/
theorem Tiles.eq_of_covers {lo hi : Nat} {xs : List α} (h : Tiles lo xs hi) {x y : α}
    (hx : x ∈ xs) (hy : y ∈ xs) {a : Nat} (hxa : Covers x a) (hya : Covers y a) : x = y :=
  Option.some_inj.1 ((h.lookup_mem hx hxa).symm.trans (h.lookup_mem hy hya))

/-- What holds of all addresses of a tiling holds of all addresses of its extents. -/
theorem Tiles.forall_lookup {lo hi : Nat} {xs : List α} (h : Tiles lo xs hi)
    (P : Nat → Option α → Prop) :
    (∀ a, lo ≤ a → a < hi → P a (lookup xs a)) ↔ ∀ x ∈ xs, ∀ a, Covers x a → P a (some x) := by
  constructor
  · intro hall x hx a ha
    have hmem := h.mem hx
    rw [← h.lookup_mem hx ha]
    exact hall a (Nat.le_trans hmem.1 ha.1) (Nat.lt_of_lt_of_le ha.2 hmem.2)
  · intro hall a hlo hhi
    obtain ⟨pre, x, post, rfl, hx⟩ := h.exists_split hlo hhi
    rw [lookup_eq_some h hx]
    exact hall x (by simp) a hx

/-- Replacing an extent by another one of the same range matters only inside. -/
theorem lookup_replace {xs ys : List α} {x y : α} (hb : base y = base x) (hs : size y = size x)
    {a : Nat} (ha : ¬ Covers x a) : lookup (xs ++ y :: ys) a = lookup (xs ++ x :: ys) a := by
  have hy : ¬ Covers y a := by
    unfold Covers stop
    rw [hb, hs]
    exact ha
  simp [lookup, List.find?_append, ha, hy]

/-- The value at `a` is the entry of the cover at the offset of `a`. -/
theorem map_lookup {lo hi : Nat} {xs : List α} (h : Tiles lo xs hi) (f : α → β) {a : Nat}
    (hlo : lo ≤ a) : (lookup xs a).map f = (cover f xs)[a - lo]? := by
  induction xs generalizing lo with
  | nil => simp [lookup]
  | cons x xs ih =>
      by_cases hx : a < lo + size x
      · have hc : Covers x a := ⟨by rw [h.1]; exact hlo, by rw [stop, h.1]; exact hx⟩
        have hl := @lookup_eq_some α _ lo hi [] xs x h a hc
        rw [List.nil_append] at hl
        rw [hl, cover_cons, List.getElem?_append_left (by simp; omega)]
        rw [List.getElem?_replicate, if_pos (by omega), Option.map_some]
      · have hc : ¬ Covers x a := fun hc => hx (by have := hc.2; rwa [stop, h.1] at this)
        have hl : lookup (x :: xs) a = lookup xs a := by simp [lookup, hc]
        rw [hl, ih h.2 (by omega), cover_cons, List.getElem?_append_right (by simp; omega)]
        congr 1
        simp; omega

/-- Two tilings of a range give every address the same value exactly when their covers
are equal. -/
theorem map_lookup_eq_iff {lo hi : Nat} {xs ys : List α} (hx : Tiles lo xs hi)
    (hy : Tiles lo ys hi) (f g : α → β) :
    (∀ a, lo ≤ a → a < hi → (lookup xs a).map f = (lookup ys a).map g) ↔
      cover f xs = cover g ys := by
  have hlx := hx.stop_eq
  have hly := hy.stop_eq
  constructor
  · intro h
    apply List.ext_getElem?
    intro i
    by_cases hi' : i < hi - lo
    · have := h (lo + i) (by omega) (by omega)
      rw [map_lookup hx f (by omega), map_lookup hy g (by omega)] at this
      simpa using this
    · rw [List.getElem?_eq_none (by simp; omega), List.getElem?_eq_none (by simp; omega)]
  · intro h a hlo _
    rw [map_lookup hx f hlo, map_lookup hy g hlo, h]

/-- Extents that follow each other can be replaced by one of their total size. -/
theorem Tiles.merge {lo hi : Nat} {xs ys zs : List α} {x y : α}
    (h : Tiles lo (xs ++ x :: (ys ++ zs)) hi) (hb : base y = base x)
    (hs : size y = size x + total ys) : Tiles lo (xs ++ y :: zs) hi := by
  rw [tiles_append] at h ⊢
  refine ⟨h.1, hb.trans h.2.1, ?_⟩
  rw [hs, ← Nat.add_assoc]
  exact (tiles_append.1 h.2.2).2

/-- An extent can be replaced by two that follow each other. -/
theorem Tiles.split {lo hi : Nat} {xs ys : List α} {x y z : α}
    (h : Tiles lo (xs ++ x :: ys) hi) (hy : base y = base x) (hz : base z = base x + size y)
    (hs : size y + size z = size x) : Tiles lo (xs ++ y :: z :: ys) hi := by
  rw [tiles_append] at h ⊢
  obtain ⟨hfront, hbase, hback⟩ := h
  refine ⟨hfront, hy.trans hbase, hz.trans (by rw [hbase]), ?_⟩
  rw [Nat.add_assoc, hs]
  exact hback

theorem cover_split {f : α → β} {xs ys : List α} {x y z : α} (hy : f y = f x) (hz : f z = f x)
    (hs : size y + size z = size x) :
    cover f (xs ++ y :: z :: ys) = cover f (xs ++ x :: ys) := by
  simp only [cover_append, cover_cons, hy, hz, ← hs, List.replicate_add, List.append_assoc]

/-- Mapping the middle of a list changes the entries at its positions. -/
theorem getElem?_map_middle (xs ys zs : List β) (g : β → β) (i : Nat) :
    (xs ++ (ys.map g ++ zs))[i]? = ((xs ++ (ys ++ zs))[i]?).map fun b =>
      if xs.length ≤ i ∧ i < xs.length + ys.length then g b else b := by
  simp only [List.getElem?_append, List.length_map]
  by_cases hx : i < xs.length
  · simp [hx, Nat.not_le_of_lt hx]
  · by_cases hy : i - xs.length < ys.length
    · simp [hx, hy, show xs.length ≤ i ∧ i < xs.length + ys.length by omega]
    · simp [hx, hy, show ¬ (xs.length ≤ i ∧ i < xs.length + ys.length) by omega]

/-- A tiling shows the values of `f` along `xs ++ ys ++ zs` with `g` applied at the
addresses of `ys`, exactly when its cover is built that way. -/
theorem map_lookup_update_iff {lo hi : Nat} {res xs ys zs : List α} (hres : Tiles lo res hi)
    (h : Tiles lo (xs ++ (ys ++ zs)) hi) (f : α → β) (g : β → β) :
    (∀ a, lo ≤ a → a < hi → (lookup res a).map f =
        ((lookup (xs ++ (ys ++ zs)) a).map f).map fun b =>
          if lo + total xs ≤ a ∧ a < lo + total xs + total ys then g b else b) ↔
      cover f res = cover f xs ++ (cover (g ∘ f) ys ++ cover f zs) := by
  have hlen : hi = lo + total res := hres.stop_eq
  have hlen' : hi = lo + (total xs + (total ys + total zs)) := by simpa using h.stop_eq
  have key : ∀ i, (cover f xs ++ (cover (g ∘ f) ys ++ cover f zs))[i]? =
      ((cover f (xs ++ (ys ++ zs)))[i]?).map fun b =>
        if total xs ≤ i ∧ i < total xs + total ys then g b else b := by
    intro i
    simpa [← map_cover] using getElem?_map_middle (cover f xs) (cover f ys) (cover f zs) g i
  constructor
  · intro hall
    apply List.ext_getElem?
    intro i
    rw [key]
    by_cases hi' : i < hi - lo
    · have := hall (lo + i) (by omega) (by omega)
      rw [map_lookup hres f (by omega), map_lookup h f (by omega)] at this
      simpa [Nat.add_assoc] using this
    · rw [List.getElem?_eq_none (by simp; omega), List.getElem?_eq_none (by simp; omega)]
      rfl
  · intro heq a hlo _
    rw [map_lookup hres f hlo, map_lookup h f hlo, heq, key]
    congr 1
    funext b
    congr 1
    simp only [eq_iff_iff]
    omega

end Extent

end Vin64.Lib
