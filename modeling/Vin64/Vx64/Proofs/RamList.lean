import Vin64.Vx64.RamList
import Mathlib.Data.Finset.Max
import Mathlib.Data.List.Pairwise

/-!
# Blocks of RAM stay apart

Whatever is allocated and freed, in any order, no two blocks share an address, every page of a block
has dirty flags, and the block that was used last is found as the search would find it.
-/

namespace Vin64.Vx64

def RAMBlock.stop (b : RAMBlock) : Nat := b.offset + b.length

def RAMBlock.Apart (b c : RAMBlock) : Prop := b.stop ≤ c.offset ∨ c.stop ≤ b.offset

/-- What the blocks of a list keep to. -/
structure Blocks (blocks : List RAMBlock) : Prop where
  offset : ∀ b ∈ blocks, b.offset % 4096 = 0
  length : ∀ b ∈ blocks, b.length % 4096 = 0
  stop : ∀ b ∈ blocks, b.stop ≤ RAM_ADDR_MAX
  apart : blocks.Pairwise RAMBlock.Apart
  sorted : blocks.Pairwise fun b c => c.length ≤ b.length

structure RAMList.Inv (l : RAMList) : Prop where
  blocks : Blocks l.blocks
  mru : ∀ b, l.mruBlock = some b → b ∈ l.blocks
  dirty : ∀ b ∈ l.blocks, ∀ addr, b.offset ≤ addr → addr < b.stop →
    ∃ v, l.physDirty.getDirtyFlags addr = some v

variable {l l' : RAMList} {blocks rest : List RAMBlock} {b c : RAMBlock} {t t' : DirtyTable}
  {size limit addr n : Nat} {v : BitVec 8}

theorem RAMBlock.Apart.symm (h : b.Apart c) : c.Apart b := Or.symm h

instance : Std.Symm RAMBlock.Apart := ⟨fun _ _ h => h.symm⟩

/-! ## The best gap -/

/-- The inner loop, from any start. -/
theorem nextOffset_fold (blocks : List RAMBlock) (limit next : Nat) :
    let found := blocks.foldl
      (fun next b => if b.offset ≥ limit then min next b.offset else next) next
    found ≤ next ∧ (∀ b ∈ blocks, limit ≤ b.offset → found ≤ b.offset) ∧
      (limit ≤ next → limit ≤ found) := by
  induction blocks generalizing next with
  | nil => exact ⟨Nat.le_refl _, fun b hb => absurd hb List.not_mem_nil, id⟩
  | cons c blocks ih =>
      obtain ⟨hle, hall, hge⟩ := ih (if c.offset ≥ limit then min next c.offset else next)
      rw [List.foldl_cons]
      refine ⟨Nat.le_trans hle ?_, fun b hb hlimit => ?_, fun hnext => hge ?_⟩
      · split <;> omega
      · rcases List.mem_cons.1 hb with rfl | hb
        · rw [if_pos hlimit] at hle ⊢
          exact Nat.le_trans hle (Nat.min_le_right ..)
        · exact hall b hb hlimit
      · split <;> omega

theorem nextOffset_le (hb : b ∈ blocks) (hlimit : limit ≤ b.offset) :
    nextOffset blocks limit ≤ b.offset :=
  (nextOffset_fold blocks limit RAM_ADDR_MAX).2.1 b hb hlimit

theorem nextOffset_le_max : nextOffset blocks limit ≤ RAM_ADDR_MAX :=
  (nextOffset_fold blocks limit RAM_ADDR_MAX).1

theorem le_nextOffset (h : limit ≤ RAM_ADDR_MAX) : limit ≤ nextOffset blocks limit :=
  (nextOffset_fold blocks limit RAM_ADDR_MAX).2.2 h

theorem stop_mod (h : b.stop ≤ RAM_ADDR_MAX) :
    (b.offset + b.length) % 18446744073709551616 = b.stop :=
  Nat.mod_eq_of_lt (Nat.lt_succ_of_le h)

/-- The offset is what it was, or the end of a block that is followed by a gap. -/
theorem bestGap_spec (hstop : ∀ b ∈ rest, b.stop ≤ RAM_ADDR_MAX) (offset mingap : Nat) :
    (bestGap blocks size rest (offset, mingap)).1 = offset ∨
      ∃ b ∈ rest, b.stop + size ≤ nextOffset blocks b.stop ∧
        (bestGap blocks size rest (offset, mingap)).1 = b.stop := by
  induction rest generalizing offset mingap with
  | nil => exact .inl rfl
  | cons c rest ih =>
      have hc := hstop c List.mem_cons_self
      have hnext := @le_nextOffset blocks c.stop hc
      have hrest := ih fun b hb => hstop b (List.mem_cons_of_mem _ hb)
      rw [bestGap, stop_mod hc]
      split
      · rcases hrest c.stop (nextOffset blocks c.stop - c.stop) with heq | ⟨b, hb, hgap, heq⟩
        · exact .inr ⟨c, List.mem_cons_self, by omega, heq⟩
        · exact .inr ⟨b, List.mem_cons_of_mem _ hb, hgap, heq⟩
      · rcases hrest offset mingap with heq | ⟨b, hb, hgap, heq⟩
        · exact .inl heq
        · exact .inr ⟨b, List.mem_cons_of_mem _ hb, hgap, heq⟩

/-- What is found is free. -/
theorem findRamOffset_spec {offset : Nat} (h : Blocks blocks) (hsize : size ≤ RAM_ADDR_MAX)
    (hfind : findRamOffset blocks size = some offset) :
    offset % 4096 = 0 ∧ offset + size ≤ RAM_ADDR_MAX ∧
      ∀ b ∈ blocks, b.stop ≤ offset ∨ offset + size ≤ b.offset := by
  unfold findRamOffset at hfind
  split at hfind
  · next hempty =>
      obtain rfl := Option.some.inj hfind
      exact ⟨rfl, by omega, fun b hb => absurd (hempty ▸ hb) List.not_mem_nil⟩
  · dsimp only at hfind
    split at hfind
    · cases hfind
    · next hne =>
        obtain rfl := Option.some.inj hfind
        obtain heq | ⟨b, hb, hgap, heq⟩ :=
          @bestGap_spec blocks blocks size h.stop RAM_ADDR_MAX RAM_ADDR_MAX
        · exact absurd heq hne
        · have hmax := @nextOffset_le_max blocks b.stop
          have hoffset := h.offset b hb
          have hlength := h.length b hb
          rw [heq]
          refine ⟨by unfold RAMBlock.stop; omega, by omega, fun c hc => ?_⟩
          by_cases hafter : b.stop ≤ c.offset
          · exact .inr (Nat.le_trans hgap (nextOffset_le hc hafter))
          · by_cases hsame : b = c
            · exact .inl (hsame ▸ Nat.le_refl _)
            · rcases h.apart.forall hb hc hsame with hbefore | hbefore
              · exact absurd hbefore hafter
              · exact .inl (Nat.le_trans hbefore (Nat.le_add_right ..))

theorem nextOffset_of_lt (h : ∀ b ∈ blocks, b.offset < limit) :
    nextOffset blocks limit = RAM_ADDR_MAX := by
  unfold nextOffset
  induction blocks with
  | nil => rfl
  | cons b blocks ih =>
      have hb := h b List.mem_cons_self
      rw [List.foldl_cons, if_neg (by omega)]
      exact ih fun c hc => h c (List.mem_cons_of_mem _ hc)

/-- A gap that is large enough, and smaller than the best so far, is not overlooked. -/
theorem bestGap_found (hstop : ∀ b ∈ rest, b.stop ≤ RAM_ADDR_MAX) {offset mingap : Nat}
    (hb : b ∈ rest) (hgap : size ≤ nextOffset blocks b.stop - b.stop)
    (hless : nextOffset blocks b.stop - b.stop < mingap) :
    ∃ c ∈ rest, (bestGap blocks size rest (offset, mingap)).1 = c.stop := by
  induction rest generalizing offset mingap with
  | nil => exact absurd hb List.not_mem_nil
  | cons c rest ih =>
      have hrest : ∀ b ∈ rest, b.stop ≤ RAM_ADDR_MAX := fun b hb =>
        hstop b (List.mem_cons_of_mem _ hb)
      rw [bestGap, stop_mod (hstop c List.mem_cons_self)]
      by_cases hc : nextOffset blocks c.stop - c.stop ≥ size ∧
          nextOffset blocks c.stop - c.stop < mingap
      · simp only [if_pos hc]
        rcases @bestGap_spec blocks rest size hrest c.stop
          (nextOffset blocks c.stop - c.stop) with heq | ⟨d, hd, -, heq⟩
        · exact ⟨c, List.mem_cons_self, heq⟩
        · exact ⟨d, List.mem_cons_of_mem _ hd, heq⟩
      · simp only [if_neg hc]
        rcases List.mem_cons.1 hb with rfl | hb
        · exact absurd ⟨hgap, hless⟩ hc
        · obtain ⟨d, hd, heq⟩ := ih hrest hb hless
          exact ⟨d, List.mem_cons_of_mem _ hd, heq⟩

/-- There is room after the last block, as long as no block comes near the end. -/
theorem findRamOffset_isSome (h : Blocks blocks) (hpos : ∀ b ∈ blocks, 0 < b.length)
    (hlimit : ∀ b ∈ blocks, b.stop ≤ limit) (hroom : limit + size ≤ RAM_ADDR_MAX) :
    ∃ offset, findRamOffset blocks size = some offset ∧ offset ≤ limit := by
  unfold findRamOffset
  by_cases hempty : blocks = []
  · exact ⟨0, if_pos hempty, Nat.zero_le _⟩
  · rw [if_neg hempty]
    obtain ⟨b, hb, hlast⟩ := blocks.toFinset.exists_max_image RAMBlock.stop
      ((List.toFinset_nonempty_iff blocks).2 hempty)
    have hb := List.mem_toFinset.1 hb
    have hnext : nextOffset blocks b.stop = RAM_ADDR_MAX := nextOffset_of_lt fun c hc => by
      have hle := hlast c (List.mem_toFinset.2 hc)
      have hcpos := hpos c hc
      unfold RAMBlock.stop at hle ⊢
      omega
    have hblimit := hlimit b hb
    have hbpos := hpos b hb
    have hstop : 0 < b.stop := by
      unfold RAMBlock.stop
      omega
    obtain ⟨c, hc, heq⟩ : ∃ c ∈ blocks,
        (bestGap blocks size blocks (RAM_ADDR_MAX, RAM_ADDR_MAX)).1 = c.stop :=
      bestGap_found h.stop hb (by omega) (by omega)
    have hoffset := h.offset c hc
    have hlength := h.length c hc
    have hne : c.stop ≠ RAM_ADDR_MAX := by
      unfold RAMBlock.stop RAM_ADDR_MAX
      omega
    exact ⟨c.stop, by rw [heq]; exact if_neg hne, hlimit c hc⟩

/-! ## The sorted list -/

theorem insertBlock_perm (new : RAMBlock) (blocks : List RAMBlock) :
    (insertBlock new blocks).Perm (new :: blocks) := by
  induction blocks with
  | nil => exact List.Perm.refl _
  | cons b blocks ih =>
      rw [insertBlock]
      split
      · exact List.Perm.refl _
      · exact (ih.cons b).trans (List.Perm.swap ..)

theorem insertBlock_sorted (new : RAMBlock)
    (h : blocks.Pairwise fun b c => c.length ≤ b.length) :
    (insertBlock new blocks).Pairwise fun b c => c.length ≤ b.length := by
  induction blocks with
  | nil => exact List.pairwise_singleton ..
  | cons b blocks ih =>
      obtain ⟨hfirst, hrest⟩ := List.pairwise_cons.1 h
      rw [insertBlock]
      split
      · next hlt =>
          refine List.pairwise_cons.2 ⟨fun c hc => ?_, h⟩
          rcases List.mem_cons.1 hc with rfl | hc
          · exact Nat.le_of_lt hlt
          · exact Nat.le_trans (hfirst c hc) (Nat.le_of_lt hlt)
      · next hle =>
          refine List.pairwise_cons.2 ⟨fun c hc => ?_, ih hrest⟩
          rcases List.mem_cons.1 ((insertBlock_perm new blocks).mem_iff.1 hc) with rfl | hc
          · exact Nat.not_lt.1 hle
          · exact hfirst c hc

theorem Blocks.insert (h : Blocks blocks) (hoffset : b.offset % 4096 = 0)
    (hlength : b.length % 4096 = 0) (hstop : b.stop ≤ RAM_ADDR_MAX)
    (hapart : ∀ c ∈ blocks, b.Apart c) : Blocks (insertBlock b blocks) := by
  have hperm := insertBlock_perm b blocks
  have hmem : ∀ P : RAMBlock → Prop, P b → (∀ c ∈ blocks, P c) → ∀ c ∈ insertBlock b blocks, P c :=
    fun P hb hall c hc => by
      rcases List.mem_cons.1 (hperm.mem_iff.1 hc) with rfl | hc
      · exact hb
      · exact hall c hc
  exact
    { offset := hmem (·.offset % 4096 = 0) hoffset h.offset
      length := hmem (·.length % 4096 = 0) hlength h.length
      stop := hmem (·.stop ≤ RAM_ADDR_MAX) hstop h.stop
      apart := (hperm.pairwise_iff RAMBlock.Apart.symm).2 (List.pairwise_cons.2 ⟨hapart, h.apart⟩)
      sorted := insertBlock_sorted b h.sorted }

theorem Blocks.sublist (h : Blocks blocks) (hsub : List.Sublist rest blocks) : Blocks rest :=
  { offset := fun b hb => h.offset b (hsub.subset hb)
    length := fun b hb => h.length b (hsub.subset hb)
    stop := fun b hb => h.stop b (hsub.subset hb)
    apart := h.apart.sublist hsub
    sorted := h.sorted.sublist hsub }

theorem lastRamOffset_fold (blocks : List RAMBlock) (last : Nat) :
    let found := blocks.foldl
      (fun last b => max last ((b.offset + b.length) % 18446744073709551616)) last
    last ≤ found ∧ ∀ b ∈ blocks, b.stop ≤ RAM_ADDR_MAX → b.stop ≤ found := by
  induction blocks generalizing last with
  | nil => exact ⟨Nat.le_refl _, fun b hb => absurd hb List.not_mem_nil⟩
  | cons c blocks ih =>
      obtain ⟨hle, hall⟩ := ih (max last ((c.offset + c.length) % 18446744073709551616))
      rw [List.foldl_cons]
      refine ⟨Nat.le_trans (Nat.le_max_left ..) hle, fun b hb hstop => ?_⟩
      rcases List.mem_cons.1 hb with rfl | hb
      · rw [stop_mod hstop] at hle ⊢
        exact Nat.le_trans (Nat.le_max_right ..) hle
      · exact hall b hb hstop

theorem le_lastRamOffset (hb : b ∈ blocks) (hstop : b.stop ≤ RAM_ADDR_MAX) :
    b.stop ≤ lastRamOffset blocks := (lastRamOffset_fold blocks 0).2 b hb hstop

/-! ## Dirty flags -/

namespace DirtyTable

theorem length_realloc (t : DirtyTable) (size : Nat) : (t.realloc size).length = size := by
  rw [realloc, List.length_append, List.length_take, List.length_replicate]
  omega

theorem getDirtyFlags_realloc (h : addr / 4096 < size) :
    (t.realloc size).getDirtyFlags addr = t.getDirtyFlags addr := by
  unfold getDirtyFlags realloc
  by_cases hin : addr / 4096 < t.length
  · rw [List.getElem?_append_left (by rw [List.length_take]; omega), List.getElem?_take_of_lt h]
  · rw [List.getElem?_append_right (by rw [List.length_take]; omega), List.getElem?_replicate,
      List.getElem?_eq_none (Nat.not_lt.1 hin)]
    split <;> rfl

theorem memset_spec {first : Nat} (v : BitVec 8) (h : first + n ≤ t.length) :
    ∃ t', t.memset first v n = some t' ∧ t'.length = t.length ∧ ∀ addr, t'.getDirtyFlags addr =
      if first ≤ addr / 4096 ∧ addr / 4096 < first + n then some v else t.getDirtyFlags addr := by
  refine ⟨_, if_pos h, ?_, fun addr => ?_⟩
  · simp only [List.length_append, List.length_take, List.length_replicate, List.length_drop]
    omega
  · unfold getDirtyFlags
    have hfirst : (t.take first).length = first := by rw [List.length_take]; omega
    have hmid : (t.take first ++ List.replicate n (some v)).length = first + n := by
      rw [List.length_append, hfirst, List.length_replicate]
    by_cases hlow : addr / 4096 < first
    · rw [if_neg (by omega), List.append_assoc, List.getElem?_append_left (by omega),
        List.getElem?_take_of_lt hlow]
    · by_cases hhigh : addr / 4096 < first + n
      · rw [if_pos (by omega), List.getElem?_append_left (by omega),
          List.getElem?_append_right (by omega), List.getElem?_replicate, if_pos (by omega)]
        rfl
      · rw [if_neg (by omega), List.getElem?_append_right (by omega), List.getElem?_drop, hmid]
        congr 2
        omega

theorem updateFlags_spec {f : BitVec 8 → BitVec 8} (h : t.getDirtyFlags addr = some v) :
    ∃ t', t.updateFlags addr f = some t' ∧ t'.length = t.length ∧ ∀ a, t'.getDirtyFlags a =
      if a / 4096 = addr / 4096 then some (f v) else t.getDirtyFlags a := by
  refine ⟨_, by rw [updateFlags, h]; rfl, List.length_set, fun a => ?_⟩
  have hin : addr / 4096 < t.length := by
    refine Classical.byContradiction fun hout => ?_
    rw [getDirtyFlags, List.getElem?_eq_none (Nat.not_lt.1 hout)] at h
    cases h
  unfold getDirtyFlags
  by_cases hsame : addr / 4096 = a / 4096
  · rw [if_pos hsame.symm, ← hsame, List.getElem?_set_self hin]
    rfl
  · rw [if_neg (Ne.symm hsame), List.getElem?_set_ne hsame]

/-- The pages of a range are gone through one after the other. -/
theorem updatePages_spec {f : BitVec 8 → BitVec 8} {first : Nat}
    (h : ∀ page, first ≤ page → page < first + n → ∃ v, t.getDirtyFlags (page * 4096) = some v) :
    ∃ t', (List.range' first n).foldlM (fun (t : DirtyTable) page => t.updateFlags (page * 4096) f)
        t = some t' ∧ t'.length = t.length ∧ ∀ a, t'.getDirtyFlags a =
      if first ≤ a / 4096 ∧ a / 4096 < first + n then (t.getDirtyFlags a).map f
      else t.getDirtyFlags a := by
  induction n generalizing first t with
  | zero => exact ⟨t, rfl, rfl, fun a => by rw [if_neg (by omega)]⟩
  | succ n ih =>
      obtain ⟨v, hv⟩ := h first (Nat.le_refl _) (by omega)
      obtain ⟨t₁, hset, hlen, hget⟩ := @updateFlags_spec t (first * 4096) v f hv
      have hpage : first * 4096 / 4096 = first := Nat.mul_div_cancel _ (by decide)
      rw [hpage] at hget
      obtain ⟨t', hrun, hlen', hget'⟩ := @ih t₁ (first + 1) fun page hge hlt => by
        obtain ⟨w, hw⟩ := h page (by omega) (by omega)
        exact ⟨w, by rw [hget, Nat.mul_div_cancel _ (by decide), if_neg (by omega), hw]⟩
      refine ⟨t', ?_, hlen'.trans hlen, fun a => ?_⟩
      · rw [List.range'_succ, List.foldlM_cons, hset]
        exact hrun
      · rw [hget', hget]
        by_cases hfirst : a / 4096 = first
        · have hsame : t.getDirtyFlags a = some v := by
            rw [← hv, getDirtyFlags, getDirtyFlags, hfirst, hpage]
          rw [if_neg (by omega), if_pos hfirst, if_pos (by omega), hsame]
          rfl
        · rw [if_neg hfirst]
          by_cases hin : first + 1 ≤ a / 4096 ∧ a / 4096 < first + 1 + n
          · rw [if_pos hin, if_pos (by omega)]
          · rw [if_neg hin, if_neg (by omega)]

/-- A range of whole pages, all of which have flags. -/
theorem forPages_spec {f : BitVec 8 → BitVec 8} {start length : Nat} (hstart : start % 4096 = 0)
    (hlength : length % 4096 = 0) (hend : start + length ≤ RAM_ADDR_MAX)
    (h : ∀ a, start ≤ a → a < start + length → ∃ v, t.getDirtyFlags a = some v) :
    ∃ t', t.forPages start length (·.updateFlags · f) = some t' ∧ t'.length = t.length ∧
      ∀ a, t'.getDirtyFlags a = if start ≤ a ∧ a < start + length then
        (t.getDirtyFlags a).map f else t.getDirtyFlags a := by
  unfold RAM_ADDR_MAX at hend
  have hpages : targetPageAlign ((start + length) % 18446744073709551616) / 4096 - start / 4096 =
      length / 4096 := by
    unfold targetPageAlign
    omega
  obtain ⟨t', hrun, hlen, hget⟩ := @updatePages_spec t (length / 4096) f (start / 4096)
    fun page hge hlt => h (page * 4096) (by omega) (by omega)
  refine ⟨t', ?_, hlen, fun a => ?_⟩
  · rw [forPages, hpages]
    exact hrun
  · rw [hget]
    exact if_congr (by omega) rfl rfl

end DirtyTable

/-! ## Allocation -/

theorem targetPageAlign_mod (size : Nat) : targetPageAlign size % 4096 = 0 :=
  Nat.mul_mod_left ..

theorem targetPageAlign_le (size : Nat) : targetPageAlign size ≤ RAM_ADDR_MAX := by
  unfold targetPageAlign RAM_ADDR_MAX
  omega

/-- The block that `qemu_ram_alloc_from_ptr` makes at an offset. -/
def newBlock (size host mr offset : Nat) : RAMBlock := ⟨mr, host, offset, targetPageAlign size⟩

@[simp] theorem newBlock_length (size host mr offset : Nat) :
    (newBlock size host mr offset).length = targetPageAlign size := rfl

@[simp] theorem newBlock_stop (size host mr offset : Nat) :
    (newBlock size host mr offset).stop = offset + targetPageAlign size := rfl

/-- The new block has all dirty flags; the other blocks keep theirs. -/
structure Allocated (l l' : RAMList) (new : RAMBlock) : Prop where
  inv : l'.Inv
  blocks : l'.blocks.Perm (new :: l.blocks)
  apart : ∀ b ∈ l.blocks, new.Apart b
  dirty : ∀ addr, new.offset ≤ addr → addr < new.stop →
    l'.physDirty.getDirtyFlags addr = some 255
  kept : ∀ b ∈ l.blocks, ∀ addr, b.offset ≤ addr → addr < b.stop →
    l'.physDirty.getDirtyFlags addr = l.physDirty.getDirtyFlags addr

theorem qemuRamAllocFromPtr_spec {offset : Nat} (h : l.Inv) (size host mr : Nat)
    (hfind : findRamOffset l.blocks (targetPageAlign size) = some offset) :
    ∃ l', l.qemuRamAllocFromPtr size host mr = some (offset, l') ∧
      Allocated l l' (newBlock size host mr offset) := by
  have hsize := targetPageAlign_mod size
  obtain ⟨hoffset, hend, hfree⟩ := findRamOffset_spec h.blocks (targetPageAlign_le size) hfind
  have hstop := newBlock_stop size host mr offset
  have hapart : ∀ b ∈ l.blocks, (newBlock size host mr offset).Apart b := fun b hb =>
    (hfree b hb).symm
  have hblocks := h.blocks.insert (b := newBlock size host mr offset) hoffset hsize hend hapart
  have hperm := insertBlock_perm (newBlock size host mr offset) l.blocks
  have hlast : ∀ b ∈ insertBlock (newBlock size host mr offset) l.blocks, ∀ addr, addr < b.stop →
      addr / 4096 < lastRamOffset (insertBlock (newBlock size host mr offset) l.blocks) / 4096 := by
    intro b hb addr haddr
    have hle := le_lastRamOffset hb (hblocks.stop b hb)
    have hboffset := hblocks.offset b hb
    have hblength := hblocks.length b hb
    unfold RAMBlock.stop at hle haddr
    omega
  have hnew : newBlock size host mr offset ∈ insertBlock (newBlock size host mr offset) l.blocks :=
    hperm.mem_iff.2 List.mem_cons_self
  have hin : ∀ b ∈ l.blocks, b ∈ insertBlock (newBlock size host mr offset) l.blocks := fun b hb =>
    hperm.mem_iff.2 (List.mem_cons_of_mem _ hb)
  have hroom := le_lastRamOffset hnew hend
  have hfits : offset / 4096 + targetPageAlign size / 4096 ≤ (l.physDirty.realloc
      (lastRamOffset (insertBlock (newBlock size host mr offset) l.blocks) / 4096)).length := by
    rw [DirtyTable.length_realloc]
    omega
  obtain ⟨t₁, hmemset, hlen₁, hget₁⟩ := DirtyTable.memset_spec 0 hfits
  obtain ⟨t₂, hset, hlen₂, hget₂⟩ := DirtyTable.forPages_spec (t := t₁) (f := (· ||| 255)) hoffset
    hsize hend fun a hge hlt => ⟨0, by rw [hget₁, if_pos (by omega)]⟩
  have hdirty : ∀ addr, offset ≤ addr → addr < offset + targetPageAlign size →
      t₂.getDirtyFlags addr = some 255 := by
    intro addr hge hlt
    rw [hget₂, if_pos ⟨hge, hlt⟩, hget₁, if_pos (by omega)]
    rfl
  have hkept : ∀ b ∈ l.blocks, ∀ addr, b.offset ≤ addr → addr < b.stop →
      t₂.getDirtyFlags addr = l.physDirty.getDirtyFlags addr := by
    intro b hb addr hge hlt
    have hfreeb := hfree b hb
    rw [hget₂, if_neg (by omega), hget₁, if_neg (by omega),
      DirtyTable.getDirtyFlags_realloc (hlast b (hin b hb) addr hlt)]
  refine ⟨⟨insertBlock (newBlock size host mr offset) l.blocks, none, t₂⟩, ?_, ?_⟩
  · have hset' : t₁.setDirtyRange offset (targetPageAlign size) 255 = some t₂ := hset
    unfold newBlock at hmemset
    simp only [RAMList.qemuRamAllocFromPtr, hfind, hmemset, hset', Option.bind_eq_bind,
      Option.bind_some]
    rfl
  · exact
      { inv :=
          { blocks := hblocks
            mru := fun b hb => by cases hb
            dirty := fun b hb addr hge hlt => by
              rcases List.mem_cons.1 (hperm.mem_iff.1 hb) with rfl | hb
              · exact ⟨255, hdirty addr hge hlt⟩
              · obtain ⟨v, hv⟩ := h.dirty b hb addr hge hlt
                exact ⟨v, (hkept b hb addr hge hlt).trans hv⟩ }
        blocks := hperm
        apart := hapart
        dirty := hdirty
        kept := hkept }

/-! ## The block of an address -/

theorem find?_eq_some_iff_of_unique {p : RAMBlock → Bool}
    (h : ∀ b ∈ blocks, ∀ c ∈ blocks, p b = true → p c = true → b = c) :
    blocks.find? p = some b ↔ b ∈ blocks ∧ p b = true := by
  constructor
  · exact fun hfind => ⟨List.mem_of_find?_eq_some hfind, List.find?_some hfind⟩
  · rintro ⟨hb, hp⟩
    obtain ⟨c, hc⟩ := Option.isSome_iff_exists.1 (List.find?_isSome.2 ⟨b, hb, hp⟩)
    rw [hc, h b hb c (List.mem_of_find?_eq_some hc) hp (List.find?_some hc)]

theorem holds_iff (hstop : b.stop ≤ RAM_ADDR_MAX) (haddr : addr ≤ RAM_ADDR_MAX) :
    b.holds addr = true ↔ b.offset ≤ addr ∧ addr < b.stop := by
  unfold RAMBlock.stop RAM_ADDR_MAX at *
  rw [RAMBlock.holds, decide_eq_true_iff]
  omega

theorem Blocks.eq_of_mem (h : Blocks blocks) (hb : b ∈ blocks) (hc : c ∈ blocks)
    (hboffset : b.offset ≤ addr) (hbstop : addr < b.stop) (hcoffset : c.offset ≤ addr)
    (hcstop : addr < c.stop) : b = c := by
  refine Classical.byContradiction fun hne => ?_
  rcases h.apart.forall hb hc hne with hapart | hapart <;> omega

theorem Blocks.find_iff (h : Blocks blocks) (haddr : addr ≤ RAM_ADDR_MAX) :
    blocks.find? (·.holds addr) = some b ↔ b ∈ blocks ∧ b.offset ≤ addr ∧ addr < b.stop := by
  rw [find?_eq_some_iff_of_unique fun b hb c hc hpb hpc => ?_]
  · exact and_congr_right fun hb => holds_iff (h.stop b hb) haddr
  · obtain ⟨hboffset, hbstop⟩ := (holds_iff (h.stop b hb) haddr).1 hpb
    obtain ⟨hcoffset, hcstop⟩ := (holds_iff (h.stop c hc) haddr).1 hpc
    exact h.eq_of_mem hb hc hboffset hbstop hcoffset hcstop

/-- The block that was used last is the one that the search finds. -/
theorem RAMList.Inv.getRamPtr_eq (h : l.Inv) (haddr : addr ≤ RAM_ADDR_MAX) :
    (l.qemuGetRamPtr addr).map Prod.fst = l.qemuSafeRamPtr addr := by
  rw [qemuGetRamPtr, qemuSafeRamPtr]
  split
  · next b hmru =>
      obtain ⟨hb, hholds⟩ := Option.filter_eq_some_iff.1 hmru
      have hmem := h.mru b hb
      rw [(h.blocks.find_iff haddr).2 ⟨hmem, (holds_iff (h.blocks.stop b hmem) haddr).1 hholds⟩]
      rfl
  · rw [Option.map_map]
    rfl

/-- The pointer to a byte of a block. -/
theorem RAMList.Inv.getRamPtr_block (h : l.Inv) (hb : b ∈ l.blocks) {off : Nat}
    (hoff : off < b.length) (hhost : b.host + b.length ≤ 18446744073709551616) :
    ∃ mru, l.qemuGetRamPtr (b.offset + off) = some (b.host + off, { l with mruBlock := mru }) ∧
      ∀ c, mru = some c → c ∈ l.blocks := by
  have hstop := h.blocks.stop b hb
  have haddr : b.offset + off ≤ RAM_ADDR_MAX := by
    unfold RAMBlock.stop at hstop
    omega
  have hfind := (h.blocks.find_iff haddr).2
    ⟨hb, Nat.le_add_right .., Nat.add_lt_add_left hoff b.offset⟩
  have hptr : b.ptr (b.offset + off) = b.host + off := by
    unfold RAMBlock.ptr
    omega
  have heq := h.getRamPtr_eq haddr
  rw [qemuSafeRamPtr, hfind, Option.map_some, hptr] at heq
  rw [qemuGetRamPtr] at heq ⊢
  split at heq
  · next c hmru =>
      have hsame : c.ptr (b.offset + off) = b.host + off := Option.some.inj heq
      exact ⟨l.mruBlock, by rw [hsame], fun c hc => h.mru c hc⟩
  · rw [hfind]
    refine ⟨some b, by rw [Option.map_some, hptr], fun c hc => ?_⟩
    obtain rfl := Option.some.inj hc
    exact hb

/-! ## Release -/

theorem qemuRamFreeFromPtr_sublist (l : RAMList) (addr : Nat) :
    (l.qemuRamFreeFromPtr addr).blocks.Sublist l.blocks := by
  unfold RAMList.qemuRamFreeFromPtr
  split
  · exact List.eraseP_sublist
  · exact List.Sublist.refl _

theorem qemuRamFreeFromPtr_physDirty (l : RAMList) (addr : Nat) :
    (l.qemuRamFreeFromPtr addr).physDirty = l.physDirty := by
  unfold RAMList.qemuRamFreeFromPtr
  split <;> rfl

theorem qemuRamFreeFromPtr_mru (l : RAMList) (addr : Nat) :
    (l.qemuRamFreeFromPtr addr).mruBlock = none ∨ l.qemuRamFreeFromPtr addr = l := by
  unfold RAMList.qemuRamFreeFromPtr
  split
  · exact .inl rfl
  · exact .inr rfl

theorem RAMList.Inv.free (h : l.Inv) (addr : Nat) : (l.qemuRamFreeFromPtr addr).Inv := by
  have hsub := qemuRamFreeFromPtr_sublist l addr
  refine ⟨h.blocks.sublist hsub, fun b hb => ?_, fun b hb a hge hlt => ?_⟩
  · rcases qemuRamFreeFromPtr_mru l addr with hmru | heq
    · rw [hmru] at hb
      cases hb
    · rw [heq] at hb ⊢
      exact h.mru b hb
  · rw [qemuRamFreeFromPtr_physDirty]
    exact h.dirty b (hsub.subset hb) a hge hlt

/-- Blocks with bytes have different offsets, so that one is removed at most. -/
theorem qemuRamFreeFromPtr_blocks (h : Blocks l.blocks) (hpos : ∀ b ∈ l.blocks, 0 < b.length)
    (addr : Nat) : (l.qemuRamFreeFromPtr addr).blocks = l.blocks.filter (addr ≠ ·.offset) := by
  have herase : ∀ blocks : List RAMBlock, Blocks blocks → (∀ b ∈ blocks, 0 < b.length) →
      blocks.eraseP (addr = ·.offset) = blocks.filter (addr ≠ ·.offset) := by
    intro blocks hblocks hpos
    induction blocks with
    | nil => rfl
    | cons b blocks ih =>
        by_cases hb : addr = b.offset
        · have hother : ∀ c ∈ blocks, decide (addr ≠ c.offset) = true := by
            intro c hc
            have hapart := (List.pairwise_cons.1 hblocks.apart).1 c hc
            have hbpos := hpos b List.mem_cons_self
            have hcpos := hpos c (List.mem_cons_of_mem _ hc)
            unfold RAMBlock.Apart RAMBlock.stop at hapart
            exact decide_eq_true (by omega)
          rw [List.eraseP_cons_of_pos (by simpa using hb), List.filter_cons_of_neg (by simpa using hb),
            List.filter_eq_self.2 hother]
        · rw [List.eraseP_cons_of_neg (by simpa using hb), List.filter_cons_of_pos (by simpa using hb),
            ih (hblocks.sublist (List.sublist_cons_self ..))
              fun c hc => hpos c (List.mem_cons_of_mem _ hc)]
  rw [← herase l.blocks h hpos, RAMList.qemuRamFreeFromPtr]
  split
  · rfl
  · next hnone =>
      exact (List.eraseP_of_forall_not fun b hb hp => hnone (List.any_eq_true.2 ⟨b, hb, hp⟩)).symm

/-! ## Runs -/

theorem empty_inv : RAMList.empty.Inv :=
  { blocks :=
      { offset := fun b hb => absurd hb List.not_mem_nil
        length := fun b hb => absurd hb List.not_mem_nil
        stop := fun b hb => absurd hb List.not_mem_nil
        apart := List.Pairwise.nil
        sorted := List.Pairwise.nil }
    mru := fun b hb => by cases hb
    dirty := fun b hb => absurd hb List.not_mem_nil }

/-- The same blocks and flags: only the block that was used last may differ. -/
structure SameBlocks (l l' : RAMList) : Prop where
  blocks : l.blocks = l'.blocks
  physDirty : l.physDirty = l'.physDirty

theorem SameBlocks.alloc (h : SameBlocks l l') (size host mr : Nat) :
    l.qemuRamAllocFromPtr size host mr = l'.qemuRamAllocFromPtr size host mr := by
  unfold RAMList.qemuRamAllocFromPtr
  rw [h.blocks, h.physDirty]

theorem SameBlocks.free (h : SameBlocks l l') (addr : Nat) :
    SameBlocks (l.qemuRamFreeFromPtr addr) (l'.qemuRamFreeFromPtr addr) := by
  unfold RAMList.qemuRamFreeFromPtr
  rw [h.blocks]
  split
  · exact ⟨rfl, h.physDirty⟩
  · exact h

theorem SameBlocks.safeRamPtr (h : SameBlocks l l') (addr : Nat) :
    l.qemuSafeRamPtr addr = l'.qemuSafeRamPtr addr := by
  unfold RAMList.qemuSafeRamPtr
  rw [h.blocks]

/-- An allocation that returns has found an offset. -/
theorem qemuRamAllocFromPtr_find {offset host mr : Nat}
    (hrun : l.qemuRamAllocFromPtr size host mr = some (offset, l')) :
    findRamOffset l.blocks (targetPageAlign size) = some offset := by
  unfold RAMList.qemuRamAllocFromPtr at hrun
  dsimp only at hrun
  obtain ⟨found, hfind, hrun⟩ := Option.bind_eq_some_iff.1 hrun
  obtain ⟨t₁, -, hrun⟩ := Option.bind_eq_some_iff.1 hrun
  obtain ⟨t₂, -, hrun⟩ := Option.bind_eq_some_iff.1 hrun
  obtain ⟨rfl, -⟩ := Prod.mk.inj (Option.some.inj hrun)
  exact hfind

theorem RAMList.Inv.allocated {offset host mr : Nat} (h : l.Inv)
    (hrun : l.qemuRamAllocFromPtr size host mr = some (offset, l')) :
    Allocated l l' (newBlock size host mr offset) := by
  obtain ⟨l₁, hrun₁, hallocated⟩ :=
    qemuRamAllocFromPtr_spec h size host mr (qemuRamAllocFromPtr_find hrun)
  obtain rfl : l₁ = l' := (Prod.mk.inj (Option.some.inj (hrun₁.symm.trans hrun))).2
  exact hallocated

theorem qemuGetRamPtr_sameBlocks {p : Nat} (hrun : l.qemuGetRamPtr addr = some (p, l')) :
    SameBlocks l l' ∧ (l'.mruBlock = l.mruBlock ∨ ∃ b ∈ l.blocks, l'.mruBlock = some b) := by
  unfold RAMList.qemuGetRamPtr at hrun
  split at hrun
  · obtain ⟨-, rfl⟩ := Prod.mk.inj (Option.some.inj hrun)
    exact ⟨⟨rfl, rfl⟩, .inl rfl⟩
  · obtain ⟨b, hfind, heq⟩ := Option.map_eq_some_iff.1 hrun
    obtain ⟨-, rfl⟩ := Prod.mk.inj heq
    exact ⟨⟨rfl, rfl⟩, .inr ⟨b, List.mem_of_find?_eq_some hfind, rfl⟩⟩

theorem RAMList.Inv.getPtr {p : Nat} (h : l.Inv) (hrun : l.qemuGetRamPtr addr = some (p, l')) :
    l'.Inv := by
  obtain ⟨⟨hblocks, hdirty⟩, hmru⟩ := qemuGetRamPtr_sameBlocks hrun
  refine ⟨hblocks ▸ h.blocks, fun b hb => ?_, fun b hb => ?_⟩
  · rw [← hblocks]
    rcases hmru with hsame | ⟨c, hc, hnew⟩
    · exact h.mru b (hsame ▸ hb)
    · obtain rfl := Option.some.inj (hnew.symm.trans hb)
      exact hc
  · rw [← hdirty]
    exact h.dirty b (hblocks ▸ hb)

/-- Every call keeps the invariant. -/
theorem RAMList.Inv.call {call : RamCall} {ret : Nat} (h : l.Inv)
    (hrun : l.call RAMList.qemuGetRamPtr call = some (ret, l')) : l'.Inv := by
  cases call with
  | alloc size host mr => exact (h.allocated hrun).inv
  | free addr =>
      obtain ⟨-, rfl⟩ := Prod.mk.inj (Option.some.inj hrun)
      exact h.free addr.toNat
  | getPtr addr => exact h.getPtr hrun

theorem calls_cons {getPtr : RAMList → Nat → Option (Nat × RAMList)} {call : RamCall}
    {calls : List RamCall} {rets : List Nat}
    (hrun : l.calls getPtr (call :: calls) = some (rets, l')) :
    ∃ ret l₁ rest, l.call getPtr call = some (ret, l₁) ∧ l₁.calls getPtr calls = some (rest, l') ∧
      rets = ret :: rest := by
  rw [RAMList.calls] at hrun
  obtain ⟨⟨ret, l₁⟩, hcall, hrun⟩ := Option.bind_eq_some_iff.1 hrun
  obtain ⟨⟨rest, l₂⟩, hrest, hrun⟩ := Option.bind_eq_some_iff.1 hrun
  obtain ⟨rfl, rfl⟩ := Prod.mk.inj (Option.some.inj hrun)
  exact ⟨ret, l₁, rest, hcall, hrest, rfl⟩

theorem RAMList.Inv.calls {calls : List RamCall} {rets : List Nat} (h : l.Inv)
    (hrun : l.calls RAMList.qemuGetRamPtr calls = some (rets, l')) : l'.Inv := by
  induction calls generalizing l rets with
  | nil =>
      obtain ⟨-, rfl⟩ := Prod.mk.inj (Option.some.inj hrun)
      exact h
  | cons call calls ih =>
      obtain ⟨ret, l₁, rest, hcall, hrest, -⟩ := calls_cons hrun
      exact ih (h.call hcall) hrest

/-- No block of the list is empty, when none is asked for. -/
theorem calls_length_pos {calls : List RamCall} {rets : List Nat} (h : l.Inv)
    (hpos : ∀ b ∈ l.blocks, 0 < b.length)
    (hsizes : ∀ size host mr, RamCall.alloc size host mr ∈ calls → 0 < targetPageAlign size.toNat)
    (hrun : l.calls RAMList.qemuGetRamPtr calls = some (rets, l')) :
    ∀ b ∈ l'.blocks, 0 < b.length := by
  induction calls generalizing l rets with
  | nil =>
      obtain ⟨-, rfl⟩ := Prod.mk.inj (Option.some.inj hrun)
      exact hpos
  | cons call calls ih =>
      obtain ⟨ret, l₁, rest, hcall, hrest, -⟩ := calls_cons hrun
      refine ih (h.call hcall) (fun b hb => ?_)
        (fun size host mr hmem => hsizes size host mr (List.mem_cons_of_mem _ hmem)) hrest
      cases call with
      | alloc size host mr =>
          rcases List.mem_cons.1 ((h.allocated hcall).blocks.mem_iff.1 hb) with rfl | hb
          · exact hsizes size host mr List.mem_cons_self
          · exact hpos b hb
      | free addr =>
          obtain ⟨-, rfl⟩ := Prod.mk.inj (Option.some.inj hcall)
          exact hpos b ((qemuRamFreeFromPtr_sublist l addr.toNat).subset hb)
      | getPtr addr => exact hpos b ((qemuGetRamPtr_sameBlocks hcall).1.blocks ▸ hb)

/-- After any run of calls, the blocks are apart, on pages, within 64 bits, from the biggest to the
smallest, and their pages have flags.  An allocation fails only where no gap is found, and touches
nothing of the other blocks; a release takes out the block at the offset and nothing else. -/
theorem calls_blocks (calls : List RamCall) (rets : List Nat) (l : RAMList)
    (hrun : RAMList.empty.calls RAMList.qemuGetRamPtr calls = some (rets, l))
    (hsizes : ∀ size host mr, RamCall.alloc size host mr ∈ calls →
      0 < targetPageAlign size.toNat) :
    l.Inv ∧
      (∀ size host mr, (∃ offset l', l.qemuRamAllocFromPtr size host mr = some (offset, l') ∧
          Allocated l l' (newBlock size host mr offset)) ∨
        findRamOffset l.blocks (targetPageAlign size) = none) ∧
      ∀ addr, (l.qemuRamFreeFromPtr addr).blocks = l.blocks.filter (addr ≠ ·.offset) ∧
        (l.qemuRamFreeFromPtr addr).physDirty = l.physDirty ∧ (l.qemuRamFreeFromPtr addr).Inv := by
  have hinv := empty_inv.calls hrun
  have hpos := calls_length_pos empty_inv (fun b hb => absurd hb List.not_mem_nil) hsizes hrun
  refine ⟨hinv, fun size host mr => ?_, fun addr =>
    ⟨qemuRamFreeFromPtr_blocks hinv.blocks hpos addr, qemuRamFreeFromPtr_physDirty l addr,
      hinv.free addr⟩⟩
  cases hfind : findRamOffset l.blocks (targetPageAlign size) with
  | none => exact .inr rfl
  | some offset =>
      obtain ⟨l', hrun', hallocated⟩ := qemuRamAllocFromPtr_spec hinv size host mr hfind
      exact .inl ⟨offset, l', hrun', hallocated⟩

/-- The second block of three is given back, and its place is taken by a smaller one. -/
def reusedGap : List RamCall :=
  [.alloc 4096 65536 1, .alloc 8192 131072 2, .alloc 4000 196608 3, .free 4096,
    .alloc 1 262144 4, .getPtr 4097]

theorem reusedGap_run : RAMList.empty.calls RAMList.qemuGetRamPtr reusedGap =
    some ([0, 4096, 12288, 0, 4096, 262145],
      ⟨[⟨1, 65536, 0, 4096⟩, ⟨3, 196608, 12288, 4096⟩, ⟨4, 262144, 4096, 4096⟩],
        some ⟨4, 262144, 4096, 4096⟩, List.replicate 4 (some 255)⟩) := by
  decide +kernel

theorem calls_blocks_reusedGap :
    let l : RAMList := ⟨[⟨1, 65536, 0, 4096⟩, ⟨3, 196608, 12288, 4096⟩, ⟨4, 262144, 4096, 4096⟩],
      some ⟨4, 262144, 4096, 4096⟩, List.replicate 4 (some 255)⟩
    l.Inv ∧
      (∀ size host mr, (∃ offset l', l.qemuRamAllocFromPtr size host mr = some (offset, l') ∧
          Allocated l l' (newBlock size host mr offset)) ∨
        findRamOffset l.blocks (targetPageAlign size) = none) ∧
      ∀ addr, (l.qemuRamFreeFromPtr addr).blocks = l.blocks.filter (addr ≠ ·.offset) ∧
        (l.qemuRamFreeFromPtr addr).physDirty = l.physDirty ∧ (l.qemuRamFreeFromPtr addr).Inv :=
  calls_blocks reusedGap _ _ reusedGap_run fun size host mr hmem => by
    simp only [reusedGap, List.mem_cons, RamCall.alloc.injEq, List.not_mem_nil, or_false,
      reduceCtorEq, false_or] at hmem
    rcases hmem with ⟨rfl, -⟩ | ⟨rfl, -⟩ | ⟨rfl, -⟩ | ⟨rfl, -⟩ <;> decide

/-! ## The block that was used last -/

theorem calls_rets {getPtr : RAMList → Nat → Option (Nat × RAMList)} (l : RAMList) (call : RamCall)
    (calls : List RamCall) : (l.calls getPtr (call :: calls)).map Prod.fst =
      (l.call getPtr call).bind fun r => ((r.2.calls getPtr calls).map Prod.fst).map (r.1 :: ·) := by
  rw [RAMList.calls]
  cases l.call getPtr call with
  | none => rfl
  | some r =>
      dsimp only [Option.bind_eq_bind, Option.bind_some]
      cases r.2.calls getPtr calls <;> rfl

/-- One call, with the block that was used last and without it. -/
theorem SameBlocks.call (h : SameBlocks l l') (hinv : l.Inv) (call : RamCall) :
    (l.call RAMList.qemuGetRamPtr call = none ∧ l'.call RAMList.searchPtr call = none) ∨
      ∃ ret l₁ l₂, l.call RAMList.qemuGetRamPtr call = some (ret, l₁) ∧
        l'.call RAMList.searchPtr call = some (ret, l₂) ∧ SameBlocks l₁ l₂ := by
  cases call with
  | alloc size host mr =>
      simp only [RAMList.call, h.alloc]
      cases l'.qemuRamAllocFromPtr size.toNat host.toNat mr with
      | none => exact .inl ⟨rfl, rfl⟩
      | some r => exact .inr ⟨r.1, r.2, r.2, rfl, rfl, rfl, rfl⟩
  | free addr => exact .inr ⟨0, _, _, rfl, rfl, h.free addr.toNat⟩
  | getPtr addr =>
      have heq := hinv.getRamPtr_eq (Nat.le_of_lt_succ addr.isLt)
      rw [h.safeRamPtr] at heq
      simp only [RAMList.call, RAMList.searchPtr, ← heq]
      cases hget : l.qemuGetRamPtr addr.toNat with
      | none => exact .inl ⟨rfl, rfl⟩
      | some r =>
          obtain ⟨⟨hblocks, hdirty⟩, -⟩ := qemuGetRamPtr_sameBlocks hget
          exact .inr ⟨r.1, r.2, l', rfl, rfl, hblocks ▸ h.blocks, hdirty ▸ h.physDirty⟩

theorem SameBlocks.calls (h : SameBlocks l l') (hinv : l.Inv) (calls : List RamCall) :
    (l.calls RAMList.qemuGetRamPtr calls).map Prod.fst =
      (l'.calls RAMList.searchPtr calls).map Prod.fst := by
  induction calls generalizing l l' with
  | nil => rfl
  | cons call calls ih =>
      rw [calls_rets, calls_rets]
      rcases h.call hinv call with ⟨hnone, hnone'⟩ | ⟨ret, l₁, l₂, hsome, hsome', hsame⟩
      · rw [hnone, hnone']
        rfl
      · rw [hsome, hsome', Option.bind_some, Option.bind_some, ih hsame (hinv.call hsome)]

/-- Whatever is allocated, freed and looked up, remembering the block that was used last changes no
result. -/
theorem calls_getRamPtr_eq_searchPtr (calls : List RamCall) :
    (RAMList.empty.calls RAMList.qemuGetRamPtr calls).map Prod.fst =
      (RAMList.empty.calls RAMList.searchPtr calls).map Prod.fst :=
  SameBlocks.calls ⟨rfl, rfl⟩ empty_inv calls

/-! ## Host addresses -/

/-- Blocks that have their own bytes of the host's memory. -/
structure OwnHosts (blocks : List RAMBlock) : Prop where
  host_pos : ∀ b ∈ blocks, 0 < b.host
  stop : ∀ b ∈ blocks, b.host + b.length ≤ 18446744073709551616
  apart : blocks.Pairwise fun b c => b.host + b.length ≤ c.host ∨ c.host + c.length ≤ b.host

theorem hostHolds_iff {p : Nat} (hpos : 0 < b.host) (hstop : b.host + b.length ≤ 18446744073709551616)
    (hp : p ≤ RAM_ADDR_MAX) :
    (b.host ≠ 0 ∧ (p + 18446744073709551616 - b.host) % 18446744073709551616 < b.length) ↔
      b.host ≤ p ∧ p < b.host + b.length := by
  unfold RAM_ADDR_MAX at hp
  omega

theorem OwnHosts.find_iff {p : Nat} (h : OwnHosts blocks) (hp : p ≤ RAM_ADDR_MAX) :
    blocks.find? (fun block => block.host ≠ 0 ∧
        (p + 18446744073709551616 - block.host) % 18446744073709551616 < block.length) = some b ↔
      b ∈ blocks ∧ b.host ≤ p ∧ p < b.host + b.length := by
  have hiff (c : RAMBlock) (hc : c ∈ blocks) := hostHolds_iff (h.host_pos c hc) (h.stop c hc) hp
  rw [find?_eq_some_iff_of_unique fun b hb c hc hpb hpc => ?_]
  · exact and_congr_right fun hb => decide_eq_true_iff.trans (hiff b hb)
  · have hpb' := (hiff b hb).1 (of_decide_eq_true hpb)
    have hpc' := (hiff c hc).1 (of_decide_eq_true hpc)
    have hsymm : Std.Symm fun b c : RAMBlock =>
        b.host + b.length ≤ c.host ∨ c.host + c.length ≤ b.host := ⟨fun _ _ => Or.symm⟩
    refine Classical.byContradiction fun hne => ?_
    rcases h.apart.forall hb hc hne with hapart | hapart <;> omega

theorem ptr_eq {p : Nat} (hoffset : b.offset ≤ addr) (hstop : addr < b.stop)
    (hhost : b.host + b.length ≤ 18446744073709551616) :
    b.ptr addr = p ↔ p = b.host + (addr - b.offset) := by
  unfold RAMBlock.ptr
  unfold RAMBlock.stop at hstop
  omega

/-- After any run of calls, as long as the blocks have their own bytes of the host, a `ram_addr_t`
and its pointer lead to each other. -/
theorem calls_ramAddrFromHost_iff (calls : List RamCall) (rets : List Nat) (l : RAMList)
    (hrun : RAMList.empty.calls RAMList.qemuGetRamPtr calls = some (rets, l))
    (hown : OwnHosts l.blocks) (addr p : Nat) (haddr : addr ≤ RAM_ADDR_MAX)
    (hp : p ≤ RAM_ADDR_MAX) :
    l.qemuSafeRamPtr addr = some p ↔ l.qemuRamAddrFromHost p = some addr := by
  have hinv := empty_inv.calls hrun
  unfold RAMList.qemuSafeRamPtr RAMList.qemuRamAddrFromHost
  simp only [Option.map_eq_some_iff, hinv.blocks.find_iff haddr, hown.find_iff hp]
  constructor
  · rintro ⟨b, ⟨hb, hge, hlt⟩, hptr⟩
    have hhost := hown.stop b hb
    have hstop := hinv.blocks.stop b hb
    rw [ptr_eq hge hlt hhost] at hptr
    unfold RAMBlock.stop RAM_ADDR_MAX at *
    exact ⟨b, ⟨hb, by omega, by omega⟩, by omega⟩
  · rintro ⟨b, ⟨hb, hge, hlt⟩, hback⟩
    have hhost := hown.stop b hb
    have hstop := hinv.blocks.stop b hb
    unfold RAMBlock.stop RAM_ADDR_MAX at *
    exact ⟨b, ⟨hb, by omega, by omega⟩, (ptr_eq (by omega) (by unfold RAMBlock.stop; omega) hhost).2
      (by omega)⟩

theorem calls_ramAddrFromHost_iff_reusedGap :
    let l : RAMList := ⟨[⟨1, 65536, 0, 4096⟩, ⟨3, 196608, 12288, 4096⟩, ⟨4, 262144, 4096, 4096⟩],
      some ⟨4, 262144, 4096, 4096⟩, List.replicate 4 (some 255)⟩
    l.qemuSafeRamPtr 4099 = some 262147 ↔ l.qemuRamAddrFromHost 262147 = some 4099 :=
  calls_ramAddrFromHost_iff reusedGap _ _ reusedGap_run
    ⟨by decide, by decide, by decide⟩ 4099 262147 (by decide) (by decide)

end Vin64.Vx64
