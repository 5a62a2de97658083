import Vin64.Space.Protect
import Vin64.Space.Proofs.BlockOps

/-!
# When `vmprotect` keeps its contract

The blocks are cut at both ends of the range, the range is merged, and the neighbours of
the same protection are merged into it.  The layouts after each of these steps are known,
so the attributes the region shows at the end can be compared with the contract.
-/

namespace Vin64.Space

open Vin64.Utils Vin64.Utils.Dllist Vin64.Lib

namespace VMRegion

variable {r : VMRegion} {bs : List VMBlock} {l : Dllist VMBlock}
  {xs ys : List (Entry VMBlock)} {e : Entry VMBlock}

/-! ## The attributes of a region -/

theorem attrAt_layout {es : List (Entry VMBlock)} (h : Layout l es []) (hne : es ≠ []) (a : Nat) :
    { r with blocks := l }.attrAt a =
      (Extent.lookup (es.map Entry.val) a).map VMBlock.attr := by
  simp [attrAt, h.first_ne_none hne, h.toList]

theorem HasBlocks.attrAt (h : r.HasBlocks bs) {a : Nat} (hlo : r.base ≤ a)
    (hhi : a < r.base + r.size) :
    r.attrAt a = (Extent.lookup bs a).map VMBlock.attr := by
  rcases h.linked with ⟨hl, rfl⟩ | ⟨es, hne, hl, hp, rfl⟩
  · have hfirst : r.blocks.first = none := hl.first
    have hc : Extent.Covers (⟨r.base, r.size, r.attr⟩ : VMBlock) a := ⟨hlo, hhi⟩
    simp [VMRegion.attrAt, hfirst, Extent.lookup, hc]
  · exact @attrAt_layout r r.blocks es hl hne a

theorem initBlock_empty (h : Layout r.blocks [] []) :
    ∃ l e, r.initBlock = some { r with blocks := l } ∧ Layout l [e] [] ∧ e.prev = none ∧
      e.val = ⟨r.base, r.size, r.attr⟩ := by
  have hfirst : r.blocks.first = none := h.first
  obtain ⟨h₁, hc₁⟩ := h.new ⟨r.base, r.size, r.attr⟩
  obtain ⟨l, hl, h₂⟩ := h₁.setFirst hc₁
  refine ⟨l, _, ?_, h₂, rfl, rfl⟩
  simp only [VMRegion.initBlock, hfirst, if_true]
  simp only [Dllist.new] at hl ⊢
  simp [hl]

theorem initBlock_of_blocks {es : List (Entry VMBlock)} (h : Layout r.blocks es [])
    (hne : es ≠ []) : r.initBlock = some r := by
  simp [VMRegion.initBlock, h.first_ne_none hne]

theorem HasBlocks.initBlock (h : r.HasBlocks bs) :
    ∃ l es, r.initBlock = some { r with blocks := l } ∧ Layout l es [] ∧ PrevOk none es ∧
      es.map Entry.val = bs := by
  rcases h.linked with ⟨hl, rfl⟩ | ⟨es, hne, hl, hp, rfl⟩
  · obtain ⟨l, e, hinit, h', hprev, hval⟩ := initBlock_empty hl
    exact ⟨l, [e], hinit, h', ⟨hprev, trivial⟩, by simp [hval]⟩
  · exact ⟨r.blocks, es, initBlock_of_blocks hl hne, hl, hp, rfl⟩

/-! ## Cutting out the range -/

/-- After the cut at `base` the range starts with a block of its own. -/
theorem cutFront_parts (h : Layout l (xs ++ e :: ys) []) {base : Nat}
    (hc : Extent.Covers e.val base) (hstop : Extent.stop e.val < 2 ^ 64) :
    ∃ l' fs f, cutFront l (some e.addr) base = some (some f.addr, l') ∧
      Layout l' (fs ++ f :: ys) [] ∧ f.val = ⟨base, Extent.stop e.val - base, e.val.attr⟩ ∧
      ((base = e.val.base ∧ fs = xs ∧ f = e ∧ l' = l) ∨
        (e.val.base < base ∧ f.prev = some e.addr ∧
          fs = xs ++ [{ e with val := { e.val with size := base - e.val.base } }])) := by
  obtain ⟨hlo, hhi⟩ := hc
  simp only [VMBlock.extent_base, VMBlock.extent_stop] at hlo hhi hstop
  rcases Nat.eq_or_lt_of_le hlo with rfl | hlo
  · exact ⟨l, xs, e, cutFront_base h (by omega), h, by simp, Or.inl ⟨rfl, rfl, rfl, rfl⟩⟩
  · obtain ⟨l', c, hl', h'⟩ := cutFront_inside h hlo hhi (Nat.le_of_lt hstop) (by omega)
    exact ⟨l', _, ⟨c, some e.addr, ⟨base, Extent.stop e.val - base, e.val.attr⟩⟩, hl',
      by simpa using h', rfl, Or.inr ⟨hlo, rfl, rfl⟩⟩

/-- When the cut made the first block of the range, the one behind it still points back to the
block in front. -/
theorem cutFront_layout (h : Layout l (xs ++ e :: ys) []) (hp : PrevOk none (xs ++ e :: ys))
    {base : Nat} (hc : Extent.Covers e.val base) (hstop : Extent.stop e.val < 2 ^ 64) :
    ∃ l' fs f, cutFront l (some e.addr) base = some (some f.addr, l') ∧
      Layout l' (fs ++ f :: ys) [] ∧ PrevOk none (fs ++ [f]) ∧ HeadPrev (some e.addr) ys ∧
      f.val = ⟨base, Extent.stop e.val - base, e.val.attr⟩ ∧
      ((base = e.val.base ∧ fs = xs ∧ f.addr = e.addr) ∨
        (e.val.base < base ∧ ∃ g, fs = xs ++ [g] ∧ g.addr = e.addr ∧
          g.val = { e.val with size := base - e.val.base })) := by
  obtain ⟨hpx, hpe, hpy⟩ := prevOk_append.1 hp
  obtain ⟨l', fs, f, hl', h', hf, hcase⟩ := cutFront_parts h hc hstop
  refine ⟨l', fs, f, hl', h', ?_, hpy.headPrev, hf, ?_⟩
  · rcases hcase with ⟨-, rfl, rfl, -⟩ | ⟨-, hprev, rfl⟩
    · exact prevOk_append.2 ⟨hpx, hpe, trivial⟩
    · rw [prevOk_append, prevOk_append, endPtr_concat]
      exact ⟨⟨hpx, hpe, trivial⟩, hprev, trivial⟩
  · rcases hcase with ⟨hb, hfs, rfl, -⟩ | ⟨hlt, -, hfs⟩
    · exact Or.inl ⟨hb, hfs, rfl⟩
    · exact Or.inr ⟨hlt, _, hfs, rfl, rfl⟩

/-- After the cut behind the range the block of its last address ends with it. -/
theorem cutBack_layout (h : Layout l (xs ++ e :: ys) []) {tbase : Nat}
    (hc : Extent.Covers e.val tbase) (hstop : Extent.stop e.val < 2 ^ 64) :
    ∃ l' t qs, cutBack l (some e.addr) tbase = some (some e.addr, l') ∧
      Layout l' (xs ++ t :: qs) [] ∧ t.addr = e.addr ∧ t.prev = e.prev ∧
      t.val = { e.val with size := tbase + 1 - e.val.base } ∧
      ((tbase + 1 = Extent.stop e.val ∧ qs = ys) ∨
        (tbase + 1 < Extent.stop e.val ∧ ∃ c, qs = c :: ys ∧ c.prev = some e.addr ∧
          c.val = ⟨tbase + 1, Extent.stop e.val - (tbase + 1), e.val.attr⟩)) := by
  obtain ⟨hlo, hhi⟩ := hc
  simp only [VMBlock.extent_base] at hlo
  rcases Nat.eq_or_lt_of_le (Nat.succ_le_of_lt hhi) with heq | hlt
  · refine ⟨l, e, ys, cutBack_stop h heq hstop, h, rfl, rfl, ?_, Or.inl ⟨heq, rfl⟩⟩
    have : tbase + 1 - e.val.base = e.val.size := by
      simp only [VMBlock.extent_stop] at heq; omega
    rw [this]
  · obtain ⟨l', c, hl', h'⟩ := cutBack_inside h hlo hlt hstop
    exact ⟨l', _, _, hl', h', rfl, rfl, rfl, Or.inr ⟨hlt, _, rfl, rfl, rfl⟩⟩

/-! ## Setting the protection -/

variable {prot : BitVec 32}

theorem prot_setField (hprot : prot &&& WVM_PROTECT_MASK = prot) (base size : Nat)
    (attr : BitVec 32) :
    VMBlock.prot ⟨base, size, setField WVM_PROTECT_MASK prot attr⟩ = prot :=
  setField_and hprot attr

theorem absorbed_map (qs : List (Entry VMBlock)) :
    absorbed prot (qs.map Entry.val) =
      (qs.takeWhile fun c => c.val.prot = prot).map Entry.val := by
  simp only [absorbed, List.takeWhile_map]; rfl

theorem absorbed_append (rest : List VMBlock) :
    absorbed prot rest ++ rest.dropWhile (fun c => c.prot = prot) = rest :=
  List.takeWhile_append_dropWhile

theorem prot_of_mem_absorbed {rest : List VMBlock} {c : VMBlock}
    (hc : c ∈ absorbed prot rest) : c.prot = prot := by
  have hall := List.all_takeWhile (p := fun c : VMBlock => decide (c.prot = prot)) (l := rest)
  simpa using List.all_eq_true.1 hall c hc

theorem prot_head_dropWhile {rest : List VMBlock} :
    ∀ v ∈ (rest.dropWhile fun c => c.prot = prot).head?, v.prot ≠ prot := by
  intro v hv
  have := List.head?_dropWhile_not (fun c : VMBlock => decide (c.prot = prot)) rest
  rw [Option.mem_def.1 hv] at this
  simpa using this

variable {fs qs : List (Entry VMBlock)} {f : Entry VMBlock}

theorem setProtect_one_layout (hprot : prot &&& WVM_PROTECT_MASK = prot)
    (h : Layout l (fs ++ f :: qs) []) (hp : PrevOk none (fs ++ [f]))
    (hs : f.val.size + Extent.total (qs.map Entry.val) < 2 ^ 64)
    (hback : absorbed prot (qs.map Entry.val) ≠ [] → HeadPrev (some f.addr) qs)
    (hlast : absorbed prot (qs.map Entry.val) = qs.map Entry.val → fs = []) :
    ∃ l' es, setProtect l (some f.addr) (some f.addr) prot = some l' ∧ Layout l' es [] ∧
      es.map Entry.val = fs.map Entry.val ++
        ⟨f.val.base, f.val.size + Extent.total (absorbed prot (qs.map Entry.val)),
          setField WVM_PROTECT_MASK prot f.val.attr⟩ ::
        (qs.map Entry.val).dropWhile (fun c => c.prot = prot) := by
  obtain ⟨l₁, hl₁, h₁⟩ := setProtect_one h prot
  obtain ⟨-, hfp, -⟩ := prevOk_append.1 hp
  let run := qs.takeWhile fun c => c.val.prot = prot
  let rest := qs.dropWhile fun c => c.val.prot = prot
  have hqs : run ++ rest = qs := List.takeWhile_append_dropWhile
  have hrun : run.map Entry.val = absorbed prot (qs.map Entry.val) := (absorbed_map qs).symm
  have hrest : rest.map Entry.val = (qs.map Entry.val).dropWhile (fun c => c.prot = prot) := by
    simp only [List.dropWhile_map]; rfl
  have htotal := congrArg Extent.total (@absorbed_append prot (qs.map Entry.val))
  rw [Extent.total_append] at htotal
  rw [← hqs] at h₁ hback
  obtain ⟨l₂, rest', hl₂, h₂, hval⟩ := mergeSameProtect_layout h₁
    (fun hne => hback (by rw [hqs, ← hrun]; simpa using hne))
    (by rw [hrun]; intro v hv; rw [prot_of_mem_absorbed hv]; exact (prot_setField hprot _ _ _).symm)
    (by rw [hrest]; intro v hv; rw [prot_setField hprot]; exact prot_head_dropWhile v hv)
    (by rw [hrun]; show f.val.size + _ < _; omega)
    (by
      intro hnil
      have : fs = [] := hlast (by rw [← hrun, ← hqs, hnil, List.append_nil])
      subst this
      exact hfp)
  refine ⟨l₂, _, hl₁.trans hl₂, h₂, ?_⟩
  simp [hval, hrest, hrun]

theorem setProtect_one_last (hprot : prot &&& WVM_PROTECT_MASK = prot)
    (h : Layout l (fs ++ f :: qs) []) (hp : PrevOk none (fs ++ [f]))
    (hs : f.val.size + Extent.total (qs.map Entry.val) < 2 ^ 64)
    (hback : absorbed prot (qs.map Entry.val) ≠ [] → HeadPrev (some f.addr) qs)
    (hlast : absorbed prot (qs.map Entry.val) = qs.map Entry.val) (hne : fs ≠ []) :
    setProtect l (some f.addr) (some f.addr) prot = none := by
  obtain ⟨l₁, hl₁, h₁⟩ := setProtect_one h prot
  obtain ⟨-, hfp, -⟩ := prevOk_append.1 hp
  have hfault := mergeSameProtect_last h₁ (fun hq => hback (by rw [hlast]; simpa using hq))
    (by
      intro v hv
      rw [← hlast] at hv
      rw [prot_of_mem_absorbed hv]
      exact (prot_setField hprot _ _ _).symm)
    hs (by rw [hfp]; exact mt endPtr_none.1 hne)
  exact hl₁.trans hfault

theorem setProtect_one_stale (hprot : prot &&& WVM_PROTECT_MASK = prot) {g : Entry VMBlock}
    (h : Layout l (fs ++ g :: f :: qs) []) (hback : HeadPrev (some g.addr) qs)
    (hrun : absorbed prot (qs.map Entry.val) ≠ []) :
    setProtect l (some f.addr) (some f.addr) prot = none := by
  have h' : Layout l ((fs ++ [g]) ++ f :: qs) [] := by simpa using h
  obtain ⟨l₁, hl₁, h₁⟩ := setProtect_one h' prot
  cases qs with
  | nil => simp [absorbed] at hrun
  | cons n qs =>
      have h₂ := h₁
      rw [List.append_assoc, List.singleton_append] at h₂
      have hsame : n.val.prot = prot := by
        by_contra hne
        simp [absorbed, hne] at hrun
      have hfault := mergeSameProtect_stale h₂ hback
        (by rw [hsame]; exact (prot_setField hprot _ _ _).symm)
      exact hl₁.trans hfault

/-- The blocks of a region after a range of several blocks was merged. -/
theorem setProtect_many_layout (hprot : prot &&& WVM_PROTECT_MASK = prot)
    {ms : List (Entry VMBlock)} {z : Entry VMBlock} (h : Layout l (f :: (ms ++ [z])) [])
    (hp : f.prev = none) (hback : HeadPrev (some f.addr) (ms ++ [z])) {t : Nat}
    (ht : t ∈ addrs (ms ++ [z]))
    (hs : f.val.size + (Extent.total (ms.map Entry.val) + z.val.size) < 2 ^ 64) :
    ∃ l' es, setProtect l (some f.addr) (some t) prot = some l' ∧ Layout l' es [] ∧
      es.map Entry.val =
        let attr := setField WVM_PROTECT_MASK prot f.val.attr
        let size := f.val.size + Extent.total (ms.map Entry.val)
        if z.val.prot = prot then [⟨f.val.base, size + z.val.size, attr⟩]
        else [⟨f.val.base, size, attr⟩, z.val] := by
  obtain ⟨l₁, z', hl₁, h₁, hprev, hval⟩ := setProtect_range h hback ht (by omega) prot
  by_cases hz : z.val.prot = prot
  · obtain ⟨l₂, rest, hl₂, h₂, hrest⟩ := @mergeSameProtect_layout l₁ [] _ [] [z'] [] h₁
      (fun _ => hprev) (by simp [hval, hz, prot_setField hprot]) (by simp)
      (by simp [hval]; omega) (fun _ => hp)
    obtain rfl : rest = [] := by simpa using hrest
    refine ⟨l₂, _, hl₁.trans hl₂, h₂, ?_⟩
    simp [hz, hval]
  · obtain ⟨l₂, rest, hl₂, h₂, hrest⟩ := @mergeSameProtect_layout l₁ [] _ [] [] [z'] h₁
      (fun hne => absurd rfl hne) (by simp) (by simpa [hval, prot_setField hprot] using hz)
      (by simp; omega) (by simp)
    refine ⟨l₂, _, hl₁.trans hl₂, h₂, ?_⟩
    simp [hz, hval, hrest]

/-! ## Comparing the attributes -/

theorem oneBlock_cover_iff {b : VMBlock} (front : List VMBlock) {rest : List VMBlock}
    (hpos : ∀ c ∈ rest, 0 < c.size) :
    Extent.cover VMBlock.attr (front ++ ⟨b.base, b.size + Extent.total (absorbed prot rest),
        setField WVM_PROTECT_MASK prot b.attr⟩ :: rest.dropWhile (fun c => c.prot = prot)) =
      Extent.cover VMBlock.attr front ++
        (Extent.cover (setField WVM_PROTECT_MASK prot ∘ VMBlock.attr) [b] ++
          Extent.cover VMBlock.attr rest) ↔
      ∀ c ∈ absorbed prot rest, c.attr = setField WVM_PROTECT_MASK prot b.attr := by
  have hpos' : ∀ c ∈ absorbed prot rest, 0 < Extent.size c := fun c hc =>
    hpos c ((List.takeWhile_subset _) hc)
  have hsplit : Extent.cover VMBlock.attr rest =
      Extent.cover VMBlock.attr (absorbed prot rest) ++
        Extent.cover VMBlock.attr (rest.dropWhile fun c => c.prot = prot) := by
    rw [← Extent.cover_append, absorbed_append]
  rw [hsplit]
  simp only [Extent.cover_append, Extent.cover_cons, Extent.cover_nil, VMBlock.extent_size,
    List.append_nil, List.replicate_add, List.append_assoc, List.append_cancel_left_eq,
    Function.comp_apply]
  rw [List.append_cancel_right_eq, eq_comm]
  exact Extent.cover_eq_replicate hpos'

/-- The new block takes in a last block of the same protection; that shows what was asked for if
the two had the attributes of the new block. -/
theorem last_eq_set_iff {b z : VMBlock} (hprot : prot &&& WVM_PROTECT_MASK = prot) :
    (if z.prot = prot then setField WVM_PROTECT_MASK prot b.attr else z.attr) =
        setField WVM_PROTECT_MASK prot z.attr ↔
      setField WVM_PROTECT_MASK prot z.attr = setField WVM_PROTECT_MASK prot b.attr ∧
        z.attr = setField WVM_PROTECT_MASK prot b.attr := by
  by_cases hzp : z.prot = prot
  · have hself : setField WVM_PROTECT_MASK prot z.attr = z.attr :=
      (setField_eq_iff hprot).2 ⟨hzp, rfl⟩
    simp only [hzp, if_true, hself, and_self]
    exact eq_comm
  · have hnot : ∀ a, z.attr ≠ setField WVM_PROTECT_MASK prot a := by
      intro a he
      exact hzp (by rw [VMBlock.prot, he]; exact setField_and hprot a)
    simp [hzp, hnot]

theorem last_eq_self_iff {b z : VMBlock} :
    (if z.prot = prot then setField WVM_PROTECT_MASK prot b.attr else z.attr) = z.attr ↔
      (z.prot = prot → z.attr = setField WVM_PROTECT_MASK prot b.attr) := by
  by_cases hzp : z.prot = prot
  · simp only [hzp, if_true, true_implies]
    exact eq_comm
  · simp [hzp]

theorem manyBlocks_cover_iff {b z : VMBlock} {mids rest ms : List VMBlock}
    (hprot : prot &&& WVM_PROTECT_MASK = prot) (hpos : ∀ c ∈ mids ++ rest, 0 < c.size)
    (hms : mids ++ rest = ms ++ [z]) :
    Extent.cover VMBlock.attr
        (let attr := setField WVM_PROTECT_MASK prot b.attr
        let size := b.size + Extent.total ms
        if z.prot = prot then [⟨b.base, size + z.size, attr⟩]
        else [⟨b.base, size, attr⟩, z]) =
      Extent.cover (setField WVM_PROTECT_MASK prot ∘ VMBlock.attr) (b :: mids) ++
        Extent.cover VMBlock.attr rest ↔
      ManyBlocksOk [] b mids rest prot := by
  let attr := setField WVM_PROTECT_MASK prot b.attr
  have hlhs : Extent.cover VMBlock.attr
      (if z.prot = prot then [⟨b.base, b.size + Extent.total ms + z.size, attr⟩]
        else [⟨b.base, b.size + Extent.total ms, attr⟩, z]) =
      List.replicate b.size attr ++ (List.replicate (Extent.total ms) attr ++
        List.replicate z.size (if z.prot = prot then attr else z.attr)) := by
    split <;> simp only [Extent.cover_cons, Extent.cover_nil, VMBlock.extent_size,
      List.replicate_add, List.append_assoc, List.append_nil]
  have hmspos : ∀ c ∈ ms ++ [z], 0 < c.size := hms ▸ hpos
  have hz : z.size ≠ 0 := Nat.pos_iff_ne_zero.1 (hmspos z (by simp))
  show Extent.cover VMBlock.attr (if z.prot = prot then _ else _) = _ ↔ _
  rw [hlhs, Extent.cover_cons, VMBlock.extent_size, List.append_assoc, Function.comp_apply,
    List.append_cancel_left_eq]
  rcases List.eq_nil_or_concat rest with rfl | ⟨rest, z', rfl⟩
  · rw [List.append_nil] at hms
    subst hms
    simp only [Extent.cover_append, Extent.cover_cons, Extent.cover_nil, VMBlock.extent_size,
      List.append_nil, Function.comp_apply]
    rw [Extent.append_eq_append (by simp), eq_comm,
      Extent.cover_eq_replicate fun c hc => hmspos c (List.mem_append_left _ hc),
      List.replicate_right_inj hz, last_eq_set_iff hprot]
    simp only [ManyBlocksOk, List.mem_append, List.mem_singleton, List.getLast?_concat,
      Option.mem_some_iff, Function.comp_apply, attr]
    constructor
    · rintro ⟨hms, hgz, hza⟩
      refine ⟨trivial, ?_, fun _ z' hz' => hz' ▸ hza, by simp, by simp⟩
      rintro c (hc | rfl)
      · exact hms c hc
      · exact hgz
    · rintro ⟨-, hall, hza, -, -⟩
      exact ⟨fun c hc => hall c (Or.inl hc), hall z (Or.inr rfl), hza trivial z rfl⟩
  · rw [List.concat_eq_append, ← List.append_assoc] at hms
    rw [List.concat_eq_append]
    obtain ⟨rfl, hzz⟩ := List.append_inj' hms rfl
    obtain rfl : z' = z := by simpa using hzz
    simp only [Extent.cover_append, Extent.cover_cons, Extent.cover_nil, VMBlock.extent_size,
      List.append_nil, Extent.total_append, List.replicate_add, List.append_assoc]
    rw [Extent.append_eq_append (by simp), Extent.append_eq_append (by simp), eq_comm,
      Extent.cover_eq_replicate fun c hc => hmspos c (by simp [hc]),
      @eq_comm _ (List.replicate (Extent.total rest) attr),
      Extent.cover_eq_replicate fun c hc => hmspos c (by simp [hc]),
      List.replicate_right_inj hz, last_eq_self_iff]
    simp [ManyBlocksOk, attr]

/-! ## The whole call -/

/-- `tbase`, the last address of the range. -/
theorem tbase_eq {base size : Nat} (hsize : 0 < size) (hstop : base + size ≤ 2 ^ 64) :
    sub64 (add64 base size) 1 = base + size - 1 := by
  unfold sub64 add64; omega

section Call

variable {base size : Nat} {old : BitVec 32}

theorem vmprotect_eq {l₁ l₂ : Dllist VMBlock} {a z : Nat} {n : Node VMBlock} {first last : Ptr}
    (hinit : r.initBlock = some { r with blocks := l })
    (hfind : findBlockL2R l base false none = some (some a)) (hd : l.deref (some a) = some n)
    (hfront : cutFront l (some a) base = some (first, l₁))
    (hlast : findBlockL2R l₁ (sub64 (add64 base size) 1) false first = some (some z))
    (hback : cutBack l₁ (some z) (sub64 (add64 base size) 1) = some (last, l₂)) :
    r.vmprotect base size prot old =
      (setProtect l₂ first last (prot &&& WVM_PROTECT_MASK)).map fun l =>
        (0, n.val.attr &&& WVM_PROTECT_MASK, { r with blocks := l }) := by
  simp only [vmprotect, hinit, hfind, hd, hfront, hlast, hback, Option.bind_eq_bind,
    Option.bind_some, reduceCtorEq, if_false]
  cases setProtect l₂ first last (prot &&& WVM_PROTECT_MASK) <;> rfl

theorem not_protects_of_none (h : r.vmprotect base size prot old = none) :
    ¬ r.Protects base size prot old := by
  rintro ⟨old', r', hr', -⟩
  rw [h] at hr'
  cases hr'

/-- The cut blocks tile the region and show the same attributes. -/
theorem HasBlocks.cut (h : r.HasBlocks bs) (hlo : r.base ≤ base)
    (hhi : base + size ≤ r.base + r.size) :
    let front := (cutAt base bs).1
    let parts := cutAt (base + size) (cutAt base bs).2
    Extent.Tiles r.base (front ++ (parts.1 ++ parts.2)) (r.base + r.size) ∧
      r.base + Extent.total front = base ∧ Extent.total parts.1 = size ∧
      (∀ a, r.base ≤ a → a < r.base + r.size → r.attrAt a =
        (Extent.lookup (front ++ (parts.1 ++ parts.2)) a).map VMBlock.attr) ∧
      ∀ b ∈ parts.1 ++ parts.2, 0 < b.size := by
  intro front parts
  obtain ⟨h₁, h₂, hc₁, -, hp₁⟩ := cutAt_tiles h.tiles h.pos hlo (by omega)
  obtain ⟨h₃, h₄, hc₂, hp₂, hp₃⟩ := cutAt_tiles h₂ hp₁ (Nat.le_add_right base size) hhi
  have hfront := h₁.stop_eq
  have hmids := h₃.stop_eq
  have htiles : Extent.Tiles r.base (front ++ (parts.1 ++ parts.2)) (r.base + r.size) := by
    rw [Extent.tiles_append, Extent.tiles_append, ← hfront, ← hmids]
    exact ⟨h₁, h₃, h₄⟩
  refine ⟨htiles, hfront.symm, (Nat.add_left_cancel hmids).symm, ?_, ?_⟩
  · intro a hlo' hhi'
    rw [h.attrAt hlo' hhi']
    refine (Extent.map_lookup_eq_iff h.tiles htiles VMBlock.attr VMBlock.attr).2 ?_ a hlo' hhi'
    rw [Extent.cover_append, Extent.cover_append, hc₂, hc₁]
  · intro b hb
    rcases List.mem_append.1 hb with hb | hb
    · exact hp₂ b hb
    · exact hp₃ b hb

/-- A call that returns 0 keeps the contract exactly when the cover of the new blocks is the
cover of the cut blocks with the protection replaced in the range. -/
theorem protects_iff_cover (h : r.HasBlocks bs) (hlo : r.base ≤ base) (hsize : 0 < size)
    (hhi : base + size ≤ r.base + r.size) {old' : BitVec 32}
    (hr : r.vmprotect base size prot old = some (0, old', { r with blocks := l }))
    (hold : (r.attrAt base).map (· &&& WVM_PROTECT_MASK) = some old')
    {es : List (Entry VMBlock)} (hl : Layout l es [])
    (htiles : Extent.Tiles r.base (es.map Entry.val) (r.base + r.size)) :
    r.Protects base size prot old ↔
      Extent.cover VMBlock.attr (es.map Entry.val) =
        Extent.cover VMBlock.attr (cutAt base bs).1 ++
          (Extent.cover
              (setField WVM_PROTECT_MASK (prot &&& WVM_PROTECT_MASK) ∘ VMBlock.attr)
              (cutAt (base + size) (cutAt base bs).2).1 ++
            Extent.cover VMBlock.attr (cutAt (base + size) (cutAt base bs).2).2) := by
  obtain ⟨hcut, hfront, hmids, hattr, -⟩ := h.cut hlo hhi
  have hne : es ≠ [] := fun he => htiles.ne_nil (by omega) (by rw [he]; rfl)
  rw [← Extent.map_lookup_update_iff htiles hcut VMBlock.attr
    (setField WVM_PROTECT_MASK (prot &&& WVM_PROTECT_MASK)), hfront, hmids]
  constructor
  · rintro ⟨old'', r', hr', -, hall⟩ a hlo' hhi'
    rw [hr] at hr'
    obtain ⟨-, -, rfl⟩ : 0 = (0 : Int) ∧ old' = old'' ∧ { r with blocks := l } = r' := by
      simpa using hr'
    rw [← attrAt_layout hl hne a, ← hattr a hlo' hhi', hall a hlo' hhi']
  · intro hall
    refine ⟨old', _, hr, hold, fun a hlo' hhi' => ?_⟩
    rw [attrAt_layout hl hne a, hattr a hlo' hhi', hall a hlo' hhi']

theorem cutAt_cutFront {lo hi : Nat} {f : Entry VMBlock} {fs : List (Entry VMBlock)}
    (htiles : Extent.Tiles lo ((xs ++ e :: ys).map Entry.val) hi)
    (hpos : ∀ b ∈ (xs ++ e :: ys).map Entry.val, 0 < b.size)
    (hc : Extent.Covers e.val base)
    (hf : f.val = ⟨base, Extent.stop e.val - base, e.val.attr⟩)
    (hcase : (base = e.val.base ∧ fs = xs ∧ f.addr = e.addr) ∨
      (e.val.base < base ∧ ∃ g, fs = xs ++ [g] ∧ g.addr = e.addr ∧
        g.val = { e.val with size := base - e.val.base })) :
    cutAt base ((xs ++ e :: ys).map Entry.val) = (fs.map Entry.val, (f :: ys).map Entry.val) := by
  simp only [List.map_append, List.map_cons] at htiles hpos ⊢
  rw [cutAt_append fun b hb => htiles.stop_le_of_covers hc hb]
  rcases hcase with ⟨rfl, rfl, -⟩ | ⟨hlt, g, rfl, -, hg⟩
  · have htail : Extent.Tiles e.val.base (e.val :: ys.map Entry.val) hi := by
      have h₂ := (Extent.tiles_append.1 htiles).2
      exact ⟨rfl, by rw [show e.val.base = _ from h₂.1]; exact h₂.2⟩
    rw [cutAt_start htail fun b hb => hpos b (List.mem_append_right _ hb)]
    have hfe : f.val = e.val := by simp [hf]
    simp [hfe]
  · rw [cutAt_inside _ hlt hc.2]
    simp [hg, hf]

theorem cutAt_cutBack {lo hi tbase : Nat} {t : Entry VMBlock} {qs : List (Entry VMBlock)}
    (htiles : Extent.Tiles lo ((xs ++ e :: ys).map Entry.val) hi)
    (hpos : ∀ b ∈ (xs ++ e :: ys).map Entry.val, 0 < b.size)
    (hc : Extent.Covers e.val tbase)
    (ht : t.val = { e.val with size := tbase + 1 - e.val.base })
    (hcase : (tbase + 1 = Extent.stop e.val ∧ qs = ys) ∨
      (tbase + 1 < Extent.stop e.val ∧ ∃ c, qs = c :: ys ∧ c.prev = some e.addr ∧
        c.val = ⟨tbase + 1, Extent.stop e.val - (tbase + 1), e.val.attr⟩)) :
    cutAt (tbase + 1) ((xs ++ e :: ys).map Entry.val) =
      ((xs ++ [t]).map Entry.val, qs.map Entry.val) := by
  simp only [List.map_append, List.map_cons] at htiles hpos ⊢
  rw [cutAt_append fun b hb => Nat.le_succ_of_le (htiles.stop_le_of_covers hc hb)]
  obtain ⟨hlo, -⟩ := hc
  rcases hcase with ⟨heq, rfl⟩ | ⟨hlt, c, rfl, -, hcv⟩
  · have h₂ := (Extent.tiles_append.1 htiles).2
    have htail : Extent.Tiles (tbase + 1) (qs.map Entry.val) hi := by
      rw [heq, Extent.stop, h₂.1]
      exact h₂.2
    have hte : t.val = e.val := by
      simp only [VMBlock.extent_stop] at heq
      rw [ht, show tbase + 1 - e.val.base = e.val.size by omega]
    have hcut : cutAt (tbase + 1) (e.val :: qs.map Entry.val) = ([e.val], qs.map Entry.val) := by
      have hstart := cutAt_start htail fun b hb =>
        hpos b (List.mem_append_right _ (List.mem_cons_of_mem _ hb))
      have := @cutAt_append (tbase + 1) [e.val] (qs.map Entry.val)
        (by simpa using Nat.le_of_eq heq.symm)
      simpa [hstart] using this
    simp [hcut, hte]
  · rw [cutAt_inside _ (Nat.lt_succ_of_le hlo) hlt]
    simp [ht, hcv]

/-- The state of the call after the cut at `base`. -/
structure FrontCut (l : Dllist VMBlock) (xs : List (Entry VMBlock)) (e : Entry VMBlock)
    (ys : List (Entry VMBlock)) (base hi : Nat) (l' : Dllist VMBlock)
    (fs : List (Entry VMBlock)) (f : Entry VMBlock) : Prop where
  find : findBlockL2R l base false none = some (some e.addr)
  cut : cutFront l (some e.addr) base = some (some f.addr, l')
  layout : Layout l' (fs ++ f :: ys) []
  prevOk : PrevOk none (fs ++ [f])
  headPrev : HeadPrev (some e.addr) ys
  val : f.val = ⟨base, Extent.stop e.val - base, e.val.attr⟩
  cases : (base = e.val.base ∧ fs = xs ∧ f.addr = e.addr) ∨
    (e.val.base < base ∧ ∃ g, fs = xs ++ [g] ∧ g.addr = e.addr ∧
      g.val = { e.val with size := base - e.val.base })
  cutAt : cutAt base ((xs ++ e :: ys).map Entry.val) =
    (fs.map Entry.val, (f :: ys).map Entry.val)
  tiles : Extent.Tiles base ((f :: ys).map Entry.val) hi
  pos : ∀ b ∈ (f :: ys).map Entry.val, 0 < b.size

theorem frontCut (h : Layout l (xs ++ e :: ys) []) (hp : PrevOk none (xs ++ e :: ys))
    {lo hi : Nat} (htiles : Extent.Tiles lo ((xs ++ e :: ys).map Entry.val) hi)
    (hpos : ∀ b ∈ (xs ++ e :: ys).map Entry.val, 0 < b.size)
    (hc : Extent.Covers e.val base) (hstop : Extent.stop e.val < 2 ^ 64) :
    ∃ l' fs f, FrontCut l xs e ys base hi l' fs f := by
  have hxs : ∀ x ∈ xs, x.val.base + x.val.size ≤ base := fun x hx => by
    simp only [List.map_append, List.map_cons] at htiles
    exact htiles.stop_le_of_covers hc (List.mem_map_of_mem hx)
  have hfind := @findBlockL2R_covers l [] ys xs e [] h base hxs hc hstop none
    (by simpa using h.first)
  obtain ⟨l', fs, f, hl', h', hp', hhead, hf, hcase⟩ := cutFront_layout h hp hc hstop
  have hcut := cutAt_cutFront htiles hpos hc hf hcase
  have hmem := htiles.mem (List.mem_map_of_mem (List.mem_append_right xs List.mem_cons_self))
  obtain ⟨hlo, hhi⟩ := hc
  obtain ⟨-, htiles', -, -, hpos'⟩ := cutAt_tiles htiles hpos (Nat.le_trans hmem.1 hlo)
    (Nat.le_trans (Nat.le_of_lt hhi) hmem.2)
  rw [hcut] at htiles' hpos'
  exact ⟨l', fs, f, hfind, hl', h', hp', hhead, hf, hcase, hcut, htiles', hpos'⟩

/-- The range lies in one block. -/
theorem call_one (hinit : r.initBlock = some { r with blocks := l })
    (h : Layout l (xs ++ e :: ys) []) {hi : Nat} {l₁ : Dllist VMBlock}
    {fs : List (Entry VMBlock)} {f : Entry VMBlock} (hf : FrontCut l xs e ys base hi l₁ fs f)
    (hsize : 0 < size) (hcb : Extent.Covers e.val base)
    (hct : Extent.Covers e.val (base + size - 1)) (hstop : Extent.stop e.val < 2 ^ 64) :
    ∃ l' f qs, r.vmprotect base size prot old =
        (setProtect l' (some f.addr) (some f.addr) (prot &&& WVM_PROTECT_MASK)).map (fun l =>
          (0, e.val.attr &&& WVM_PROTECT_MASK, { r with blocks := l })) ∧
      Layout l' (fs ++ f :: qs) [] ∧ PrevOk none (fs ++ [f]) ∧
      cutAt (base + size) (cutAt base ((xs ++ e :: ys).map Entry.val)).2 =
        ([f.val], qs.map Entry.val) ∧
      ((¬ (e.val.base < base ∧ Extent.stop e.val = base + size) ∧
          HeadPrev (some f.addr) qs) ∨
        ((e.val.base < base ∧ Extent.stop e.val = base + size) ∧
          ∃ fs' g, fs = fs' ++ [g] ∧ HeadPrev (some g.addr) qs)) := by
  obtain ⟨hbase, hbstop⟩ := hcb
  obtain ⟨-, htstop⟩ := hct
  simp only [VMBlock.extent_base, VMBlock.extent_stop] at hbase hbstop htstop hstop
  have hfstop : Extent.stop f.val = Extent.stop e.val := by
    simp only [hf.val, VMBlock.extent_stop]; omega
  have hstop' : Extent.stop f.val < 2 ^ 64 := by rw [hfstop]; exact hstop
  have hcf : Extent.Covers f.val (base + size - 1) := by
    constructor
    · simp only [hf.val, VMBlock.extent_base]; omega
    · rw [hfstop]; exact htstop
  have htb := tbase_eq hsize (show base + size ≤ 2 ^ 64 by omega)
  have hlast := @findBlockL2R_covers l₁ fs ys [] f [] hf.layout (base + size - 1) (by simp) hcf
    hstop' (some f.addr) (by simp)
  obtain ⟨l₂, t, qs, hl₂, h₂, hta, htp, htv, hback⟩ := cutBack_layout hf.layout hcf hstop'
  rw [← htb] at hlast hl₂
  have hcut : cutAt (base + size - 1 + 1) (([] ++ f :: ys).map Entry.val) =
      (([] ++ [t]).map Entry.val, qs.map Entry.val) :=
    cutAt_cutBack hf.tiles hf.pos hcf htv hback
  rw [show base + size - 1 + 1 = base + size by omega] at hcut
  refine ⟨l₂, t, qs, ?_, h₂, ?_, by rw [hf.cutAt]; exact hcut, ?_⟩
  · rw [hta]
    exact vmprotect_eq hinit hf.find h.deref hf.cut hlast hl₂
  · have hp := hf.prevOk
    rw [prevOk_append] at hp ⊢
    exact ⟨hp.1, htp.trans hp.2.1, trivial⟩
  · rw [hta]
    rcases hback with ⟨heq, rfl⟩ | ⟨hlt, c, rfl, hc, -⟩
    · rw [hfstop] at heq
      rcases hf.cases with ⟨hb, -, hfa⟩ | ⟨hlt, g, rfl, hga, -⟩
      · exact Or.inl ⟨fun hlt => absurd hlt.1 (by omega), by rw [hfa]; exact hf.headPrev⟩
      · exact Or.inr ⟨⟨hlt, by omega⟩, xs, g, rfl, by rw [hga]; exact hf.headPrev⟩
    · rw [hfstop] at hlt
      exact Or.inl ⟨fun h => absurd h.2 (by omega), hc⟩

/-- The range ends in the later block `t`. -/
theorem call_many {mid post : List (Entry VMBlock)} {t : Entry VMBlock}
    (hinit : r.initBlock = some { r with blocks := l })
    (h : Layout l (xs ++ e :: (mid ++ t :: post)) []) {hi : Nat} {l₁ : Dllist VMBlock}
    {fs : List (Entry VMBlock)} {f : Entry VMBlock}
    (hf : FrontCut l xs e (mid ++ t :: post) base hi l₁ fs f) (hsize : 0 < size)
    (hct : Extent.Covers t.val (base + size - 1)) (hstop : Extent.stop t.val < 2 ^ 64) :
    ∃ l' t' qs, r.vmprotect base size prot old =
        (setProtect l' (some f.addr) (some t'.addr) (prot &&& WVM_PROTECT_MASK)).map (fun l =>
          (0, e.val.attr &&& WVM_PROTECT_MASK, { r with blocks := l })) ∧
      Layout l' (fs ++ f :: (mid ++ t' :: qs)) [] ∧
      (fs = [] → HeadPrev (some f.addr) (mid ++ t' :: qs)) ∧
      cutAt (base + size) (cutAt base ((xs ++ e :: (mid ++ t :: post)).map Entry.val)).2 =
        ((f :: (mid ++ [t'])).map Entry.val, qs.map Entry.val) := by
  have htiles : Extent.Tiles base ((f :: mid).map Entry.val ++ t.val :: post.map Entry.val) hi := by
    simpa using hf.tiles
  have hskip : ∀ z ∈ f :: mid, z.val.base + z.val.size ≤ base + size - 1 := fun z hz =>
    htiles.stop_le_of_covers hct (List.mem_map_of_mem hz)
  have htb := tbase_eq hsize (show base + size ≤ 2 ^ 64 by
    have := hct.2
    omega)
  have hlast := @findBlockL2R_covers l₁ fs post (f :: mid) t [] (by simpa using hf.layout)
    (base + size - 1) hskip hct hstop (some f.addr) (by simp)
  have hlay : Layout l₁ ((fs ++ f :: mid) ++ t :: post) [] := by simpa using hf.layout
  obtain ⟨l₂, t', qs, hl₂, h₂, hta, htp, htv, hback⟩ := cutBack_layout hlay hct hstop
  rw [← htb] at hlast hl₂
  have hcut : cutAt (base + size - 1 + 1) (((f :: mid) ++ t :: post).map Entry.val) =
      (((f :: mid) ++ [t']).map Entry.val, qs.map Entry.val) :=
    cutAt_cutBack hf.tiles hf.pos hct htv hback
  rw [show base + size - 1 + 1 = base + size by omega] at hcut
  refine ⟨l₂, t', qs, ?_, by simpa using h₂, ?_, by rw [hf.cutAt]; exact hcut⟩
  · rw [hta]
    exact vmprotect_eq hinit hf.find h.deref hf.cut hlast hl₂
  · rintro rfl
    have hfa : f.addr = e.addr := by
      rcases hf.cases with ⟨-, -, hfa⟩ | ⟨-, g, hg, -⟩
      · exact hfa
      · simp at hg
    have hhead := hf.headPrev
    cases mid with
    | nil => exact htp.trans (by rw [hfa]; exact hhead)
    | cons m mid => rw [hfa]; exact hhead

/-- The block of the range reaches up to `2 ^ 64`. -/
theorem call_one_top (hinit : r.initBlock = some { r with blocks := l })
    (h : Layout l (xs ++ [e]) []) {lo hi : Nat}
    (htiles : Extent.Tiles lo ((xs ++ [e]).map Entry.val) hi)
    (hcb : Extent.Covers e.val base) (hstop : Extent.stop e.val = 2 ^ 64) :
    ∃ r', r.vmprotect base size prot old = some (-1, old, r') := by
  simp only [List.map_append, List.map_cons, List.map_nil] at htiles
  have hskip : ∀ x ∈ xs, x.val.base + x.val.size ≤ base := fun x hx =>
    htiles.stop_le_of_covers hcb (List.mem_map_of_mem hx)
  have hfind := @findBlockL2R_wrap l [] xs e [] h base hskip hcb hstop none
    (by simpa using h.first)
  exact ⟨{ r with blocks := l }, by simp [vmprotect, hinit, hfind]⟩

/-- The last block of the range reaches up to `2 ^ 64`. -/
theorem call_many_top {mid : List (Entry VMBlock)} {t : Entry VMBlock}
    (hinit : r.initBlock = some { r with blocks := l })
    (h : Layout l (xs ++ e :: (mid ++ [t])) []) {hi : Nat} {l₁ : Dllist VMBlock}
    {fs : List (Entry VMBlock)} {f : Entry VMBlock}
    (hf : FrontCut l xs e (mid ++ [t]) base hi l₁ fs f) (hsize : 0 < size)
    (hct : Extent.Covers t.val (base + size - 1)) (hstop : Extent.stop t.val = 2 ^ 64) :
    ∃ old' r', r.vmprotect base size prot old = some (-1, old', r') := by
  have htiles : Extent.Tiles base ((f :: mid).map Entry.val ++ [t.val]) hi := by
    simpa using hf.tiles
  have hskip : ∀ z ∈ f :: mid, z.val.base + z.val.size ≤ base + size - 1 := fun z hz =>
    htiles.stop_le_of_covers hct (List.mem_map_of_mem hz)
  have hlast := @findBlockL2R_wrap l₁ fs (f :: mid) t [] (by simpa using hf.layout)
    (base + size - 1) hskip hct hstop (some f.addr) (by simp)
  rw [← tbase_eq hsize (show base + size ≤ 2 ^ 64 by
    have := hct.2
    omega)] at hlast
  exact ⟨e.val.attr &&& WVM_PROTECT_MASK, { r with blocks := l₁ },
    by simp [vmprotect, hinit, hf.find, h.deref, hf.cut, hlast]⟩

theorem not_protects_of_fails {old' : BitVec 32} {r' : VMRegion}
    (h : r.vmprotect base size prot old = some (-1, old', r')) :
    ¬ r.Protects base size prot old := by
  rintro ⟨old'', r'', hr', -⟩
  rw [h] at hr'
  simp at hr'

/-- A list of entries that maps to `pre ++ b :: post`. -/
theorem exists_entries {es : List (Entry VMBlock)} {pre post : List VMBlock} {b : VMBlock}
    (h : es.map Entry.val = pre ++ b :: post) :
    ∃ xs e ys, es = xs ++ e :: ys ∧ e.val = b := by
  obtain ⟨xs, zs, rfl, -, hzs⟩ := List.map_eq_append_iff.1 h
  obtain ⟨e, ys, rfl, he, -⟩ := List.map_eq_cons_iff.1 hzs
  exact ⟨xs, e, ys, rfl, he⟩

/-- A block that reaches up to `2 ^ 64` is the last one. -/
theorem nil_of_stop_top {lo hi : Nat}
    (h : Extent.Tiles lo ((xs ++ e :: ys).map Entry.val) hi)
    (hpos : ∀ b ∈ (xs ++ e :: ys).map Entry.val, 0 < b.size) (hhi : hi ≤ 2 ^ 64)
    (hs : Extent.stop e.val = 2 ^ 64) : ys = [] := by
  cases ys with
  | nil => rfl
  | cons y ys =>
      have hy := hpos y.val (List.mem_map_of_mem (by simp))
      simp only [List.map_append, List.map_cons] at h
      have hnext := h.stop_le List.mem_cons_self
      have hmem := h.mem (List.mem_append_right _ (List.mem_cons_of_mem _ List.mem_cons_self))
      simp only [VMBlock.extent_base, VMBlock.extent_stop] at hnext hmem hs
      omega

end Call

section Main

variable {base size : Nat} (old : BitVec 32)

theorem protects_one_iff (hprot : prot &&& WVM_PROTECT_MASK &&& WVM_PROTECT_MASK =
      prot &&& WVM_PROTECT_MASK)
    (h : r.HasBlocks ((xs ++ e :: ys).map Entry.val)) (hlo : r.base ≤ base) (hsize : 0 < size)
    (hhi : base + size ≤ r.base + r.size)
    (hold : (r.attrAt base).map (· &&& WVM_PROTECT_MASK) = some (e.val.attr &&& WVM_PROTECT_MASK))
    (hinit : r.initBlock = some { r with blocks := l })
    (hl : Layout l (xs ++ e :: ys) []) (hp : PrevOk none (xs ++ e :: ys))
    (hcb : Extent.Covers e.val base) (hct : Extent.Covers e.val (base + size - 1))
    (hstop : Extent.stop e.val < 2 ^ 64) :
    r.Protects base size prot old ↔
      ProtectOk ((xs ++ e :: ys).map Entry.val) base size (prot &&& WVM_PROTECT_MASK) := by
  have hmem : e.val ∈ (xs ++ e :: ys).map Entry.val :=
    List.mem_map_of_mem (List.mem_append_right xs List.mem_cons_self)
  obtain ⟨l₁, fs, f₁, hf⟩ := frontCut hl hp h.tiles h.pos hcb hstop
  obtain ⟨l₂, f, qs, hv, h₂, hp₂, hcut, hback⟩ :=
    @call_one r l xs ys e prot base size old hinit hl _ l₁ fs f₁ hf hsize hcb hct hstop
  have hfront : (cutAt base ((xs ++ e :: ys).map Entry.val)).1 = fs.map Entry.val := by
    rw [hf.cutAt]
  obtain ⟨htiles, -, -, -, hpos⟩ := h.cut hlo hhi
  simp only [hfront, hcut] at htiles hpos
  have htotal := htiles.stop_eq
  simp only [Extent.total_append, Extent.total_cons, Extent.total_nil,
    VMBlock.extent_size] at htotal
  have hs : f.val.size + Extent.total (qs.map Entry.val) < 2 ^ 64 := by
    have := h.size_lt
    omega
  have htop : ∀ b ∈ (xs ++ e :: ys).map Entry.val, Extent.Covers b (base + size - 1) →
      Extent.stop b < 2 ^ 64 := fun b hb hc => by
    rw [h.tiles.eq_of_covers hb hmem hc hct]
    exact hstop
  have hstale : (∃ c ∈ (xs ++ e :: ys).map Entry.val, c.base < base ∧
      Extent.stop c = base + size) ↔ e.val.base < base ∧ Extent.stop e.val = base + size := by
    constructor
    · rintro ⟨c, hc, hcb', hcs⟩
      have : c = e.val := h.tiles.eq_of_covers hc hmem
        (a := base) ⟨Nat.le_of_lt hcb', by omega⟩ hcb
      exact this ▸ ⟨hcb', hcs⟩
    · exact fun hst => ⟨e.val, hmem, hst⟩
  rw [protectOk_one hcut, hfront, OneBlockOk, hstale]
  by_cases hbad : (e.val.base < base ∧ Extent.stop e.val = base + size) ∧
      absorbed (prot &&& WVM_PROTECT_MASK) (qs.map Entry.val) ≠ []
  · -- the back pointer behind the range is stale and followed
    rcases hback with ⟨hn, -⟩ | ⟨-, fs', g, rfl, hhead⟩
    · exact absurd hbad.1 hn
    · have hnone := setProtect_one_stale hprot (by simpa using h₂) hhead hbad.2
      rw [hnone] at hv
      exact iff_of_false (not_protects_of_none hv) fun hok => hbad.2 (hok.2.1 hbad.1)
  · have hhead : absorbed (prot &&& WVM_PROTECT_MASK) (qs.map Entry.val) ≠ [] →
        HeadPrev (some f.addr) qs := by
      intro hrun
      rcases hback with ⟨-, hhead⟩ | ⟨hst, -⟩
      · exact hhead
      · exact absurd ⟨hst, hrun⟩ hbad
    have hstale' : e.val.base < base ∧ Extent.stop e.val = base + size →
        absorbed (prot &&& WVM_PROTECT_MASK) (qs.map Entry.val) = [] := by
      intro hst
      by_contra hrun
      exact hbad ⟨hst, hrun⟩
    by_cases hlast : absorbed (prot &&& WVM_PROTECT_MASK) (qs.map Entry.val) =
        qs.map Entry.val ∧ fs ≠ []
    · -- everything behind the range is absorbed, and there is a block in front of it
      have hnone := setProtect_one_last hprot h₂ hp₂ hs hhead hlast.1 hlast.2
      rw [hnone] at hv
      refine iff_of_false (not_protects_of_none hv) fun hok => hlast.2 ?_
      simpa using hok.2.2.1 hlast.1
    · have hlast' : absorbed (prot &&& WVM_PROTECT_MASK) (qs.map Entry.val) =
          qs.map Entry.val → fs = [] := by
        intro hrun
        by_contra hne
        exact hlast ⟨hrun, hne⟩
      obtain ⟨l₃, es, hl₃, h₃, hes⟩ := setProtect_one_layout hprot h₂ hp₂ hs hhead hlast'
      rw [hl₃] at hv
      have htiles₃ : Extent.Tiles r.base (es.map Entry.val) (r.base + r.size) := by
        have hsplit : Extent.Tiles r.base (fs.map Entry.val ++ f.val ::
            (absorbed (prot &&& WVM_PROTECT_MASK) (qs.map Entry.val) ++
              (qs.map Entry.val).dropWhile fun c => c.prot = prot &&& WVM_PROTECT_MASK))
            (r.base + r.size) := by
          rw [absorbed_append]
          exact htiles
        rw [hes]
        exact hsplit.merge rfl rfl
      rw [protects_iff_cover h hlo hsize hhi hv hold h₃ htiles₃, hes, hfront, hcut]
      rw [oneBlock_cover_iff (fs.map Entry.val) fun c hc => hpos c (by simp_all)]
      constructor
      · exact fun hall => ⟨htop, hstale', fun hrun => by rw [hlast' hrun]; rfl, hall⟩
      · exact fun hok => hok.2.2.2

theorem headPrev_concat {α : Type} {p : Ptr} {gs qs : List (Entry α)} {f : Entry α}
    (h : HeadPrev p (gs ++ [f])) : HeadPrev p (gs ++ f :: qs) := by
  cases gs with
  | nil => exact h
  | cons g gs => exact h

theorem protects_many_iff {mid post : List (Entry VMBlock)} {t : Entry VMBlock}
    (hprot : prot &&& WVM_PROTECT_MASK &&& WVM_PROTECT_MASK = prot &&& WVM_PROTECT_MASK)
    (h : r.HasBlocks ((xs ++ e :: (mid ++ t :: post)).map Entry.val)) (hlo : r.base ≤ base)
    (hsize : 0 < size) (hhi : base + size ≤ r.base + r.size)
    (hold : (r.attrAt base).map (· &&& WVM_PROTECT_MASK) = some (e.val.attr &&& WVM_PROTECT_MASK))
    (hinit : r.initBlock = some { r with blocks := l })
    (hl : Layout l (xs ++ e :: (mid ++ t :: post)) [])
    (hp : PrevOk none (xs ++ e :: (mid ++ t :: post))) (hcb : Extent.Covers e.val base)
    (hestop : Extent.stop e.val < 2 ^ 64) (hct : Extent.Covers t.val (base + size - 1))
    (hstop : Extent.stop t.val < 2 ^ 64) :
    r.Protects base size prot old ↔
      ProtectOk ((xs ++ e :: (mid ++ t :: post)).map Entry.val) base size
        (prot &&& WVM_PROTECT_MASK) := by
  have hmem : t.val ∈ (xs ++ e :: (mid ++ t :: post)).map Entry.val :=
    List.mem_map_of_mem (by simp)
  obtain ⟨l₁, fs, f, hf⟩ := frontCut hl hp h.tiles h.pos hcb hestop
  obtain ⟨l₂, t', qs, hv, h₂, hhead, hcut⟩ :=
    @call_many r l xs e prot base size old mid post t hinit hl _ l₁ fs f hf hsize hct hstop
  have hfront : (cutAt base ((xs ++ e :: (mid ++ t :: post)).map Entry.val)).1 =
      fs.map Entry.val := by
    rw [hf.cutAt]
  obtain ⟨htiles, -, -, -, hpos⟩ := h.cut hlo hhi
  simp only [hfront, hcut] at htiles hpos
  have htop : ∀ b ∈ (xs ++ e :: (mid ++ t :: post)).map Entry.val,
      Extent.Covers b (base + size - 1) → Extent.stop b < 2 ^ 64 := fun b hb hc => by
    rw [h.tiles.eq_of_covers hb hmem hc hct]
    exact hstop
  rw [protectOk_many hcut (by simp), hfront]
  -- the last block of the region
  obtain ⟨ms, z, hms⟩ : ∃ ms z, mid ++ t' :: qs = ms ++ [z] :=
    ⟨_, _, (List.dropLast_append_getLast (by simp)).symm⟩
  have hmsv : (mid ++ [t']).map Entry.val ++ qs.map Entry.val =
      ms.map Entry.val ++ [z.val] := by
    simpa using congrArg (List.map Entry.val) hms
  have htotal := htiles.stop_eq
  have hsum := congrArg Extent.total hmsv
  simp only [List.map_append, List.map_cons, List.map_nil, Extent.total_append,
    Extent.total_cons, Extent.total_nil, VMBlock.extent_size] at htotal hsum
  have hrsize := h.size_lt
  rw [hms] at h₂ hhead
  have ht' : t'.addr ∈ addrs (ms ++ [z]) := by rw [← hms]; simp
  cases fs with
  | cons g gs =>
      -- the first block of the range is absorbed and deleted
      have hnd := (List.nodup_append.1 h₂.nodup).1
      simp only [List.map_append, List.map_cons, List.cons_append, List.nodup_cons,
        List.nodup_append] at hnd
      have hft : f.addr ≠ t'.addr := by
        intro he
        rw [he] at hnd
        exact hnd.2.2.1.1 (by simpa using ht')
      have hheadg : HeadPrev (some g.addr) ((gs ++ f :: ms) ++ [z]) := by
        have hpg : PrevOk (some g.addr) (gs ++ [f]) := hf.prevOk.2
        simpa using headPrev_concat hpg.headPrev
      have hnone := @setProtect_deleted l₂ g [] (gs ++ f :: ms) z (by simpa using h₂) hheadg
        f.addr t'.addr (by simp_all) (by simp) hft
        (by simp only [List.map_append, List.map_cons, Extent.total_append, Extent.total_cons,
              VMBlock.extent_size] at htotal ⊢
            omega)
        (prot &&& WVM_PROTECT_MASK)
      rw [hnone] at hv
      exact iff_of_false (not_protects_of_none hv) fun hok => by simpa using hok.2.1
  | nil =>
      obtain ⟨l₃, es, hl₃, h₃, hes⟩ := setProtect_many_layout hprot h₂
        (by simpa [endPtr] using hf.prevOk.1) (hhead rfl) ht' (by omega)
      rw [hl₃] at hv
      have htiles' : Extent.Tiles r.base ([] ++ f.val :: (ms.map Entry.val ++ [z.val]))
          (r.base + r.size) := by
        rw [← hmsv]
        simpa using htiles
      have htiles₃ : Extent.Tiles r.base (es.map Entry.val) (r.base + r.size) := by
        rw [hes]
        split
        · have hall : Extent.Tiles r.base ([] ++ f.val :: ((ms.map Entry.val ++ [z.val]) ++ []))
              (r.base + r.size) := by
            simpa using htiles'
          exact hall.merge rfl (by simp [Nat.add_assoc])
        · exact htiles'.merge rfl rfl
      rw [protects_iff_cover h hlo hsize hhi hv hold h₃ htiles₃, hes, hfront, hcut]
      have hcover := @manyBlocks_cover_iff _ f.val z.val _ _ _ hprot
        (fun c hc => hpos c (by simp_all)) hmsv
      simp only [List.map_nil, Extent.cover_nil, List.nil_append, List.map_cons]
      rw [hcover]
      exact (and_iff_right htop).symm

/-- `vmprotect` keeps its contract exactly when the blocks of the region meet `ProtectOk`. -/
theorem vmprotect_protects_iff (h : r.HasBlocks bs) (hlo : r.base ≤ base) (hsize : 0 < size)
    (hhi : base + size ≤ r.base + r.size) (prot : BitVec 32) :
    r.Protects base size prot old ↔ ProtectOk bs base size (prot &&& WVM_PROTECT_MASK) := by
  have hprot : prot &&& WVM_PROTECT_MASK &&& WVM_PROTECT_MASK = prot &&& WVM_PROTECT_MASK := by
    rw [BitVec.and_assoc, BitVec.and_self]
  obtain ⟨l, es, hinit, hl, hp, rfl⟩ := h.initBlock
  have htiles := h.tiles
  have hstople := h.stop_le
  -- the block of `base`
  obtain ⟨pre, b, post, hsplit, hb⟩ := htiles.exists_split hlo (show base < _ by omega)
  obtain ⟨xs, e, ys, rfl, rfl⟩ := exists_entries hsplit
  simp only [List.map_append, List.map_cons] at htiles
  have hold : (r.attrAt base).map (· &&& WVM_PROTECT_MASK) =
      some (e.val.attr &&& WVM_PROTECT_MASK) := by
    have hlookup := Extent.lookup_eq_some htiles hb
    simp [h.attrAt hlo (show base < _ by omega), hlookup]
  -- the block of the last address
  have hmem : e.val ∈ (xs ++ e :: ys).map Entry.val :=
    List.mem_map_of_mem (List.mem_append_right xs List.mem_cons_self)
  have hnotok : ∀ t ∈ (xs ++ e :: ys).map Entry.val, Extent.Covers t (base + size - 1) →
      Extent.stop t = 2 ^ 64 → ¬ ProtectOk ((xs ++ e :: ys).map Entry.val) base size
        (prot &&& WVM_PROTECT_MASK) := fun t ht hc hs hok => by
    have := hok.1 t ht hc
    omega
  have htail : Extent.Tiles e.val.base (e.val :: ys.map Entry.val) (r.base + r.size) := by
    have h₂ := (Extent.tiles_append.1 htiles).2
    exact ⟨rfl, by rw [show e.val.base = _ from h₂.1]; exact h₂.2⟩
  obtain ⟨pre', b', post', hsplit', ht⟩ := @Extent.Tiles.exists_split _ _ _ _ _ htail
    (base + size - 1) (by have := hb.1; simp only [VMBlock.extent_base] at this; omega) (by omega)
  obtain ⟨xs', t, ys', hes, rfl⟩ := @exists_entries (e :: ys) pre' post' b' hsplit'
  have hstop_le : ∀ b ∈ (xs ++ e :: ys).map Entry.val, Extent.stop b ≤ 2 ^ 64 := fun b hb =>
    Nat.le_trans (h.tiles.mem hb).2 hstople
  cases xs' with
  | nil =>
      obtain ⟨rfl, rfl⟩ : e = t ∧ ys = ys' := by simpa using hes
      rcases Nat.eq_or_lt_of_le (hstop_le e.val hmem) with hs | hs
      · obtain rfl := nil_of_stop_top h.tiles h.pos hstople hs
        obtain ⟨r', hv⟩ := @call_one_top r l xs e prot base size old hinit hl _ _ h.tiles hb hs
        exact iff_of_false (not_protects_of_fails hv) (hnotok e.val hmem ht hs)
      · exact protects_one_iff old hprot h hlo hsize hhi hold hinit hl hp hb ht hs
  | cons e' mid =>
      obtain ⟨rfl, rfl⟩ : e = e' ∧ ys = mid ++ t :: ys' := by simpa using hes
      have hmemt : t.val ∈ (xs ++ e :: (mid ++ t :: ys')).map Entry.val :=
        List.mem_map_of_mem (by simp)
      have hestop : Extent.stop e.val < 2 ^ 64 := by
        have h₁ := (@Extent.Tiles.stop_le _ _ _ _ (xs.map Entry.val) _ e.val
          (by simpa using htiles)) (List.mem_map_of_mem (List.mem_append_right mid
            (List.mem_cons_self (a := t) (l := ys'))))
        have h₂ := hstop_le t.val hmemt
        have h₃ := h.pos t.val hmemt
        simp only [VMBlock.extent_base, VMBlock.extent_stop] at h₁ h₂ ⊢
        omega
      rcases Nat.eq_or_lt_of_le (hstop_le t.val hmemt) with hs | hs
      · have hsplit : xs ++ e :: (mid ++ t :: ys') = (xs ++ e :: mid) ++ t :: ys' := by simp
        obtain rfl := nil_of_stop_top (hsplit ▸ h.tiles) (hsplit ▸ h.pos) hstople hs
        obtain ⟨l₁, fs, f, hf⟩ := frontCut hl hp h.tiles h.pos hb hestop
        obtain ⟨old', r', hv⟩ :=
          @call_many_top r l xs e prot base size old mid t hinit hl _ l₁ fs f hf hsize ht hs
        exact iff_of_false (not_protects_of_fails hv) (hnotok t.val hmemt ht hs)
      · exact protects_many_iff old hprot h hlo hsize hhi hold hinit hl hp hb hestop ht hs

end Main

/-- A region of three pages as `allocSectionAddress` and its caller leave it. -/
def threePages : VMRegion := ⟨0x10000, 0x3000, 0x32001#32, Dllist.empty⟩

theorem threePages_hasBlocks : threePages.HasBlocks [⟨0x10000, 0x3000, 0x32001#32⟩] where
  linked := Or.inl ⟨layout_empty, rfl⟩
  tiles := ⟨rfl, rfl⟩
  pos := by simp
  stop_le := by decide
  size_lt := by decide

/-- Making the first page of the region read-write keeps the contract. -/
theorem threePages_first_page : threePages.Protects 0x10000 0x1000 4#32 0#32 := by
  have hcut : cutAt (0x10000 + 0x1000) (cutAt 0x10000 [⟨0x10000, 0x3000, 0x32001#32⟩]).2 =
      ([⟨0x10000, 0x1000, 0x32001#32⟩], [⟨0x11000, 0x2000, 0x32001#32⟩]) := by decide
  have hrun : absorbed (4#32 &&& WVM_PROTECT_MASK) [⟨0x11000, 0x2000, 0x32001#32⟩] = [] := by
    decide
  refine (vmprotect_protects_iff 0#32 threePages_hasBlocks (by decide) (by decide) (by decide)
    4#32).2 ((protectOk_one hcut).2 ⟨by simp [Extent.Covers], fun _ => hrun, ?_, ?_⟩)
  · intro hall
    rw [hrun] at hall
    cases hall
  · simp [hrun]

/-- Making the last page of the region read-write follows the null `_next` of its block. -/
theorem vmprotect_last_page_faults :
    ¬ ∀ (r : VMRegion) (bs : List VMBlock) (base size : Nat) (prot old : BitVec 32),
      r.HasBlocks bs → r.base ≤ base → 0 < size → base + size ≤ r.base + r.size →
        base % 0x1000 = 0 → r.Protects base size prot old := by
  intro hall
  obtain ⟨old', r', hr', -⟩ := hall threePages _ 0x12000 0x1000 4#32 0#32 threePages_hasBlocks
    (by decide) (by decide) (by decide) (by decide)
  have hnone : (threePages.vmprotect 0x12000 0x1000 4#32 0#32).isSome = false := by
    decide +kernel
  rw [hr'] at hnone
  cases hnone

end VMRegion

end Vin64.Space
