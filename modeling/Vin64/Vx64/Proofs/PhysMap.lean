import Vin64.Vx64.PhysMap

/-!
# Sections of pages

Setting a run of free pages maps them to the section and leaves every other page as it was.  The
nodes that an entry leads to form a tree, and no call writes outside the tree of its entry.
-/

namespace Vin64.Vx64

variable {m m' m₁ m₂ : PhysMap} {una leaf d p i n x : Nat} {e e' e₁ e₂ : PhysPageEntry}
  {ref : EntryRef} {place : Option EntryRef}

/-! ## The steps of the levels -/

theorem levelStep_zero : levelStep 0 = 1 := rfl

theorem levelStep_succ (d : Nat) : levelStep (d + 1) = levelStep d * 1024 := by
  rw [levelStep, levelStep, Nat.succ_mul, Nat.pow_add]

theorem levelStep_pos (d : Nat) : 0 < levelStep d := Nat.pow_pos (by decide)

/-! ## Trees of nodes -/

/-- The nodes that an entry leads to, `d` levels of them. -/
def Reach (m : PhysMap) : Nat → PhysPageEntry → Nat → Prop
  | 0, _, _ => False
  | d + 1, e, n => e.isLeaf = false ∧ e.ptr ≠ PHYS_MAP_NODE_NIL ∧
    (n = e.ptr ∨ ∃ i < 1024, Reach m d (m.nodes e.ptr i) n)

/-- The entries of the node lead to trees that are apart. -/
structure Node (m : PhysMap) (tree : PhysPageEntry → Prop) (reach : PhysPageEntry → Nat → Prop)
    (p : Nat) : Prop where
  lt : p < m.nodesNb
  tree : ∀ i < 1024, tree (m.nodes p i)
  self : ∀ i < 1024, ¬ reach (m.nodes p i) p
  apart : ∀ i < 1024, ∀ j < 1024, i ≠ j → ∀ n, reach (m.nodes p i) n → ¬ reach (m.nodes p j) n

/-- Below the last level all entries are leaves. -/
def Tree (una : Nat) (m : PhysMap) : Nat → PhysPageEntry → Prop
  | 0, e => e.isLeaf = true
  | d + 1, e => (e.isLeaf = true → e.ptr ≠ una) ∧
    (e.isLeaf = false → e.ptr ≠ PHYS_MAP_NODE_NIL → Node m (Tree una m d) (Reach m d) e.ptr)

theorem Tree.reach_lt (h : Tree una m d e) (hn : Reach m d e n) : n < m.nodesNb := by
  induction d generalizing e with
  | zero => exact hn.elim
  | succ d ih =>
      obtain ⟨hleaf, hptr, rfl | ⟨i, hi, hn⟩⟩ := hn
      · exact (h.2 hleaf hptr).lt
      · exact ih ((h.2 hleaf hptr).tree i hi) hn

theorem findLevels_node (hp : p ≠ PHYS_MAP_NODE_NIL) :
    findLevels una m x (d + 1) ⟨false, p⟩ =
      findLevels una m x d (m.nodes p (x / levelStep d % 1024)) := by
  rw [findLevels, if_neg Bool.false_ne_true, if_neg hp]

/-- A map that is the same in the nodes of a tree has the same tree. -/
theorem Reach.congr (h : ∀ n, Reach m d e n → ∀ j, m'.nodes n j = m.nodes n j) :
    Reach m' d e n ↔ Reach m d e n := by
  induction d generalizing e with
  | zero => exact Iff.rfl
  | succ d ih =>
      refine and_congr_right fun hleaf => and_congr_right fun hptr => or_congr_right ?_
      have hsame : ∀ i, m'.nodes e.ptr i = m.nodes e.ptr i := h e.ptr ⟨hleaf, hptr, .inl rfl⟩
      refine exists_congr fun i => and_congr_right fun hi => ?_
      rw [hsame]
      exact ih fun n hn => h n ⟨hleaf, hptr, .inr ⟨i, hi, hn⟩⟩

theorem Tree.congr (h : ∀ n, Reach m d e n → ∀ j, m'.nodes n j = m.nodes n j)
    (hnb : m.nodesNb ≤ m'.nodesNb) (htree : Tree una m d e) : Tree una m' d e := by
  induction d generalizing e with
  | zero => exact htree
  | succ d ih =>
      refine ⟨htree.1, fun hleaf hptr => ?_⟩
      have hnode := htree.2 hleaf hptr
      have hsame : ∀ i, m'.nodes e.ptr i = m.nodes e.ptr i := h e.ptr ⟨hleaf, hptr, .inl rfl⟩
      have hin : ∀ i < 1024, ∀ n, Reach m d (m.nodes e.ptr i) n →
          ∀ j, m'.nodes n j = m.nodes n j := fun i hi n hn =>
        h n ⟨hleaf, hptr, .inr ⟨i, hi, hn⟩⟩
      refine ⟨Nat.lt_of_lt_of_le hnode.lt hnb, fun i hi => ?_, fun i hi => ?_,
        fun i hi j hj hij n => ?_⟩
      · rw [hsame]
        exact ih (hin i hi) (hnode.tree i hi)
      · rw [hsame, Reach.congr (hin i hi)]
        exact hnode.self i hi
      · rw [hsame, hsame, Reach.congr (hin i hi), Reach.congr (hin j hj)]
        exact hnode.apart i hi j hj hij n

theorem findLevels_congr (h : ∀ n, Reach m d e n → ∀ j, m'.nodes n j = m.nodes n j) (x : Nat) :
    findLevels una m' x d e = findLevels una m x d e := by
  induction d generalizing e with
  | zero => rfl
  | succ d ih =>
      rw [findLevels, findLevels]
      cases hleaf : e.isLeaf with
      | true => rfl
      | false =>
          by_cases hptr : e.ptr = PHYS_MAP_NODE_NIL
          · rw [if_pos hptr, if_pos hptr]
          · have hmod : x / levelStep d % 1024 < 1024 := Nat.mod_lt _ (by decide)
            rw [if_neg hptr, if_neg hptr, h e.ptr ⟨hleaf, hptr, .inl rfl⟩]
            rw [ih fun n hn => h n ⟨hleaf, hptr, .inr ⟨_, hmod, hn⟩⟩]

/-! ## What a call writes -/

/-- The entry is not in the tree of `e`. -/
def Outside (m : PhysMap) (d : Nat) (e : PhysPageEntry) : EntryRef → Prop
  | .physMap => True
  | .slot n _ => n < m.nodesNb ∧ ¬ Reach m d e n

/-- The tree of `e` has become the tree of `e'`; outside of it only the entry at `place` may have
been written. -/
structure Becomes (una : Nat) (place : Option EntryRef) (m m' : PhysMap) (d : Nat)
    (e e' : PhysPageEntry) : Prop where
  nb : m.nodesNb ≤ m'.nodesNb
  alloc : m'.nodesNbAlloc = m.nodesNbAlloc
  tree : Tree una m' d e'
  reach : ∀ n, Reach m' d e' n → Reach m d e n ∨ m.nodesNb ≤ n
  rest : ∀ ref, some ref ≠ place → Outside m d e ref → m'.entry ref = m.entry ref

theorem Becomes.refl (h : Tree una m d e) : Becomes una none m m d e e :=
  ⟨Nat.le_refl _, rfl, h, fun _ hn => .inl hn, fun _ _ _ => rfl⟩

theorem Becomes.outside (h : Becomes una place m m' d e e') (href : Outside m d e ref) :
    Outside m' d e' ref := by
  cases ref with
  | physMap => trivial
  | slot n j =>
      obtain ⟨hlt, hnot⟩ := href
      refine ⟨Nat.lt_of_lt_of_le hlt h.nb, fun hn => ?_⟩
      rcases h.reach n hn with hn | hge
      · exact hnot hn
      · omega

theorem Becomes.trans (h : Becomes una place m m₁ d e e₁) (h' : Becomes una none m₁ m₂ d e₁ e₂) :
    Becomes una place m m₂ d e e₂ := by
  refine ⟨Nat.le_trans h.nb h'.nb, h'.alloc.trans h.alloc, h'.tree, fun n hn => ?_,
    fun ref hplace href => ?_⟩
  · rcases h'.reach n hn with hn | hge
    · exact h.reach n hn
    · exact .inr (Nat.le_trans h.nb hge)
  · rw [h'.rest ref nofun (h.outside href), h.rest ref hplace href]

/-- One entry of a node, and the tree that it leads to. -/
theorem Becomes.entry (hp : p ≠ PHYS_MAP_NODE_NIL) (hi : i < 1024)
    (htree : Tree una m (d + 1) ⟨false, p⟩)
    (h : Becomes una (some (.slot p i)) m m' d (m.nodes p i) (m'.nodes p i)) :
    Becomes una none m m' (d + 1) ⟨false, p⟩ ⟨false, p⟩ ∧
      ∀ j < 1024, j ≠ i → ∀ x,
        findLevels una m' x d (m'.nodes p j) = findLevels una m x d (m.nodes p j) := by
  have hnode : Node m (Tree una m d) (Reach m d) p := htree.2 rfl hp
  have hsame : ∀ n j, n < m.nodesNb → ¬ Reach m d (m.nodes p i) n → ¬ (n = p ∧ j = i) →
      m'.nodes n j = m.nodes n j := fun n j hlt hn hij =>
    h.rest (.slot n j) (fun heq => hij (by cases heq; exact ⟨rfl, rfl⟩)) ⟨hlt, hn⟩
  have hentry : ∀ j, j ≠ i → m'.nodes p j = m.nodes p j := fun j hj =>
    hsame p j hnode.lt (hnode.self i hi) fun hc => hj hc.2
  have hother : ∀ j < 1024, j ≠ i → ∀ n, Reach m d (m.nodes p j) n →
      ∀ k, m'.nodes n k = m.nodes n k := fun j hj hne n hn k =>
    hsame n k (Tree.reach_lt (hnode.tree j hj) hn) (hnode.apart j hj i hi hne n hn)
      fun hc => hnode.self j hj (hc.1 ▸ hn)
  have hreach : ∀ j < 1024, j ≠ i → ∀ n,
      Reach m' d (m'.nodes p j) n ↔ Reach m d (m.nodes p j) n := fun j hj hne n => by
    rw [hentry j hne]
    exact Reach.congr (hother j hj hne)
  have hnew : ∀ j < 1024, ∀ n, Reach m' d (m'.nodes p j) n →
      Reach m d (m.nodes p j) n ∨ m.nodesNb ≤ n := fun j hj n hn => by
    by_cases hne : j = i
    · subst hne
      exact h.reach n hn
    · exact .inl ((hreach j hj hne n).1 hn)
  refine ⟨⟨h.nb, h.alloc, ⟨nofun, fun _ _ => ⟨?_, fun j hj => ?_, fun j hj hn => ?_,
    fun j hj k hk hjk n hn hn' => ?_⟩⟩, fun n hn => ?_, fun ref _ href => ?_⟩, fun j hj hne x => ?_⟩
  · exact Nat.lt_of_lt_of_le hnode.lt h.nb
  · by_cases hne : j = i
    · subst hne
      exact h.tree
    · rw [hentry j hne]
      exact Tree.congr (hother j hj hne) h.nb (hnode.tree j hj)
  · rcases hnew j hj p hn with hn | hge
    · exact hnode.self j hj hn
    · exact absurd hnode.lt (Nat.not_lt.2 hge)
  · -- what is new lies only in the tree of entry `i`
    rcases hnew j hj n hn with hold | hge
    · rcases hnew k hk n hn' with hold' | hge'
      · exact hnode.apart j hj k hk hjk n hold hold'
      · exact absurd (Tree.reach_lt (hnode.tree j hj) hold) (Nat.not_lt.2 hge')
    · by_cases hj' : j = i
      · have hold' := (hreach k hk (fun hc => hjk (hj'.trans hc.symm)) n).1 hn'
        exact absurd (Tree.reach_lt (hnode.tree k hk) hold') (Nat.not_lt.2 hge)
      · have hold := (hreach j hj hj' n).1 hn
        exact absurd (Tree.reach_lt (hnode.tree j hj) hold) (Nat.not_lt.2 hge)
  · obtain ⟨-, -, rfl | ⟨j, hj, hn⟩⟩ := hn
    · exact .inl ⟨rfl, hp, .inl rfl⟩
    · exact (hnew j hj n hn).imp_left fun hn => ⟨rfl, hp, .inr ⟨j, hj, hn⟩⟩
  · cases ref with
    | physMap => exact h.rest .physMap nofun trivial
    | slot n k =>
        obtain ⟨hlt, hnot⟩ := href
        exact hsame n k hlt (fun hn => hnot ⟨rfl, hp, .inr ⟨i, hi, hn⟩⟩)
          fun hc => hnot ⟨rfl, hp, .inl hc.1⟩
  · rw [hentry j hne]
    exact findLevels_congr (hother j hj hne) x

/-! ## One entry -/

/-- Where the pages of an entry, or those that are to be set, end. -/
def pageStop (d index nb : Nat) : Nat :=
  min (index + nb) ((index / levelStep d + 1) * levelStep d)

/-- The nodes that are allocated below a node, when the pages up to `blockEnd` are its own: one path
of nodes for each end of the run that does not fall on the end of an entry. -/
def loopBudget (d index nb blockEnd : Nat) : Nat :=
  if nb = 0 then 0
  else (if index % levelStep d = 0 then 0 else d) + (if blockEnd ≤ index + nb then 0 else d)

def budget : Nat → Nat → Nat → Nat
  | 0, _, _ => 0
  | d + 1, index, nb =>
    1 + loopBudget d index nb ((index / levelStep (d + 1) + 1) * levelStep (d + 1))

/-- What the loop spends on an entry. -/
def entryCost (d index nb : Nat) : Nat :=
  if index % levelStep d = 0 ∧ nb ≥ levelStep d then 0 else budget d index nb

/-- The pages to be set are free, and the allocator has room. -/
structure Can (una d : Nat) (ref : EntryRef) (m : PhysMap) (index nb cost : Nat) : Prop where
  tree : Tree una m d (m.entry ref)
  outside : Outside m d (m.entry ref) ref
  free : ∀ x, index ≤ x → x < pageStop d index nb → findLevels una m x d (m.entry ref) = una
  room : m.nodesNb + cost ≤ m.nodesNbAlloc
  room' : m.nodesNb + cost ≤ PHYS_MAP_NODE_NIL

/-- The pages of the entry are set. -/
structure SetAt (una leaf d : Nat) (ref : EntryRef) (m : PhysMap) (index nb cost : Nat)
    (m' : PhysMap) : Prop where
  becomes : Becomes una (some ref) m m' d (m.entry ref) (m'.entry ref)
  count : m'.nodesNb ≤ m.nodesNb + cost
  find : ∀ x, x / levelStep d = index / levelStep d →
    findLevels una m' x d (m'.entry ref) =
      if index ≤ x ∧ x < pageStop d index nb then leaf else findLevels una m x d (m.entry ref)

/-- The call for the entries of depth `d`. -/
def SetsBelow (una leaf d : Nat) (next : EntryRef → PageCursor → Option PageCursor) : Prop :=
  ∀ m ref index nb, 0 < nb → ¬ (index % levelStep d = 0 ∧ nb ≥ levelStep d) →
    Can una d ref m index nb (budget d index nb) →
    ∃ m', next ref ⟨m, index, nb⟩ =
        some ⟨m', pageStop d index nb, index + nb - pageStop d index nb⟩ ∧
      SetAt una leaf d ref m index nb (budget d index nb) m'

theorem pageStop_full {index nb : Nat} (h : index % levelStep d = 0) (hnb : nb ≥ levelStep d) :
    pageStop d index nb = index + levelStep d := by
  have hdiv := Nat.div_add_mod' index (levelStep d)
  rw [pageStop, Nat.succ_mul]
  omega

theorem store_entry (m : PhysMap) (e : PhysPageEntry) (ref : EntryRef) :
    (m.store e ref).entry ref = e := by
  cases ref with
  | physMap => rfl
  | slot n j => exact if_pos ⟨rfl, rfl⟩

theorem store_entry_ne {other : EntryRef} (m : PhysMap) (e : PhysPageEntry) (h : other ≠ ref) :
    (m.store e ref).entry other = m.entry other := by
  cases ref with
  | physMap =>
      cases other with
      | physMap => exact absurd rfl h
      | slot n j => rfl
  | slot n j =>
      cases other with
      | physMap => rfl
      | slot n' j' => exact if_neg fun hc => h (by rw [hc.1, hc.2])

theorem store_nodesNb (m : PhysMap) (e : PhysPageEntry) (ref : EntryRef) :
    (m.store e ref).nodesNb = m.nodesNb := by cases ref <;> rfl

theorem store_nodesNbAlloc (m : PhysMap) (e : PhysPageEntry) (ref : EntryRef) :
    (m.store e ref).nodesNbAlloc = m.nodesNbAlloc := by cases ref <;> rfl

theorem findLevels_leaf (s : Nat) : findLevels una m x d ⟨true, s⟩ = s := by
  cases d with
  | zero => rfl
  | succ d => exact if_pos rfl

/-- The whole of an entry. -/
theorem setAt_store {index nb : Nat} (hleaf : leaf ≠ una) (hindex : index % levelStep d = 0)
    (hnb : nb ≥ levelStep d) :
    SetAt una leaf d ref m index nb 0 (m.store ⟨true, leaf⟩ ref) := by
  refine ⟨⟨?_, ?_, ?_, ?_, ?_⟩, ?_, fun x hx => ?_⟩
  · rw [store_nodesNb]
  · rw [store_nodesNbAlloc]
  · rw [store_entry]
    cases d with
    | zero => rfl
    | succ d => exact ⟨fun _ => hleaf, nofun⟩
  · intro n hn
    rw [store_entry] at hn
    cases d with
    | zero => exact hn.elim
    | succ d => exact nomatch hn.1
  · exact fun other hother _ => store_entry_ne m _ fun hc => hother (congrArg some hc)
  · rw [store_nodesNb]
    omega
  · have hdiv := Nat.div_add_mod' index (levelStep d)
    have hdiv' := Nat.div_add_mod' x (levelStep d)
    have hlt := Nat.mod_lt x (levelStep_pos d)
    rw [hx] at hdiv'
    rw [store_entry, findLevels_leaf, pageStop_full hindex hnb, if_pos ⟨by omega, by omega⟩]

theorem levelStep_dvd_mod {index : Nat} (h : index % levelStep (d + 1) = 0) :
    index % levelStep d = 0 := by
  rw [levelStep_succ] at h
  exact Nat.mod_eq_zero_of_dvd (Nat.dvd_trans (Nat.dvd_mul_right _ _) (Nat.dvd_of_mod_eq_zero h))

theorem budget_le_of_reaches {index nb : Nat} (hnb : 0 < nb) (hd : 0 < d)
    (h : (index / levelStep d + 1) * levelStep d ≤ index + nb) : budget d index nb ≤ d := by
  obtain ⟨d, rfl⟩ := Nat.exists_eq_succ_of_ne_zero (Nat.ne_of_gt hd)
  rw [budget, loopBudget, if_neg (Nat.ne_of_gt hnb), if_pos h]
  split <;> omega

theorem budget_le {index nb : Nat} (hnb : 0 < nb) (hd : 0 < d) :
    budget d index nb ≤ (if index % levelStep d = 0 then 0 else d) + d := by
  obtain ⟨d, rfl⟩ := Nat.exists_eq_succ_of_ne_zero (Nat.ne_of_gt hd)
  rw [budget, loopBudget, if_neg (Nat.ne_of_gt hnb)]
  by_cases haligned : index % levelStep (d + 1) = 0
  · rw [if_pos haligned, if_pos (levelStep_dvd_mod haligned)]
    split <;> omega
  · rw [if_neg haligned]
    split <;> split <;> omega

theorem entryCost_add_loopBudget_le {index nb k blockEnd : Nat} (hnb : 0 < nb)
    (hend : blockEnd = (index / levelStep d + (k + 1)) * levelStep d) :
    entryCost d index nb + loopBudget d (pageStop d index nb)
      (index + nb - pageStop d index nb) blockEnd ≤ loopBudget d index nb blockEnd := by
  have hpos := levelStep_pos d
  have hdiv := Nat.div_add_mod' index (levelStep d)
  have hlt := Nat.mod_lt index hpos
  have hslot : (index / levelStep d + 1) * levelStep d =
      index / levelStep d * levelStep d + levelStep d := Nat.succ_mul _ _
  have hblock : (index / levelStep d + 1) * levelStep d ≤ blockEnd := by
    rw [hend]
    exact Nat.mul_le_mul_right _ (by omega)
  by_cases hreach : (index / levelStep d + 1) * levelStep d ≤ index + nb
  · -- the rest starts at the next entry
    have hstop : pageStop d index nb = (index / levelStep d + 1) * levelStep d :=
      Nat.min_eq_right hreach
    have hmod : pageStop d index nb % levelStep d = 0 := by
      rw [hstop, Nat.mul_mod_left]
    have hrest : loopBudget d (pageStop d index nb) (index + nb - pageStop d index nb) blockEnd ≤
        if blockEnd ≤ index + nb then 0 else d := by
      rw [loopBudget, if_pos hmod, Nat.add_sub_cancel' (hstop ▸ hreach)]
      split <;> omega
    have hentry : entryCost d index nb ≤ if index % levelStep d = 0 then 0 else d := by
      unfold entryCost
      by_cases haligned : index % levelStep d = 0
      · rw [if_pos haligned, if_pos ⟨haligned, by omega⟩]
      · have hd : 0 < d := by
          refine Nat.pos_of_ne_zero fun hzero => haligned ?_
          rw [hzero, levelStep_zero, Nat.mod_one]
        rw [if_neg haligned, if_neg fun hc => haligned hc.1]
        exact budget_le_of_reaches hnb hd hreach
    rw [loopBudget.eq_def d index nb blockEnd, if_neg (Nat.ne_of_gt hnb)]
    omega
  · -- nothing is left for the next entries
    have hstop : pageStop d index nb = index + nb := Nat.min_eq_left (by omega)
    have hentry : entryCost d index nb ≤ (if index % levelStep d = 0 then 0 else d) + d := by
      unfold entryCost
      split
      · omega
      · rename_i hpart
        refine budget_le hnb (Nat.pos_of_ne_zero fun hzero => hpart ?_)
        rw [hzero, levelStep_zero]
        exact ⟨Nat.mod_one _, hnb⟩
    have hnot : ¬ blockEnd ≤ index + nb := by omega
    rw [hstop, Nat.sub_self, loopBudget, if_pos rfl, loopBudget, if_neg (Nat.ne_of_gt hnb),
      if_neg hnot]
    exact hentry

/-- What the loop does with one entry. -/
theorem setEntry_spec {next : EntryRef → PageCursor → Option PageCursor} {index nb : Nat}
    (hnext : SetsBelow una leaf d next) (hleaf : leaf ≠ una) (hlt : leaf < 32768) (hnb : 0 < nb)
    (hcan : Can una d ref m index nb (entryCost d index nb)) :
    ∃ m', setEntry (levelStep d) leaf next ref ⟨m, index, nb⟩ =
        some ⟨m', pageStop d index nb, index + nb - pageStop d index nb⟩ ∧
      SetAt una leaf d ref m index nb (entryCost d index nb) m' := by
  by_cases hwhole : index % levelStep d = 0 ∧ nb ≥ levelStep d
  · have hset : SetAt una leaf d ref m index nb 0 (m.store ⟨true, leaf⟩ ref) :=
      setAt_store hleaf hwhole.1 hwhole.2
    refine ⟨m.store ⟨true, leaf⟩ ref, ?_, ?_⟩
    · rw [setEntry, if_pos hwhole, pageStop_full hwhole.1 hwhole.2, Nat.mod_eq_of_lt hlt,
        Nat.add_sub_add_left]
    · rwa [entryCost, if_pos hwhole]
  · rw [setEntry, if_neg hwhole]
    rw [entryCost, if_neg hwhole] at hcan ⊢
    exact hnext m ref index nb hnb hwhole hcan

/-! ## The loop -/

theorem div_eq_of_slot {s q x : Nat} (hge : q * s ≤ x) (hlt : x < q * s + s) : x / s = q :=
  Nat.div_eq_of_lt_le hge (by rwa [Nat.succ_mul])

/-- The pages of a node, after some of those of one entry are set. -/
theorem findLevels_setAt {index nb cost block : Nat} (hp : p ≠ PHYS_MAP_NODE_NIL) (hi : i < 1024)
    (htree : Tree una m (d + 1) ⟨false, p⟩) (hentry : index / levelStep d % 1024 = i)
    (hblock : index / levelStep d / 1024 = block)
    (hset : SetAt una leaf d (.slot p i) m index nb cost m') (x : Nat)
    (hx : x / levelStep d / 1024 = block) :
    findLevels una m' x (d + 1) ⟨false, p⟩ =
      if index ≤ x ∧ x < pageStop d index nb then leaf
      else findLevels una m x (d + 1) ⟨false, p⟩ := by
  rw [findLevels_node hp, findLevels_node hp]
  by_cases hsame : x / levelStep d = index / levelStep d
  · rw [hsame, hentry]
    exact hset.find x hsame
  · have hother : x / levelStep d % 1024 ≠ i := by omega
    have hout : ¬ (index ≤ x ∧ x < pageStop d index nb) := by
      rintro ⟨hge, hlt⟩
      refine hsame (div_eq_of_slot ?_ ?_)
      · exact Nat.le_trans (Nat.div_mul_le_self _ _) hge
      · rw [← Nat.succ_mul]
        exact Nat.lt_of_lt_of_le hlt (Nat.min_le_right _ _)
    rw [if_neg hout]
    exact (hset.becomes.entry hp hi htree).2 _ (Nat.mod_lt _ (by decide)) hother x

/-- The pages of a node are set, up to the end of the node. -/
structure NodeSet (una leaf d p block : Nat) (m : PhysMap) (index nb blockEnd : Nat)
    (m' : PhysMap) : Prop where
  becomes : Becomes una none m m' (d + 1) ⟨false, p⟩ ⟨false, p⟩
  count : m'.nodesNb ≤ m.nodesNb + loopBudget d index nb blockEnd
  find : ∀ x, x / levelStep d / 1024 = block → findLevels una m' x (d + 1) ⟨false, p⟩ =
    if index ≤ x ∧ x < min (index + nb) blockEnd then leaf
    else findLevels una m x (d + 1) ⟨false, p⟩

theorem NodeSet.refl {block index nb blockEnd : Nat} (h : Tree una m (d + 1) ⟨false, p⟩)
    (hnone : min (index + nb) blockEnd ≤ index) :
    NodeSet una leaf d p block m index nb blockEnd m :=
  ⟨.refl h, Nat.le_add_right .., fun x _ => (if_neg (by omega)).symm⟩

/-- The induction is on the entries that are left; `q` numbers the entries of the whole level. -/
theorem setEntries_spec {next : EntryRef → PageCursor → Option PageCursor}
    (hnext : SetsBelow una leaf d next) (hleaf : leaf ≠ una) (hlt : leaf < 32768)
    (hp : p ≠ PHYS_MAP_NODE_NIL) {blockEnd block : Nat} (k i : Nat) (hk : i + k = 1024)
    (m : PhysMap) (index nb q : Nat) (hend : blockEnd = (q + k) * levelStep d)
    (hq : k ≠ 0 → q % 1024 = i ∧ q / 1024 = block) (hle : index ≤ blockEnd)
    (hslot : nb = 0 ∨ q * levelStep d ≤ index ∧ index < q * levelStep d + levelStep d)
    (htree : Tree una m (d + 1) ⟨false, p⟩)
    (hfree : ∀ x, index ≤ x → x < min (index + nb) blockEnd →
      findLevels una m x (d + 1) ⟨false, p⟩ = una)
    (hroom : m.nodesNb + loopBudget d index nb blockEnd ≤ m.nodesNbAlloc)
    (hroom' : m.nodesNb + loopBudget d index nb blockEnd ≤ PHYS_MAP_NODE_NIL) :
    ∃ m', setEntries (levelStep d) leaf p next k i ⟨m, index, nb⟩ =
        some ⟨m', min (index + nb) blockEnd, index + nb - min (index + nb) blockEnd⟩ ∧
      NodeSet una leaf d p block m index nb blockEnd m' := by
  induction k generalizing i m index nb q with
  | zero =>
      have hstop : min (index + nb) blockEnd = index := by
        rw [Nat.add_zero] at hend
        omega
      refine ⟨m, ?_, .refl htree (Nat.le_of_eq hstop)⟩
      rw [hstop, Nat.add_sub_cancel_left]
      rfl
  | succ k ih =>
      by_cases hnb : nb = 0
      · subst hnb
        have hstop : min (index + 0) blockEnd = index := by omega
        refine ⟨m, ?_, .refl htree (Nat.le_of_eq hstop)⟩
        rw [hstop, Nat.add_sub_cancel_left]
        exact if_pos rfl
      · obtain ⟨hge, hslot⟩ := hslot.resolve_left hnb
        obtain ⟨hentry, hblock⟩ := hq (Nat.succ_ne_zero k)
        have hdiv : index / levelStep d = q := div_eq_of_slot hge hslot
        have hi : i < 1024 := by omega
        have hnode : Node m (Tree una m d) (Reach m d) p := htree.2 rfl hp
        have hcost := entryCost_add_loopBudget_le (Nat.pos_of_ne_zero hnb) (hdiv.symm ▸ hend)
        have hstop : pageStop d index nb = min (index + nb) ((q + 1) * levelStep d) := by
          rw [pageStop, hdiv]
        have hinside : (q + 1) * levelStep d ≤ blockEnd := by
          rw [hend]
          exact Nat.mul_le_mul_right _ (by omega)
        have hmul : (q + 1) * levelStep d = q * levelStep d + levelStep d := Nat.succ_mul _ _
        have hcan : Can una d (.slot p i) m index nb (entryCost d index nb) := by
          refine ⟨hnode.tree i hi, ⟨hnode.lt, hnode.self i hi⟩, fun x hx hx' => ?_, by omega,
            by omega⟩
          have hx₀ : x / levelStep d = q := div_eq_of_slot (by omega) (by omega)
          have hx₁ := hfree x hx (by omega)
          rwa [findLevels_node hp, hx₀, hentry] at hx₁
        obtain ⟨m₁, hrun, hset⟩ := setEntry_spec hnext hleaf hlt (Nat.pos_of_ne_zero hnb) hcan
        obtain ⟨hbecomes, -⟩ := hset.becomes.entry hp hi htree
        have hfind := findLevels_setAt hp hi htree (hdiv ▸ hentry) (hdiv ▸ hblock) hset
        have hcount := hset.count
        have halloc := hset.becomes.alloc
        have hwithin : ∀ x, index ≤ x → x < blockEnd → x / levelStep d / 1024 = block := by
          intro x hx hx'
          have hge : q ≤ x / levelStep d := hdiv ▸ Nat.div_le_div_right hx
          have hlt : x / levelStep d < q + (k + 1) :=
            (Nat.div_lt_iff_lt_mul (levelStep_pos d)).2 (hend ▸ hx')
          omega
        have htotal : pageStop d index nb + (index + nb - pageStop d index nb) = index + nb := by
          omega
        obtain ⟨m', hrest, hdone⟩ := ih (i + 1) (by omega) m₁ (pageStop d index nb)
          (index + nb - pageStop d index nb) (q + 1) (by rw [hend]; congr 1; omega)
          (fun hk => by omega) (by omega) (by omega) hbecomes.tree
          (fun x hx hx' => by
            have hx₀ := hwithin x (by omega) (by omega)
            rw [hfind x hx₀, if_neg (by omega)]
            exact hfree x (by omega) (by omega))
          (by omega) (by omega)
        rw [htotal] at hrest
        refine ⟨m', ?_, hbecomes.trans hdone.becomes, ?_, fun x hx => ?_⟩
        · rw [setEntries, if_neg hnb, hrun]
          exact hrest
        · have hlast := hdone.count
          omega
        · rw [hdone.find x hx, htotal, hfind x hx]
          by_cases hfirst : index ≤ x ∧ x < pageStop d index nb
          · rw [if_pos hfirst, ite_self, if_pos ⟨hfirst.1, by omega⟩]
          · rw [if_neg hfirst]
            refine if_congr ?_ rfl rfl
            omega

/-! ## The levels -/

theorem entry_fill {e : PhysPageEntry} (h : ∀ j, ref ≠ .slot p j) :
    (m.fill p e).entry ref = m.entry ref := by
  cases ref with
  | physMap => rfl
  | slot n j => exact if_neg fun hc => h j (by rw [hc.1])

theorem Outside.ne (h : Outside m d e ref) (j : Nat) : ref ≠ .slot m.nodesNb j := by
  rintro rfl
  exact Nat.lt_irrefl _ h.1

/-- A new node: below it there is nothing yet. -/
theorem becomes_fresh {fresh : PhysPageEntry} (hleaf : d = 0 → fresh = ⟨true, una⟩)
    (hnil : d ≠ 0 → fresh = ⟨false, PHYS_MAP_NODE_NIL⟩) (hp : m.nodesNb ≠ PHYS_MAP_NODE_NIL)
    (hnb : m'.nodesNb = m.nodesNb + 1) (halloc : m'.nodesNbAlloc = m.nodesNbAlloc)
    (hnodes : ∀ j < 1024, m'.nodes m.nodesNb j = fresh)
    (hrest : ∀ other, some other ≠ place → Outside m (d + 1) e other →
      m'.entry other = m.entry other) :
    Becomes una place m m' (d + 1) e ⟨false, m.nodesNb⟩ ∧
      ∀ x, findLevels una m' x (d + 1) ⟨false, m.nodesNb⟩ = una := by
  have hreach : ∀ n, ¬ Reach m' d fresh n := fun n hn => by
    cases d with
    | zero => exact hn
    | succ d => exact hn.2.1 (congrArg PhysPageEntry.ptr (hnil (Nat.succ_ne_zero d)))
  have htree : Tree una m' d fresh := by
    cases d with
    | zero => exact congrArg PhysPageEntry.isLeaf (hleaf rfl)
    | succ d =>
        rw [hnil (Nat.succ_ne_zero d)]
        exact ⟨nofun, fun _ hne => absurd rfl hne⟩
  refine ⟨⟨by omega, halloc, ⟨nofun, fun _ _ => ⟨?_, fun j hj => ?_, fun j hj => ?_,
    fun j hj k hk _ n => ?_⟩⟩, fun n hn => ?_, hrest⟩, fun x => ?_⟩
  · dsimp only
    omega
  · rw [hnodes j hj]
    exact htree
  · rw [hnodes j hj]
    exact hreach _
  · rw [hnodes j hj]
    exact fun hn => absurd hn (hreach n)
  · obtain ⟨-, -, rfl | ⟨j, hj, hn⟩⟩ := hn
    · exact .inr (Nat.le_refl _)
    · rw [hnodes j hj] at hn
      exact absurd hn (hreach n)
  · rw [findLevels_node hp, hnodes _ (Nat.mod_lt _ (by decide))]
    cases d with
    | zero => rw [hleaf rfl, findLevels_leaf]
    | succ d => rw [hnil (Nat.succ_ne_zero d), findLevels, if_neg Bool.false_ne_true, if_pos rfl]

/-- The map with one more node, which is empty. -/
def PhysMap.withNode (m : PhysMap) : PhysMap :=
  { m with nodesNb := m.nodesNb + 1 }.fill m.nodesNb ⟨false, PHYS_MAP_NODE_NIL⟩

theorem nodeAlloc_eq (h : m.nodesNb < PHYS_MAP_NODE_NIL) (halloc : m.nodesNb < m.nodesNbAlloc) :
    m.nodeAlloc = some (m.nodesNb, m.withNode) := by
  have hlt : m.nodesNb < 32767 := h
  have hmod : m.nodesNb % 65536 = m.nodesNb := Nat.mod_eq_of_lt (by omega)
  simp only [PhysMap.nodeAlloc, hmod]
  exact if_pos ⟨Nat.ne_of_lt h, Nat.ne_of_lt halloc⟩

/-- The entry has a node, and shows what it did. -/
theorem enterLevel_spec {index nb cost : Nat} (hcan : Can una (d + 1) ref m index nb cost)
    (hcost : 0 < cost) (huna : una < 32768) (hleaf : (m.entry ref).isLeaf = false) :
    ∃ m₁ p, enterLevel una d ref m = some m₁ ∧ m₁.entry ref = ⟨false, p⟩ ∧
      p ≠ PHYS_MAP_NODE_NIL ∧ m₁.nodesNb ≤ m.nodesNb + 1 ∧
      Becomes una (some ref) m m₁ (d + 1) (m.entry ref) ⟨false, p⟩ ∧
      ∀ x, findLevels una m₁ x (d + 1) ⟨false, p⟩ =
        findLevels una m x (d + 1) (m.entry ref) := by
  have hentry : m.entry ref = ⟨false, (m.entry ref).ptr⟩ := by
    rw [← hleaf]
  by_cases hnil : (m.entry ref).ptr = PHYS_MAP_NODE_NIL
  · have hroom := hcan.room
    have hroom' := hcan.room'
    have hlt : m.nodesNb < PHYS_MAP_NODE_NIL := by omega
    have hmod : m.nodesNb % 32768 = m.nodesNb :=
      Nat.mod_eq_of_lt (Nat.lt_trans hlt (by decide))
    have hne := hcan.outside.ne
    have hwas : ∀ x, findLevels una m x (d + 1) (m.entry ref) = una := fun x => by
      rw [hentry, hnil, findLevels, if_neg Bool.false_ne_true, if_pos rfl]
    have hrun : enterLevel una d ref m = some (if d = 0 then
        (m.withNode.store ⟨false, m.nodesNb⟩ ref).fill m.nodesNb ⟨true, una⟩
        else m.withNode.store ⟨false, m.nodesNb⟩ ref) := by
      simp only [enterLevel, hleaf, hnil, and_self, if_true, nodeAlloc_eq hlt (by omega),
        Option.bind_eq_bind, Option.bind_some, hmod, Nat.mod_eq_of_lt huna]
    -- what was stored before `ref` is what it was
    have hstored : ∀ other, some other ≠ some ref → Outside m (d + 1) (m.entry ref) other →
        (m.withNode.store ⟨false, m.nodesNb⟩ ref).entry other = m.entry other := fun other hother hout => by
      rw [store_entry_ne _ _ fun hc => hother (congrArg some hc), PhysMap.withNode,
        entry_fill hout.ne]
      cases other <;> rfl
    cases d with
    | zero =>
        rw [if_pos rfl] at hrun
        refine ⟨_, m.nodesNb, hrun, ?_, Nat.ne_of_lt hlt, ?_, ?_⟩
        · rw [entry_fill hne, store_entry]
        · exact Nat.le_of_eq (store_nodesNb ..)
        · simp only [hwas]
          refine becomes_fresh (fun _ => rfl) (fun hc => absurd rfl hc) (Nat.ne_of_lt hlt)
            (store_nodesNb ..) (store_nodesNbAlloc ..) (fun j hj => if_pos ⟨rfl, hj⟩)
            fun other hother hout => ?_
          · rw [entry_fill hout.ne]
            exact hstored other hother hout
    | succ d =>
        rw [if_neg (Nat.succ_ne_zero d)] at hrun
        refine ⟨_, m.nodesNb, hrun, store_entry .., Nat.ne_of_lt hlt, ?_, ?_⟩
        · exact Nat.le_of_eq (store_nodesNb ..)
        · simp only [hwas]
          refine becomes_fresh (fun hc => nomatch hc) (fun _ => rfl) (Nat.ne_of_lt hlt)
            (store_nodesNb ..) (store_nodesNbAlloc ..) (fun j hj => ?_) hstored
          exact (store_entry_ne m.withNode _ (hne j).symm).trans (if_pos ⟨rfl, hj⟩)
  · refine ⟨m, (m.entry ref).ptr, ?_, hentry, hnil, Nat.le_succ _, ?_, fun x => ?_⟩
    · exact if_neg fun hc => hnil hc.2
    · rw [← hentry]
      exact ⟨Nat.le_refl _, rfl, hcan.tree, fun _ => .inl, fun _ _ _ => rfl⟩
    · rw [← hentry]

theorem setLevelWith_spec {next : EntryRef → PageCursor → Option PageCursor} {index nb : Nat}
    (hnext : SetsBelow una leaf d next) (huna : una < 32768) (hleaf : leaf ≠ una)
    (hlt : leaf < 32768) (hnb : 0 < nb)
    (hcan : Can una (d + 1) ref m index nb (budget (d + 1) index nb)) :
    ∃ m', setLevelWith una leaf d next ref ⟨m, index, nb⟩ =
        some ⟨m', pageStop (d + 1) index nb, index + nb - pageStop (d + 1) index nb⟩ ∧
      SetAt una leaf (d + 1) ref m index nb (budget (d + 1) index nb) m' := by
  have hstep := levelStep_succ d
  have hpos := levelStep_pos d
  have hblock : index / levelStep (d + 1) = index / levelStep d / 1024 := by
    rw [hstep, Nat.div_div_eq_div_mul]
  have hend : (index / levelStep (d + 1) + 1) * levelStep (d + 1) =
      (index / levelStep d + (1024 - index / levelStep d % 1024)) * levelStep d := by
    have hslots : index / levelStep d + (1024 - index / levelStep d % 1024) =
        (index / levelStep d / 1024 + 1) * 1024 := by omega
    rw [hslots, hblock, hstep, Nat.mul_assoc, Nat.mul_comm 1024]
  have hlarge : index < (index / levelStep (d + 1) + 1) * levelStep (d + 1) := by
    have hdiv' := Nat.div_add_mod' index (levelStep (d + 1))
    have hmod' := Nat.mod_lt index (levelStep_pos (d + 1))
    rw [Nat.succ_mul]
    omega
  have hnotleaf : (m.entry ref).isLeaf = false := by
    refine Bool.eq_false_iff.2 fun htrue => ?_
    have hfree := hcan.free index (Nat.le_refl _) (by unfold pageStop; omega)
    rw [findLevels, if_pos htrue] at hfree
    exact hcan.tree.1 htrue hfree
  have hcost : budget (d + 1) index nb = 1 + loopBudget d index nb
    ((index / levelStep (d + 1) + 1) * levelStep (d + 1)) := rfl
  have hspends : 0 < budget (d + 1) index nb := hcost ▸ Nat.lt_of_lt_of_le Nat.one_pos
    (Nat.le_add_right ..)
  obtain ⟨m₁, p, hrun, hentry, hp, hnew, hbecomes, hfind⟩ :=
    enterLevel_spec hcan hspends huna hnotleaf
  have hroom := hcan.room
  have hroom' := hcan.room'
  have halloc := hbecomes.alloc
  obtain ⟨m', hloop, hset⟩ := @setEntries_spec una leaf d p next hnext hleaf hlt hp
    ((index / levelStep (d + 1) + 1) * levelStep (d + 1)) (index / levelStep (d + 1))
    (1024 - index / levelStep d % 1024) (index / levelStep d % 1024)
    (Nat.add_sub_cancel' (Nat.le_of_lt (Nat.mod_lt _ (by decide)))) m₁ index nb
    (index / levelStep d) hend (fun _ => ⟨rfl, hblock.symm⟩) (Nat.le_of_lt hlarge)
    (.inr ⟨Nat.div_mul_le_self .., Nat.lt_div_mul_add hpos⟩) hbecomes.tree
    (fun x hx hx' => (hfind x).trans (hcan.free x hx hx')) (by omega) (by omega)
  have hentry' : m'.entry ref = ⟨false, p⟩ := by
    rw [hset.becomes.rest ref nofun (hbecomes.outside hcan.outside), hentry]
  refine ⟨m', ?_, ⟨?_, ?_, fun x hx => ?_⟩⟩
  · simp only [setLevelWith, hrun, hentry, Option.bind_eq_bind, Option.bind_some]
    exact hloop
  · rw [hentry']
    exact hbecomes.trans hset.becomes
  · have hcount := hset.count
    omega
  · rw [hentry', hset.find x (by rw [Nat.div_div_eq_div_mul, ← hstep, hx]), hfind]
    rfl

theorem setsBelow_physPageSetLevel (huna : una < 32768) (hleaf : leaf ≠ una) (hlt : leaf < 32768)
    (level : Nat) : SetsBelow una leaf (level + 1) (physPageSetLevel una leaf level) := by
  induction level with
  | zero =>
      intro m ref index nb hnb _ hcan
      refine setLevelWith_spec ?_ huna hleaf hlt hnb hcan
      intro _ _ _ _ hnb' hpart _
      exact absurd ⟨Nat.mod_one _, hnb'⟩ hpart
  | succ level ih =>
      intro m ref index nb hnb _ hcan
      exact setLevelWith_spec ih huna hleaf hlt hnb hcan

/-! ## The whole map -/

/-- The nodes of the map form a tree. -/
def PhysMap.Valid (una : Nat) (m : PhysMap) : Prop := Tree una m P_L2_LEVELS m.root

theorem reset_valid (m : PhysMap) : m.reset.Valid una := ⟨nofun, fun _ hne => absurd rfl hne⟩

theorem physPageFind_reset (m : PhysMap) (x : Nat) : physPageFind una m.reset x = una := by
  rw [physPageFind, P_L2_LEVELS, findLevels, PhysMap.reset, if_neg Bool.false_ne_true, if_pos rfl]

theorem nodeReserve_nodesNb (m : PhysMap) (n : Nat) :
    (m.nodeReserve n).nodesNb = m.nodesNb := by
  unfold PhysMap.nodeReserve
  split <;> rfl

theorem le_nodeReserve (m : PhysMap) (n : Nat) :
    m.nodesNb + n ≤ (m.nodeReserve n).nodesNbAlloc := by
  unfold PhysMap.nodeReserve
  split
  · exact Nat.le_max_right ..
  · omega

theorem nodeReserve_root (m : PhysMap) (n : Nat) : (m.nodeReserve n).root = m.root := by
  unfold PhysMap.nodeReserve
  split <;> rfl

theorem nodeReserve_nodes (m : PhysMap) (n : Nat) : (m.nodeReserve n).nodes = m.nodes := by
  unfold PhysMap.nodeReserve
  split <;> rfl

theorem physPageFind_nodeReserve (m : PhysMap) (n x : Nat) :
    physPageFind una (m.nodeReserve n) x = physPageFind una m x := by
  rw [physPageFind, physPageFind, nodeReserve_root]
  exact findLevels_congr (fun k _ j => by rw [nodeReserve_nodes]) x

theorem budget_le_levels (index nb : Nat) : budget P_L2_LEVELS index nb ≤ 7 := by
  simp only [P_L2_LEVELS, budget, loopBudget]
  split
  · omega
  · split <;> split <;> omega

/-- Setting a run of free pages maps them to the section, and leaves every other page as it was; no
assertion of the allocator fails. -/
theorem physPageSet_spec {index nb : Nat} (hvalid : m.Valid una) (huna : una < 32768)
    (hleaf : leaf ≠ una) (hlt : leaf < 32768) (hnb : 0 < nb) (hend : index + nb ≤ 2 ^ 40)
    (hfree : ∀ x, index ≤ x → x < index + nb → physPageFind una m x = una)
    (hroom : m.nodesNb + 7 ≤ PHYS_MAP_NODE_NIL) :
    ∃ m', physPageSet una m index nb leaf = some m' ∧ m'.Valid una ∧
      m'.nodesNb ≤ m.nodesNb + 7 ∧
      ∀ x < 2 ^ 40, physPageFind una m' x =
        if index ≤ x ∧ x < index + nb then leaf else physPageFind una m x := by
  have hsize : levelStep P_L2_LEVELS = 2 ^ 40 := rfl
  have hblock : ∀ x < 2 ^ 40, x / levelStep P_L2_LEVELS = 0 := fun x hx =>
    Nat.div_eq_of_lt (hsize ▸ hx)
  have hstop : pageStop P_L2_LEVELS index nb = index + nb := by
    rw [pageStop, hblock index (by omega), hsize]
    omega
  have hbudget := budget_le_levels index nb
  have hreserve := le_nodeReserve m (3 * P_L2_LEVELS)
  have hcount := nodeReserve_nodesNb m (3 * P_L2_LEVELS)
  have hlevels : 3 * P_L2_LEVELS = 12 := rfl
  have hcan : Can una P_L2_LEVELS .physMap (m.nodeReserve (3 * P_L2_LEVELS)) index nb
      (budget P_L2_LEVELS index nb) := by
    refine ⟨?_, trivial, fun x hx hx' => ?_, by omega, by omega⟩
    · refine Tree.congr (fun n _ j => by rw [nodeReserve_nodes]) (Nat.le_of_eq hcount.symm) ?_
      rw [PhysMap.entry, nodeReserve_root]
      exact hvalid
    · rw [hstop] at hx'
      exact (physPageFind_nodeReserve m _ x).trans (hfree x hx hx')
  -- the whole of the map is never set at once
  obtain ⟨m', hrun, hset⟩ : ∃ m', physPageSetLevel una leaf (P_L2_LEVELS - 1) .physMap
        ⟨m.nodeReserve (3 * P_L2_LEVELS), index, nb⟩ = some ⟨m', pageStop P_L2_LEVELS index nb,
          index + nb - pageStop P_L2_LEVELS index nb⟩ ∧
      SetAt una leaf P_L2_LEVELS .physMap (m.nodeReserve (3 * P_L2_LEVELS)) index nb
        (budget P_L2_LEVELS index nb) m' :=
    setLevelWith_spec (setsBelow_physPageSetLevel huna hleaf hlt 2) huna hleaf hlt hnb hcan
  refine ⟨m', ?_, hset.becomes.tree, ?_, fun x hx => ?_⟩
  · rw [physPageSet, hrun]
    rfl
  · have htotal := hset.count
    omega
  · have hfind := hset.find x (by rw [hblock x hx, hblock index (by omega)])
    rw [hstop] at hfind
    refine hfind.trans (if_congr Iff.rfl rfl ?_)
    exact physPageFind_nodeReserve m _ x

/-! ## Many runs of pages -/

structure PageRun where
  index : Nat
  nb : Nat
  leaf : Nat
deriving DecidableEq

def PageRun.Holds (r : PageRun) (x : Nat) : Prop := r.index ≤ x ∧ x < r.index + r.nb

instance PageRun.decidableHolds (r : PageRun) (x : Nat) : Decidable (r.Holds x) :=
  inferInstanceAs (Decidable (_ ∧ _))

def PageRun.Apart (r s : PageRun) : Prop := r.index + r.nb ≤ s.index ∨ s.index + s.nb ≤ r.index

instance PageRun.decidableApart (r s : PageRun) : Decidable (r.Apart s) :=
  inferInstanceAs (Decidable (_ ∨ _))

/-- What `phys_page_set` may be called with. -/
structure PageRun.Proper (una : Nat) (r : PageRun) : Prop where
  nb : 0 < r.nb
  stop : r.index + r.nb ≤ 2 ^ 40
  leaf_ne : r.leaf ≠ una
  leaf_lt : r.leaf < 32768

/-- The section of the run that holds the page. -/
def pageOf (una : Nat) (runs : List PageRun) (x : Nat) : Nat :=
  ((runs.find? fun r => r.Holds x).map (·.leaf)).getD una

def setRuns (una : Nat) (m : PhysMap) (runs : List PageRun) : Option PhysMap :=
  runs.foldlM (fun m r => physPageSet una m r.index r.nb r.leaf) m

theorem pageOf_cons (r : PageRun) (runs : List PageRun) (x : Nat) :
    pageOf una (r :: runs) x = if r.Holds x then r.leaf else pageOf una runs x := by
  unfold pageOf
  rw [List.find?_cons]
  by_cases h : r.Holds x
  · rw [if_pos h, decide_eq_true h]
    rfl
  · rw [if_neg h, decide_eq_false h]

theorem pageOf_of_not_holds {runs : List PageRun} {x : Nat} (h : ∀ r ∈ runs, ¬ r.Holds x) :
    pageOf una runs x = una := by
  have hnone : runs.find? (fun r => r.Holds x) = none :=
    List.find?_eq_none.2 fun r hr => by simpa using h r hr
  rw [pageOf, hnone]
  rfl

/-- Runs that are free are set one after the other; the pages of the others stay. -/
theorem setRuns_spec {runs : List PageRun} (huna : una < 32768) (hvalid : m.Valid una)
    (hproper : ∀ r ∈ runs, r.Proper una) (hapart : runs.Pairwise PageRun.Apart)
    (hfree : ∀ r ∈ runs, ∀ x, r.Holds x → physPageFind una m x = una)
    (hroom : m.nodesNb + 7 * runs.length ≤ PHYS_MAP_NODE_NIL) :
    ∃ m', setRuns una m runs = some m' ∧ ∀ x < 2 ^ 40, physPageFind una m' x =
      if ∃ r ∈ runs, r.Holds x then pageOf una runs x else physPageFind una m x := by
  induction runs generalizing m with
  | nil => exact ⟨m, rfl, fun x _ => by rw [if_neg (by simp)]⟩
  | cons r runs ih =>
      have hr := hproper r List.mem_cons_self
      have hlen : (r :: runs).length = runs.length + 1 := List.length_cons
      have hbelow := List.pairwise_cons.1 hapart
      obtain ⟨m₁, hset, hvalid₁, hcount, hfind⟩ := physPageSet_spec hvalid huna hr.leaf_ne
        hr.leaf_lt hr.nb hr.stop (fun x hge hlt => hfree r List.mem_cons_self x ⟨hge, hlt⟩)
        (by omega)
      have hfree₁ : ∀ s ∈ runs, ∀ x, s.Holds x → physPageFind una m₁ x = una := by
        intro s hs x hx
        have hstop := (hproper s (List.mem_cons_of_mem _ hs)).stop
        have haway := hbelow.1 s hs
        unfold PageRun.Apart at haway
        unfold PageRun.Holds at hx
        rw [hfind x (by omega), if_neg (by omega)]
        exact hfree s (List.mem_cons_of_mem _ hs) x hx
      have hfind' : ∀ x < 2 ^ 40, physPageFind una m₁ x =
        if r.Holds x then r.leaf else physPageFind una m x := hfind
      obtain ⟨m', hrun, hall⟩ := ih hvalid₁ (fun s hs => hproper s (List.mem_cons_of_mem _ hs))
        hbelow.2 hfree₁ (by omega)
      refine ⟨m', ?_, fun x hx => ?_⟩
      · rw [setRuns, List.foldlM_cons, hset]
        exact hrun
      · rw [hall x hx, hfind' x hx, pageOf_cons]
        by_cases hmine : r.Holds x
        · have hout : ∀ s ∈ runs, ¬ s.Holds x := by
            intro s hs hsx
            have haway := hbelow.1 s hs
            unfold PageRun.Apart at haway
            unfold PageRun.Holds at hsx hmine
            omega
          have hsome : ∃ s ∈ r :: runs, s.Holds x := ⟨r, List.mem_cons_self, hmine⟩
          rw [if_neg fun ⟨s, hs, hsx⟩ => hout s hs hsx]
          simp only [if_pos hmine, if_pos hsome]
        · rw [if_neg hmine, if_neg hmine]
          simp only [List.mem_cons, exists_eq_or_imp, hmine, false_or]

/-- After a reset, every page is found in the section of the run that it was set with, whatever the
order, the places and the lengths of the runs are. -/
theorem physPageFind_setRuns (una : Nat) (m : PhysMap) (runs : List PageRun) (huna : una < 32768)
    (hproper : ∀ r ∈ runs, r.Proper una) (hapart : runs.Pairwise PageRun.Apart)
    (hroom : 7 * runs.length ≤ PHYS_MAP_NODE_NIL) :
    ∃ m', setRuns una m.reset runs = some m' ∧
      ∀ x < 2 ^ 40, physPageFind una m' x = pageOf una runs x := by
  have hcount : m.reset.nodesNb = 0 := rfl
  obtain ⟨m', hrun, hfind⟩ := setRuns_spec huna (reset_valid m) hproper hapart
    (fun r _ x _ => physPageFind_reset m x) (by omega)
  refine ⟨m', hrun, fun x hx => ?_⟩
  rw [hfind x hx]
  split
  · rfl
  · next hnone =>
      rw [physPageFind_reset, pageOf_of_not_holds]
      exact fun r hr hx => hnone ⟨r, hr, hx⟩

/-- A page, and a run that crosses nodes of every level. -/
def lowRuns : List PageRun := [⟨1048575, 1048578, 4⟩, ⟨0, 1, 5⟩]

theorem lowRuns_proper : ∀ r ∈ lowRuns, r.Proper 0 := by
  intro r hr
  simp only [lowRuns, List.mem_cons, List.not_mem_nil, or_false] at hr
  rcases hr with rfl | rfl
  · exact ⟨by decide, by decide, by decide, by decide⟩
  · exact ⟨by decide, by decide, by decide, by decide⟩

theorem physPageFind_setRuns_lowRuns :
    ∃ m', setRuns 0 (PhysMap.reset ⟨⟨true, 9⟩, fun _ _ => ⟨true, 0⟩, 3, 16⟩) lowRuns = some m' ∧
      ∀ x < 2 ^ 40, physPageFind 0 m' x = pageOf 0 lowRuns x :=
  physPageFind_setRuns 0 ⟨⟨true, 9⟩, fun _ _ => ⟨true, 0⟩, 3, 16⟩ lowRuns (by decide)
    lowRuns_proper (by decide) (by decide)

end Vin64.Vx64
