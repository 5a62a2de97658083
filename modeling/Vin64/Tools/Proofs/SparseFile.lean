import Mathlib.Data.List.TakeWhile
import Vin64.Tools.SparseFile

/-!
# The blocks of a sparse file are the flat file
-/

namespace Vin64.Tools

open Vin64.Lib

theorem getElem?_resize {data : List UInt8} {n : Nat} (h : data.length ≤ n) (i : Nat) :
    (resize data n)[i]? =
      if i < data.length then data[i]? else if i < n then some 0 else none := by
  unfold resize
  rw [List.take_of_length_le h, List.getElem?_append]
  split
  · rfl
  · rw [List.getElem?_replicate]
    exact if_congr (by omega) rfl rfl

theorem length_resize (data : List UInt8) (n : Nat) : (resize data n).length = n := by
  unfold resize
  simp only [List.length_append, List.length_take, List.length_replicate]
  omega

theorem getElem?_memcpyAt {data src : List UInt8} {off : Nat} (h : off + src.length ≤ data.length)
    (i : Nat) : (memcpyAt data off src)[i]? =
      if off ≤ i ∧ i < off + src.length then src[i - off]? else data[i]? := by
  unfold memcpyAt
  have htake : (data.take off).length = off := by
    rw [List.length_take]
    omega
  rw [List.append_assoc, List.getElem?_append, htake]
  by_cases hbelow : i < off
  · rw [if_pos hbelow, if_neg (by omega), List.getElem?_take_of_lt hbelow]
  · rw [if_neg hbelow, List.getElem?_append]
    by_cases hin : i - off < src.length
    · rw [if_pos hin, if_pos (by omega)]
    · rw [if_neg hin, if_neg (by omega), List.getElem?_drop]
      congr 1
      omega

theorem length_memcpyAt {data src : List UInt8} {off : Nat} (h : off + src.length ≤ data.length) :
    (memcpyAt data off src).length = data.length := by
  unfold memcpyAt
  simp only [List.length_append, List.length_take, List.length_drop]
  omega

namespace SparseFileWritter

section Overwrite

variable {previous : Block} {pos : Nat}

/-- The data of `previous` where the new data fits. -/
theorem overwrite_data (previous : Block) (pos : Nat) (data : List UInt8) :
    ∃ grown, (overwrite previous pos data).Data =
        memcpyAt grown (pos - previous.Offset) data ∧
      grown.length = max previous.Data.length (pos - previous.Offset + data.length) ∧
      ∀ i, i < previous.Data.length → grown[i]? = previous.Data[i]? := by
  by_cases hgrow : previous.Data.length < pos - previous.Offset + data.length
  · refine ⟨resize previous.Data (pos - previous.Offset + data.length), ?_, ?_, fun i hi => ?_⟩
    · show memcpyAt (if _ then _ else _) _ _ = _
      rw [if_pos hgrow]
    · rw [length_resize]
      omega
    · rw [getElem?_resize (by omega), if_pos hi]
  · refine ⟨previous.Data, ?_, by omega, fun i _ => rfl⟩
    show memcpyAt (if _ then _ else _) _ _ = _
    rw [if_neg hgrow]

theorem overwrite_stop (hlo : previous.Offset ≤ pos) (data : List UInt8) :
    (overwrite previous pos data).stop = max previous.stop (pos + data.length) := by
  obtain ⟨grown, hdata, hlen, -⟩ := overwrite_data previous pos data
  show previous.Offset + (overwrite previous pos data).Data.length = _
  rw [hdata, length_memcpyAt (by omega), hlen, Block.stop]
  omega

theorem overwrite_byteAt (hlo : previous.Offset ≤ pos) (hhi : pos ≤ previous.stop)
    (data : List UInt8) (k : Nat) :
    (overwrite previous pos data).byteAt k =
      if pos ≤ k ∧ k < pos + data.length then data[k - pos]? else previous.byteAt k := by
  obtain ⟨grown, hdata, hlen, hsame⟩ := overwrite_data previous pos data
  have hstop : previous.stop = previous.Offset + previous.Data.length := rfl
  unfold Block.byteAt
  show (if previous.Offset ≤ k then (overwrite previous pos data).Data[k - previous.Offset]?
    else none) = _
  rw [hdata, getElem?_memcpyAt (by omega)]
  by_cases hin : pos ≤ k ∧ k < pos + data.length
  · rw [if_pos (by omega), if_pos (by omega), if_pos hin]
    congr 1
    omega
  · rw [if_neg hin]
    by_cases hk : previous.Offset ≤ k
    · rw [if_pos hk, if_pos hk, if_neg (by omega)]
      by_cases hold : k - previous.Offset < previous.Data.length
      · exact hsame _ hold
      · rw [List.getElem?_eq_none (by omega), List.getElem?_eq_none (by omega)]
    · rw [if_neg hk, if_neg hk]

end Overwrite

section Append

variable {previous next : Block}

/-- Appending a block that starts inside `previous` and ends after it. -/
theorem appendNext_data (hlo : previous.Offset ≤ next.Offset) (hmid : next.Offset ≤ previous.stop)
    (hhi : previous.stop < next.stop) (hfits : next.stop < 2 ^ 32) :
    (appendNext previous next).Data =
      previous.Data ++ next.Data.drop (previous.stop - next.Offset) := by
  have hp : previous.stop = previous.Offset + previous.Data.length := rfl
  have hn : next.stop = next.Offset + next.Data.length := rfl
  have hoff : (previous.stop - next.Offset) % 2 ^ 32 = previous.stop - next.Offset :=
    Nat.mod_eq_of_lt (by omega)
  have hold : previous.Data.length % 2 ^ 32 = previous.Data.length :=
    Nat.mod_eq_of_lt (by omega)
  have htake : (next.Data.drop (previous.stop - next.Offset)).take
      (next.Data.length - (previous.stop - next.Offset)) =
      next.Data.drop (previous.stop - next.Offset) :=
    List.take_of_length_le (by rw [List.length_drop])
  have hlen := length_resize previous.Data (next.stop - previous.Offset)
  have hfront : (resize previous.Data (next.stop - previous.Offset)).take previous.Data.length =
      previous.Data := by
    have hkeep : previous.Data.take (next.stop - previous.Offset) = previous.Data :=
      List.take_of_length_le (by omega)
    rw [resize, hkeep]
    exact List.take_left' rfl
  have hback : (resize previous.Data (next.stop - previous.Offset)).drop (previous.Data.length +
      (next.Data.drop (previous.stop - next.Offset)).length) = [] := by
    refine List.drop_eq_nil_of_le ?_
    rw [hlen, List.length_drop]
    omega
  show memcpyAt (resize _ _) (previous.Data.length % 2 ^ 32) (List.take _ (List.drop _ _)) = _
  rw [hoff, hold, htake, memcpyAt, hfront, hback, List.append_nil]

theorem appendNext_stop (hlo : previous.Offset ≤ next.Offset) (hmid : next.Offset ≤ previous.stop)
    (hhi : previous.stop < next.stop) (hfits : next.stop < 2 ^ 32) :
    (appendNext previous next).stop = next.stop := by
  have hp : previous.stop = previous.Offset + previous.Data.length := rfl
  have hn : next.stop = next.Offset + next.Data.length := rfl
  show previous.Offset + (appendNext previous next).Data.length = _
  rw [appendNext_data hlo hmid hhi hfits, List.length_append, List.length_drop]
  omega

theorem appendNext_byteAt (hlo : previous.Offset ≤ next.Offset) (hmid : next.Offset ≤ previous.stop)
    (hhi : previous.stop < next.stop) (hfits : next.stop < 2 ^ 32) (k : Nat) :
    (appendNext previous next).byteAt k = (previous.byteAt k).or (next.byteAt k) := by
  have hp : previous.stop = previous.Offset + previous.Data.length := rfl
  have hn : next.stop = next.Offset + next.Data.length := rfl
  unfold Block.byteAt
  show (if previous.Offset ≤ k then (appendNext previous next).Data[k - previous.Offset]? else none) = _
  rw [appendNext_data hlo hmid hhi hfits, List.getElem?_append]
  by_cases hk : previous.Offset ≤ k
  · rw [if_pos hk, if_pos hk]
    by_cases hin : k - previous.Offset < previous.Data.length
    · rw [if_pos hin, List.getElem?_eq_getElem hin, Option.some_or]
    · have hnone : previous.Data[k - previous.Offset]? = none :=
        List.getElem?_eq_none (by omega)
      rw [if_neg hin, hnone, Option.none_or, if_pos (by omega), List.getElem?_drop]
      congr 1
      omega
  · rw [if_neg hk, if_neg hk, if_neg (by omega), Option.none_or]

end Append

/-! ## Lists of blocks -/

theorem byteAt_eq_none {b : Block} {k : Nat} (h : k < b.Offset ∨ b.stop ≤ k) :
    b.byteAt k = none := by
  have hb : b.stop = b.Offset + b.Data.length := rfl
  unfold Block.byteAt
  split
  · exact List.getElem?_eq_none (by omega)
  · rfl

theorem content_cons (b : Block) (bs : List Block) (k : Nat) :
    content (b :: bs) k = (b.byteAt k).or (content bs k) := by
  unfold content
  rw [List.findSome?_cons]
  cases b.byteAt k <;> rfl

theorem content_append (bs cs : List Block) (k : Nat) :
    content (bs ++ cs) k = (content bs k).or (content cs k) := List.findSome?_append

theorem content_eq_none {bs : List Block} {k : Nat} (h : ∀ b ∈ bs, b.stop ≤ k) :
    content bs k = none :=
  List.findSome?_eq_none_iff.2 fun b hb => byteAt_eq_none (.inr (h b hb))

theorem separated_cons {b : Block} {bs : List Block} :
    Separated (b :: bs) ↔ (∀ c ∈ bs, b.stop < c.Offset) ∧ Separated bs := List.pairwise_cons

theorem offset_le_stop (b : Block) : b.Offset ≤ b.stop := Nat.le_add_right ..

/-- Blocks that do not touch are left as they are. -/
theorem mergeBlocks_of_separated {b : Block} {bs : List Block} (h : Separated (b :: bs)) :
    mergeBlocks b bs = some (b :: bs) := by
  induction bs generalizing b with
  | nil => rfl
  | cons c cs ih =>
      have hfirst := (separated_cons.1 h).1 c (List.mem_cons_self ..)
      rw [mergeBlocks, if_pos hfirst, ih (separated_cons.1 h).2]
      rfl

/-- The blocks after `previous` that it reached into are joined to it. -/
theorem mergeBlocks_spec {previous : Block} {rest : List Block} (hrest : Separated rest)
    (hlo : ∀ b ∈ rest, previous.Offset ≤ b.Offset)
    (hnone : ∀ b ∈ rest, b.Offset ≤ previous.stop → previous.stop < b.stop)
    (hfits : ∀ b ∈ rest, b.stop < 2 ^ 32) (hprev : previous.stop < 2 ^ 32) :
    ∃ b bs, mergeBlocks previous rest = some (b :: bs) ∧ Separated (b :: bs) ∧
      b.Offset = previous.Offset ∧ (∀ c ∈ b :: bs, c.stop < 2 ^ 32) ∧
      ∀ k, content (b :: bs) k = (previous.byteAt k).or (content rest k) := by
  cases rest with
  | nil =>
      refine ⟨previous, [], rfl, List.pairwise_singleton .., rfl, fun c hc => ?_, fun k => ?_⟩
      · rw [List.mem_singleton.1 hc]
        exact hprev
      · exact content_cons ..
  | cons next rest =>
      obtain ⟨hnext, htail⟩ := separated_cons.1 hrest
      by_cases hapart : next.Offset > previous.stop
      · have hall : Separated (previous :: next :: rest) := by
          refine separated_cons.2 ⟨fun c hc => ?_, hrest⟩
          rcases List.mem_cons.1 hc with rfl | hc
          · exact hapart
          · have hc' := hnext c hc
            have hstop := offset_le_stop next
            omega
        refine ⟨previous, next :: rest, mergeBlocks_of_separated hall, hall, rfl, fun c hc => ?_,
          fun k => content_cons ..⟩
        rcases List.mem_cons.1 hc with rfl | hc
        · exact hprev
        · exact hfits c hc
      · have hmid : next.Offset ≤ previous.stop := by omega
        have hfirst := List.mem_cons_self (a := next) (l := rest)
        have hhi := hnone next hfirst hmid
        have hbelow := hfits next hfirst
        have hstop := appendNext_stop (hlo next hfirst) hmid hhi hbelow
        have hall : Separated (appendNext previous next :: rest) := by
          refine separated_cons.2 ⟨fun c hc => ?_, htail⟩
          rw [hstop]
          exact hnext c hc
        refine ⟨appendNext previous next, rest, ?_, hall, rfl, fun c hc => ?_, fun k => ?_⟩
        · rw [mergeBlocks, if_neg hapart, if_neg (by omega)]
          exact mergeBlocks_of_separated hall
        · rcases List.mem_cons.1 hc with rfl | hc
          · rw [hstop]
            exact hbelow
          · exact hfits c (List.mem_cons_of_mem _ hc)
        · rw [content_cons, content_cons, appendNext_byteAt (hlo next hfirst) hmid hhi hbelow,
            Option.or_assoc]

/-- A block that `previous` reaches over is erased and accessed. -/
theorem mergeBlocks_eq_none {previous b : Block} {rest : List Block} (hrest : Separated rest)
    (hb : b ∈ rest) (hover : b.stop ≤ previous.stop) : mergeBlocks previous rest = none := by
  cases rest with
  | nil => cases hb
  | cons next rest =>
      obtain ⟨hnext, -⟩ := separated_cons.1 hrest
      have hstop := offset_le_stop b
      have hle : next.Offset ≤ b.Offset ∧ (b = next ∨ next.stop < b.Offset) := by
        rcases List.mem_cons.1 hb with rfl | hb
        · exact ⟨Nat.le_refl _, .inl rfl⟩
        · have hlt := hnext b hb
          have hnextStop := offset_le_stop next
          exact ⟨by omega, .inr hlt⟩
      have hinside : next.stop ≤ previous.stop := by
        rcases hle.2 with rfl | hlt
        · exact hover
        · omega
      rw [mergeBlocks, if_neg (by omega), if_pos hinside]

/-! ## Writing -/

/-- The block the data goes to, and the blocks around it. -/
structure Located (blocks : List Block) (pos : Nat) (front : List Block) (previous : Block)
    (rest : List Block) : Prop where
  before : Separated front
  below : ∀ b ∈ front, b.stop < previous.Offset
  lo : previous.Offset ≤ pos
  after : Separated rest
  above : ∀ b ∈ rest, pos < b.Offset ∧ previous.stop < b.Offset
  content : ∀ k, content blocks k =
    (content front k).or ((previous.byteAt k).or (content rest k))
  frontMem : ∀ b ∈ front, b ∈ blocks
  mem : ∀ b, b ∈ rest ↔ b ∈ blocks ∧ pos < b.Offset

/-- The first block of the writer lies at 0. -/
def FirstAtZero (blocks : List Block) : Prop := ∃ b bs, blocks = b :: bs ∧ b.Offset = 0

theorem located_of_split {blocks front rest : List Block} {previous : Block} {pos : Nat}
    (hsep : Separated blocks) (hsplit : blocks = front ++ previous :: rest)
    (hlo : previous.Offset ≤ pos) (hhi : ∀ b ∈ rest, pos < b.Offset) :
    Located blocks pos front previous rest := by
  subst hsplit
  obtain ⟨hfront, hback, hcross⟩ := List.pairwise_append.1 hsep
  obtain ⟨habove, hrest⟩ := separated_cons.1 hback
  refine ⟨hfront, fun b hb => hcross b hb previous (List.mem_cons_self ..), hlo, hrest,
    fun b hb => ⟨hhi b hb, habove b hb⟩, fun k => ?_, fun b hb => List.mem_append_left _ hb,
    fun b => ?_⟩
  · rw [content_append, content_cons]
  · constructor
    · intro hb
      exact ⟨List.mem_append_right _ (List.mem_cons_of_mem _ hb), hhi b hb⟩
    · rintro ⟨hb, hpos⟩
      rcases List.mem_append.1 hb with hb | hb
      · have hbelow := hcross b hb previous (List.mem_cons_self ..)
        have hstop := offset_le_stop b
        omega
      · rcases List.mem_cons.1 hb with rfl | hb
        · omega
        · exact hb

theorem findPrevious_spec {blocks : List Block} (pos : Nat) (hsep : Separated blocks)
    (hfirst : FirstAtZero blocks) :
    ∃ front previous rest, findPrevious blocks pos = some (front, previous, rest) ∧
      blocks = front ++ previous :: rest ∧ Located blocks pos front previous rest := by
  have hsplit := List.takeWhile_append_dropWhile (p := fun b : Block => decide (b.Offset < pos))
    (l := blocks)
  have hbefore : ∀ b ∈ blocks.takeWhile (fun b => decide (b.Offset < pos)), b.Offset < pos :=
    fun b hb => by simpa using List.mem_takeWhile_imp hb
  have hsorted : ∀ b bs front, blocks = front ++ b :: bs → ∀ c ∈ bs, b.stop < c.Offset := by
    intro b bs front heq c hc
    rw [heq] at hsep
    exact (separated_cons.1 (List.pairwise_append.1 hsep).2.1).1 c hc
  unfold findPrevious
  cases hafter : blocks.dropWhile fun b => decide (b.Offset < pos) with
  | nil =>
      cases hlast : (blocks.takeWhile fun b => decide (b.Offset < pos)).getLast? with
      | none =>
          have hnil := List.getLast?_eq_none_iff.1 hlast
          obtain ⟨b, bs, hblocks, -⟩ := hfirst
          rw [hnil, hafter, hblocks] at hsplit
          cases hsplit
      | some p =>
          obtain ⟨front, hfront⟩ := List.getLast?_eq_some_iff.1 hlast
          rw [hfront, hafter, List.append_nil] at hsplit
          have hp := hbefore p (by rw [hfront]; simp)
          refine ⟨front, p, [], ?_, hsplit.symm,
            located_of_split hsep hsplit.symm (by omega) nofun⟩
          simp only [hfront, List.getLast?_concat, List.dropLast_concat]
  | cons b bs =>
      have hb : pos ≤ b.Offset := by
        have hne : blocks.dropWhile (fun b => decide (b.Offset < pos)) ≠ [] := by
          rw [hafter]
          simp
        have hnot := List.head_dropWhile_not (fun b : Block => decide (b.Offset < pos)) hne
        simpa [hafter] using hnot
      cases hlast : (blocks.takeWhile fun b => decide (b.Offset < pos)).getLast? with
      | none =>
          have hnil := List.getLast?_eq_none_iff.1 hlast
          rw [hnil, hafter, List.nil_append] at hsplit
          obtain ⟨b0, bs0, hblocks, hzero⟩ := hfirst
          have hbz : b.Offset = 0 := by
            rw [← hsplit] at hblocks
            cases hblocks
            exact hzero
          have hstop := offset_le_stop b
          refine ⟨[], b, bs, ?_, hsplit.symm, located_of_split hsep hsplit.symm (by omega)
            fun c hc => ?_⟩
          · simp only [hlast]
          · have hc' := hsorted b bs [] hsplit.symm c hc
            omega
      | some p =>
          obtain ⟨front, hfront⟩ := List.getLast?_eq_some_iff.1 hlast
          have hp := hbefore p (by rw [hfront]; simp)
          rw [hfront, hafter] at hsplit
          by_cases hat : b.Offset = pos
          · refine ⟨front ++ [p], b, bs, ?_, hsplit.symm,
              located_of_split hsep hsplit.symm (by omega) fun c hc => ?_⟩
            · simp only [hfront, List.getLast?_concat, if_pos hat]
            · have hc' := hsorted b bs _ hsplit.symm c hc
              have hstop := offset_le_stop b
              omega
          · rw [List.append_assoc, List.singleton_append] at hsplit
            refine ⟨front, p, b :: bs, ?_, hsplit.symm,
              located_of_split hsep hsplit.symm (by omega) fun c hc => ?_⟩
            · simp only [hfront, List.getLast?_concat, if_neg hat, List.dropLast_concat]
            · rcases List.mem_cons.1 hc with rfl | hc
              · omega
              · have hsplit' : blocks = (front ++ [p]) ++ b :: bs := by
                  rw [List.append_assoc, List.singleton_append]
                  exact hsplit.symm
                have hc' := hsorted b bs _ hsplit' c hc
                have hstop := offset_le_stop b
                omega

/-- Where `write` puts the data: at the end of the front when the block before ends early. -/
def place (pos : Nat) (front : List Block) (previous : Block) : List Block × Block :=
  if previous.stop < pos then (front ++ [previous], ⟨pos, []⟩) else (front, previous)

theorem Located.place {blocks front rest : List Block} {previous : Block} {pos : Nat}
    (h : Located blocks pos front previous rest) (hmem : previous ∈ blocks) :
    Located blocks pos (place pos front previous).1 (place pos front previous).2 rest ∧
      (SparseFileWritter.place pos front previous).2.stop = max previous.stop pos := by
  unfold SparseFileWritter.place
  split
  · rename_i hearly
    refine ⟨⟨?_, fun b hb => ?_, Nat.le_refl _, h.after,
      fun b hb => ⟨(h.above b hb).1, (h.above b hb).1⟩, fun k => ?_, fun b hb => ?_, h.mem⟩, ?_⟩
    · refine List.pairwise_append.2 ⟨h.before, List.pairwise_singleton .., fun b hb c hc => ?_⟩
      rw [List.mem_singleton.1 hc]
      exact h.below b hb
    · rcases List.mem_append.1 hb with hb | hb
      · have hlt := h.below b hb
        have hlo := h.lo
        show b.stop < pos
        omega
      · rw [List.mem_singleton.1 hb]
        exact hearly
    · have hempty : Block.byteAt ⟨pos, []⟩ k = none := by
        unfold Block.byteAt
        split <;> rfl
      rw [h.content, content_append, content_cons, hempty]
      cases Tools.content front k <;> cases previous.byteAt k <;> rfl
    · rcases List.mem_append.1 hb with hb | hb
      · exact h.frontMem b hb
      · rw [List.mem_singleton.1 hb]
        exact hmem
    · show pos = max previous.stop pos
      omega
  · refine ⟨h, ?_⟩
    show previous.stop = max previous.stop pos
    omega

/-- The block at 0 stays in its place. -/
theorem FirstAtZero.replace {front bs cs : List Block} {b c : Block}
    (h : FirstAtZero (front ++ b :: bs)) (hoff : c.Offset = b.Offset) :
    FirstAtZero (front ++ c :: cs) := by
  obtain ⟨b0, bs0, hblocks, hzero⟩ := h
  cases front with
  | nil =>
      cases hblocks
      exact ⟨_, _, rfl, hoff.trans hzero⟩
  | cons d ds =>
      cases hblocks
      exact ⟨_, _, rfl, hzero⟩

theorem FirstAtZero.place {front bs : List Block} {b : Block} (pos : Nat)
    (h : FirstAtZero (front ++ b :: bs)) :
    FirstAtZero ((place pos front b).1 ++ (place pos front b).2 :: bs) := by
  unfold SparseFileWritter.place
  split
  · rw [List.append_assoc]
    exact h.replace rfl
  · exact h

theorem write_eq {s : SparseFileWritter} {front rest : List Block} {previous : Block}
    (h : findPrevious s.blocks s.pos = some (front, previous, rest)) (data : List UInt8) :
    s.write data = (mergeBlocks (overwrite (place s.pos front previous).2 s.pos data) rest).map
      fun merged => { s with
        blocks := (place s.pos front previous).1 ++ merged, pos := s.pos + data.length } := by
  unfold write place
  rw [h]
  simp only [Option.bind_eq_bind, Option.bind_some]
  split <;> exact Option.map_eq_bind.symm

/-- The writer holds what the flat file holds. -/
structure Refines (s : SparseFileWritter) (f : FlatFile) : Prop where
  separated : Separated s.blocks
  first : FirstAtZero s.blocks
  below : ∀ b ∈ s.blocks, b.stop < 2 ^ 32
  bytes : ∀ k, content s.blocks k = f.bytes k
  pos : s.pos = f.pos

theorem Refines.write {s : SparseFileWritter} {f : FlatFile} {data : List UInt8} (h : Refines s f)
    (hfits : s.Below4GB (.write data)) (hnone : s.SwallowsNone (.write data)) :
    ∃ t, s.write data = some t ∧ Refines t (f.call (.write data)) := by
  obtain ⟨front, previous, rest, hfind, hsplit, hloc⟩ :=
    findPrevious_spec s.pos h.separated h.first
  have hmem : previous ∈ s.blocks := by rw [hsplit]; simp
  have hbelow := h.below previous hmem
  have hend : s.pos + data.length < 2 ^ 32 := hfits
  obtain ⟨hplaced, hplacedStop⟩ := hloc.place hmem
  have hzero := (hsplit ▸ h.first).place s.pos
  have hwrite := write_eq hfind data
  generalize (place s.pos front previous).1 = front' at hwrite hplaced hzero
  generalize (place s.pos front previous).2 = target at hwrite hplaced hplacedStop hzero
  have hstop := overwrite_stop hplaced.lo data
  have hoff : (overwrite target s.pos data).Offset = target.Offset := rfl
  obtain ⟨b, bs, hmerge, hsep, hbOff, hbStops, hcontent⟩ := @mergeBlocks_spec
    (overwrite target s.pos data) rest hplaced.after
    (fun c hc => by have hc' := (hplaced.above c hc).1; have hlo := hplaced.lo; omega)
    (fun c hc hover => by
      have hc' := (hplaced.above c hc).2
      have hlt := hnone c ((hplaced.mem c).1 hc).1 (hplaced.above c hc).1
      omega)
    (fun c hc => h.below c ((hplaced.mem c).1 hc).1) (by omega)
  rw [hmerge] at hwrite
  refine ⟨_, hwrite, ?_, hzero.replace (hbOff.trans hoff), fun c hc => ?_, fun k => ?_, ?_⟩
  · refine List.pairwise_append.2 ⟨hplaced.before, hsep, fun c hc d hd => ?_⟩
    have hc' := hplaced.below c hc
    rcases List.mem_cons.1 hd with rfl | hd
    · omega
    · have hd' := (separated_cons.1 hsep).1 d hd
      have hbs := offset_le_stop b
      omega
  · rcases List.mem_append.1 hc with hc | hc
    · exact h.below c (hplaced.frontMem c hc)
    · exact hbStops c hc
  · have hbytes := h.bytes k
    rw [hplaced.content] at hbytes
    show content (front' ++ b :: bs) k =
      if f.pos ≤ k ∧ k < f.pos + data.length then data[k - f.pos]? else f.bytes k
    rw [content_append, hcontent, overwrite_byteAt hplaced.lo (by omega) data, ← h.pos]
    by_cases hin : s.pos ≤ k ∧ k < s.pos + data.length
    · have hfront : content front' k = none := by
        refine content_eq_none fun c hc => ?_
        have hc' := hplaced.below c hc
        have hlo := hplaced.lo
        omega
      have hdata : data[k - s.pos]? = some data[k - s.pos] := List.getElem?_eq_getElem (by omega)
      rw [if_pos hin, if_pos hin, hfront, hdata]
      rfl
    · rw [if_neg hin, if_neg hin]
      exact hbytes
  · show s.pos + data.length = f.pos + data.length
    rw [h.pos]

/-- A write that swallows a block accesses it after it was erased. -/
theorem Refines.write_eq_none {s : SparseFileWritter} {f : FlatFile} {data : List UInt8}
    (h : Refines s f) (hswallow : ¬ s.SwallowsNone (.write data)) : s.write data = none := by
  obtain ⟨front, previous, rest, hfind, hsplit, hloc⟩ :=
    findPrevious_spec s.pos h.separated h.first
  have hmem : previous ∈ s.blocks := by rw [hsplit]; simp
  obtain ⟨hplaced, -⟩ := hloc.place hmem
  have hstop := overwrite_stop hplaced.lo data
  have hsome : ∃ b ∈ s.blocks, s.pos < b.Offset ∧ b.stop ≤ s.pos + data.length := by
    by_contra hno
    refine hswallow fun b hb hpos => ?_
    by_contra hover
    exact hno ⟨b, hb, hpos, by omega⟩
  obtain ⟨b, hb, hpos, hover⟩ := hsome
  have hrest : b ∈ rest := (hplaced.mem b).2 ⟨hb, hpos⟩
  rw [write_eq hfind, mergeBlocks_eq_none hplaced.after hrest (by omega)]
  rfl

theorem Refines.call {s : SparseFileWritter} {f : FlatFile} {c : FileCall} (h : Refines s f)
    (hfits : s.Below4GB c) (hnone : s.SwallowsNone c) :
    ∃ t, s.call c = some t ∧ Refines t (f.call c) := by
  cases c with
  | seek pos => exact ⟨_, rfl, h.separated, h.first, h.below, h.bytes, rfl⟩
  | write data => exact h.write hfits hnone
  | setEndOfFile => exact ⟨_, rfl, h.separated, h.first, h.below, h.bytes, h.pos⟩

theorem ctor_refines : Refines ctor (flatAfter []) where
  separated := List.pairwise_singleton ..
  first := ⟨_, _, rfl, rfl⟩
  below b hb := by
    rw [List.mem_singleton.1 hb]
    show 0 < 2 ^ 32
    omega
  bytes k := by
    rw [ctor, content_cons]
    unfold Block.byteAt
    split <;> rfl
  pos := rfl

/-- In a run in which no write swallows a block the blocks are sorted and apart and hold the
bytes written last, and a further write fails exactly when it swallows a block. -/
theorem run_refines_flatFile {calls : List FileCall} {s : SparseFileWritter}
    (hrun : Run (When (fun s c => s.Below4GB c ∧ s.SwallowsNone c) Step) ctor calls s) :
    Separated s.blocks ∧ (∀ k, content s.blocks k = (flatAfter calls).bytes k) ∧
      ∀ c, s.Below4GB c → ((∃ t, s.Step c t) ↔ s.SwallowsNone c) := by
  have hrefines : Refines s (flatAfter calls) := by
    induction hrun with
    | nil => exact ctor_refines
    | snoc _ hlast ih =>
        obtain ⟨t, hcall, ht⟩ := ih.call hlast.1.1 hlast.1.2
        have heq := Option.some.inj (hcall.symm.trans hlast.2)
        exact heq ▸ ht
  refine ⟨hrefines.separated, hrefines.bytes, fun c hfits => ⟨fun hstep => ?_, fun hnone => ?_⟩⟩
  · by_contra hswallow
    obtain ⟨t, ht⟩ := hstep
    cases c with
    | seek pos => exact hswallow trivial
    | setEndOfFile => exact hswallow trivial
    | write data =>
        have hfail := hrefines.write_eq_none hswallow
        have ht' : s.write data = some t := ht
        rw [hfail] at ht'
        cases ht'
  · obtain ⟨t, hcall, -⟩ := hrefines.call hfits hnone
    exact ⟨t, hcall⟩

/-- Three bytes from 2 on go over the first of two at 4, and two more over the last of the three. -/
def overlapping : List FileCall :=
  [.write [7, 8], .seek 3, .write [1, 2, 3], .seek 2, .write [5, 6], .seek 4]

theorem run_refines_flatFile_overlapping : ∃ s,
    Run (When (fun s c => s.Below4GB c ∧ s.SwallowsNone c) Step) ctor overlapping s ∧
      s.blocks = [⟨0, []⟩, ⟨2, [1, 7, 8, 6]⟩] ∧ Separated s.blocks ∧
      (∀ k, content s.blocks k = (flatAfter overlapping).bytes k) ∧
      ∀ c, s.Below4GB c → ((∃ t, s.Step c t) ↔ s.SwallowsNone c) := by
  have hrun : Run (When (fun s c => s.Below4GB c ∧ s.SwallowsNone c) Step) ctor overlapping
      ⟨[⟨0, []⟩, ⟨2, [1, 7, 8, 6]⟩], 5, 0⟩ := by
    have hfirst : Run (When (fun s c => s.Below4GB c ∧ s.SwallowsNone c) Step) ctor
        [.write [5, 6], .seek 4] ⟨[⟨0, []⟩, ⟨4, [5, 6]⟩], 6, 0⟩ :=
      .snoc (.snoc .nil ⟨by decide, rfl⟩) ⟨by decide, rfl⟩
    have hsecond : Run (When (fun s c => s.Below4GB c ∧ s.SwallowsNone c) Step) ctor
        [.write [1, 2, 3], .seek 2, .write [5, 6], .seek 4]
        ⟨[⟨0, []⟩, ⟨2, [1, 2, 3, 6]⟩], 5, 0⟩ :=
      .snoc (.snoc hfirst ⟨by decide, rfl⟩) ⟨by decide, rfl⟩
    exact .snoc (.snoc hsecond ⟨by decide, rfl⟩) ⟨by decide, rfl⟩
  exact ⟨_, hrun, rfl, run_refines_flatFile hrun⟩

/-- A byte at 4, then three bytes from 2 on. -/
theorem write_accesses_erased : ∃ s, Run Step ctor [.seek 2, .write [1], .seek 4] s ∧
    s.Below4GB (.write [1, 2, 3]) ∧ s.write [1, 2, 3] = none := by
  refine ⟨⟨[⟨0, []⟩, ⟨4, [1]⟩], 2, 0⟩, .snoc (.snoc (.snoc .nil rfl) rfl) rfl, ?_, rfl⟩
  show 2 + 3 < 2 ^ 32
  omega

end SparseFileWritter

end Vin64.Tools
