import Vin64.Tools.Proofs.Serial

/-!
# The flat file that `SerialToStreamUnsparse` writes

A block that begins before the end of the file is written whole.
-/

namespace Vin64.Tools

open SparseFileWritter

variable {old out : List UInt8} {stm : OStream} {blocks : List Block} {size : Nat}

theorem padTo_wrote (h : stm.Wrote old out) {offset : Nat} (hoffset : offset < 2 ^ 32) :
    (padTo stm offset).Wrote old (out ++ List.replicate (offset - out.length) 0) := by
  rw [padTo, h.tellp]
  split
  · rw [Nat.mod_eq_of_lt (by omega)]
    exact h.writeZeros _
  · next hle =>
    rw [Nat.sub_eq_zero_of_le (Nat.le_of_not_lt hle), List.replicate_zero, List.append_nil]
    exact h

/-- What the loop over the blocks writes behind `out`. -/
def flatten (size : Nat) (out : List UInt8) : List Block → List UInt8
  | [] => out
  | b :: bs =>
    if b.Offset ≥ size then out
    else flatten size (out ++ List.replicate (b.Offset - out.length) 0 ++ b.Data) bs

theorem writeBlocks_wrote (h : stm.Wrote old out) (hsize : size < 2 ^ 32) :
    (writeBlocks size stm blocks).Wrote old (flatten size out blocks) := by
  induction blocks generalizing stm out with
  | nil => exact h
  | cons b bs ih =>
      rw [writeBlocks, flatten]
      split
      · exact h
      · exact ih ((padTo_wrote h (by omega)).write b.Data)

/-- The blocks are not in what has been written, up to `n`. -/
def Above (n : Nat) (blocks : List Block) : Prop := ∀ b ∈ blocks, b.Data = [] ∨ n ≤ b.Offset

/-- The length behind a block. -/
theorem length_next {b : Block} (h : b.Data = [] ∨ out.length ≤ b.Offset) :
    (out ++ List.replicate (b.Offset - out.length) 0 ++ b.Data).length = max out.length b.stop := by
  rw [List.length_append, List.length_append, List.length_replicate, Block.stop]
  rcases h with h | h
  · rw [h, List.length_nil]
    omega
  · omega

theorem Above.next {b : Block} {bs : List Block} (h : Above out.length (b :: bs))
    (hapart : Apart (b :: bs)) : Above (max out.length b.stop) bs := by
  intro c hc
  have hc' := (apart_cons.1 hapart).1 c hc
  rcases h c (List.mem_cons_of_mem b hc) with hempty | hle
  · exact .inl hempty
  · rcases hc'.2 with hb | hempty | hstop
    · refine .inr ?_
      rw [Block.stop, hb, List.length_nil]
      omega
    · exact .inl hempty
    · exact .inr (by omega)

/-- The bytes of one block, with zeros in front of it. -/
theorem getElem?_next {b : Block} (h : b.Data = [] ∨ out.length ≤ b.Offset) {k : Nat}
    (hk : out.length ≤ k) (hstop : k < max out.length b.stop) :
    (out ++ List.replicate (b.Offset - out.length) 0 ++ b.Data)[k]? =
      some ((b.byteAt k).getD 0) := by
  have hlt : k < b.stop := by omega
  rw [Block.stop] at hlt
  rw [List.append_assoc, List.getElem?_append_right hk]
  by_cases hbelow : k < b.Offset
  · rw [byteAt_eq_none (.inl hbelow),
      List.getElem?_append_left (by rw [List.length_replicate]; omega),
      List.getElem?_replicate, if_pos (by omega)]
    rfl
  · have hle : out.length ≤ b.Offset := by
      rcases h with h | h
      · rw [h, List.length_nil] at hlt
        omega
      · exact h
    have hin : k - b.Offset < b.Data.length := by omega
    rw [List.getElem?_append_right (by rw [List.length_replicate]; omega), List.length_replicate,
      show k - out.length - (b.Offset - out.length) = k - b.Offset by omega, Block.byteAt,
      if_pos (by omega), List.getElem?_eq_getElem hin]
    rfl

/-- Behind the first block, its bytes do not count. -/
theorem content_above {b : Block} {bs : List Block} {k : Nat} (h : b.stop ≤ k) :
    content (b :: bs) k = content bs k := by
  rw [content_cons, byteAt_eq_none (.inr h)]
  rfl

/-- Up to the end of the first block, no other has bytes behind `out`. -/
theorem content_below {b : Block} {bs : List Block} (hapart : Apart (b :: bs)) {k : Nat}
    (hk : k < b.stop) : content (b :: bs) k = b.byteAt k := by
  rw [content_cons]
  cases hx : b.byteAt k with
  | some x => rfl
  | none =>
      have hbelow : k < b.Offset := by
        by_contra hge
        rw [Block.stop] at hk
        rw [Block.byteAt, if_pos (by omega), List.getElem?_eq_none_iff] at hx
        omega
      refine List.findSome?_eq_none_iff.2 fun c hc => byteAt_eq_none (.inl ?_)
      exact Nat.lt_of_lt_of_le hbelow ((apart_cons.1 hapart).1 c hc).1

/-- The bytes behind `out` are those of the blocks, and every block that begins before the end of
the file is there. -/
theorem flatten_spec (size : Nat) (out : List UInt8) (hapart : Apart blocks)
    (habove : Above out.length blocks) :
    out <+: flatten size out blocks ∧
    (∀ k, out.length ≤ k → k < (flatten size out blocks).length →
      (flatten size out blocks)[k]? = some ((content blocks k).getD 0)) ∧
    (∀ b ∈ blocks, b.Offset < size → b.stop ≤ (flatten size out blocks).length) ∧
    ((∀ b ∈ blocks, b.Offset < size → b.stop ≤ size) → out.length ≤ size →
      (flatten size out blocks).length ≤ size) := by
  induction blocks generalizing out with
  | nil => exact ⟨List.prefix_rfl, fun k h h' => absurd h' (Nat.not_lt.2 h), by simp, fun _ h => h⟩
  | cons b bs ih =>
      have hb := habove b List.mem_cons_self
      have hnext := habove.next hapart
      rw [← length_next hb] at hnext
      obtain ⟨hfront, hbytes, hthere, hsize⟩ := ih _ (apart_cons.1 hapart).2 hnext
      rw [length_next hb] at hbytes hsize
      rw [flatten]
      split
      · next hend =>
        -- all blocks begin behind the end of the file
        refine ⟨List.prefix_rfl, fun k h h' => absurd h' (Nat.not_lt.2 h), fun c hc hlt => ?_,
          fun _ h => h⟩
        rcases List.mem_cons.1 hc with rfl | hc
        · omega
        · have hle := ((apart_cons.1 hapart).1 c hc).1
          omega
      · next hbegin =>
        have hlen := hfront.length_le
        rw [length_next hb] at hlen
        refine ⟨?_, fun k hk hklen => ?_, fun c hc hlt => ?_, fun hstops hout => ?_⟩
        · rw [List.append_assoc] at hfront ⊢
          exact (List.prefix_append _ _).trans hfront
        · by_cases hkb : k < max out.length b.stop
          · rw [content_below hapart (by omega)]
            obtain ⟨rest, hrest⟩ := hfront
            rw [← hrest, List.getElem?_append_left (by rw [length_next hb]; exact hkb)]
            exact getElem?_next hb hk hkb
          · rw [hbytes k (by omega) hklen, content_above (by omega)]
        · rcases List.mem_cons.1 hc with rfl | hc
          · omega
          · exact hthere c hc hlt
        · have hstop := hstops b List.mem_cons_self (by omega)
          exact hsize (fun c hc => hstops c (List.mem_cons_of_mem b hc)) (by omega)

/-- No block reaches over the end of the file from before it. -/
def EndsWithin (s : SparseFileWritter) : Prop :=
  ∀ b ∈ s.blocks, b.Offset < s.size → b.stop ≤ s.size

/-- The stream gets exactly the bytes of the file, over what it held. -/
def WritesFlat (s : SparseFileWritter) (stm : OStream) : Prop :=
  ∃ out, s.serialToStreamUnsparse stm = ⟨out ++ stm.bytes.drop s.size, s.size⟩ ∧
    out.length = s.size ∧ ∀ k < s.size, out[k]? = some ((content s.blocks k).getD 0)

theorem serialToStreamUnsparse_wrote (s : SparseFileWritter) (stm : OStream)
    (hsize : s.size < 2 ^ 32) :
    (s.serialToStreamUnsparse stm).Wrote stm.bytes (flatten s.size [] s.blocks ++
      List.replicate (s.size - (flatten s.size [] s.blocks).length) 0) :=
  padTo_wrote (writeBlocks_wrote stm.wrote_nil hsize) hsize

/-- Exactly the file is written if and only if no block reaches over its end. -/
theorem writesFlat_iff (s : SparseFileWritter) (stm : OStream) (hapart : Apart s.blocks)
    (hsize : s.size < 2 ^ 32) : WritesFlat s stm ↔ EndsWithin s := by
  have hwrote := serialToStreamUnsparse_wrote s stm hsize
  obtain ⟨-, hbytes, hthere, hle⟩ :=
    flatten_spec s.size [] hapart (fun b _ => .inr (Nat.zero_le _))
  constructor
  · rintro ⟨out, hout, hlen, -⟩ b hb hlt
    have hstop := hthere b hb hlt
    have htellp := hwrote.tellp
    rw [hout, List.length_append, List.length_replicate] at htellp
    simp only at htellp
    omega
  · intro hends
    have hflat := hle hends (Nat.zero_le _)
    have hlen : (flatten s.size [] s.blocks ++
        List.replicate (s.size - (flatten s.size [] s.blocks).length) 0).length = s.size := by
      rw [List.length_append, List.length_replicate]
      omega
    refine ⟨_, by rw [hwrote, hlen], hlen, fun k hk => ?_⟩
    by_cases hkf : k < (flatten s.size [] s.blocks).length
    · rw [List.getElem?_append_left hkf]
      exact hbytes k (Nat.zero_le _) hkf
    · -- behind the last block there are zeros
      have hnone : content s.blocks k = none :=
        List.findSome?_eq_none_iff.2 fun b hb => byteAt_eq_none (by
          have hstop := hthere b hb
          omega)
      rw [List.getElem?_append_right (by omega), List.getElem?_replicate, if_pos (by omega), hnone]
      rfl

theorem writesFlat_two : WritesFlat ⟨[⟨1, [1, 2]⟩, ⟨5, [7]⟩], 4, 4⟩ ⟨[], 0⟩ :=
  (writesFlat_iff ⟨[⟨1, [1, 2]⟩, ⟨5, [7]⟩], 4, 4⟩ ⟨[], 0⟩ (by unfold Apart; decide)
    (by decide)).2 (by unfold EndsWithin; decide)

/-- Two bytes go into a file of one byte. -/
theorem not_writesFlat : ¬ ∀ (s : SparseFileWritter) (stm : OStream), Apart s.blocks →
    s.size < 2 ^ 32 → WritesFlat s stm := by
  intro h
  obtain ⟨out, hout, hlen, -⟩ := h ⟨[⟨0, [1, 2]⟩], 1, 1⟩ ⟨[], 0⟩ (by unfold Apart; decide)
    (by decide)
  have htellp : 2 = 1 := congrArg OStream.tellp hout
  exact absurd htellp (by decide)

end Vin64.Tools
