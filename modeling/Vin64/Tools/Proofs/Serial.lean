import Vin64.Tools.Serial
import Vin64.Tools.Proofs.SparseFile

/-!
# The container decodes to the file
-/

namespace Vin64.Tools

variable {old out data bytes : List UInt8} {stm : OStream} {blocks : List Block}

/-! ## Streams -/

/-- `out` has been written over the start of `old`. -/
def OStream.Wrote (stm : OStream) (old out : List UInt8) : Prop :=
  stm = ⟨out ++ old.drop out.length, out.length⟩

namespace OStream

theorem wrote_nil (stm : OStream) : stm.seekStart.Wrote stm.bytes [] := rfl

theorem Wrote.tellp (h : stm.Wrote old out) : stm.tellp = out.length := by
  rw [h]

theorem Wrote.write (h : stm.Wrote old out) (data : List UInt8) :
    (stm.write data).Wrote old (out ++ data) := by
  subst h
  simp [OStream.write, Wrote, List.drop_append, List.length_append]

theorem Wrote.writeZeros (h : stm.Wrote old out) (n : Nat) :
    (stm.writeZeros n).Wrote old (out ++ List.replicate n 0) := by
  induction n generalizing stm out with
  | zero => simpa [OStream.writeZeros] using h
  | succ n ih =>
      have hnext := ih (h.write [0])
      rwa [List.append_assoc, List.singleton_append, ← List.replicate_succ] at hnext

end OStream

/-! ## Numbers -/

theorem u32At_eq {n off : Nat} {rest : List UInt8} (hn : n < 2 ^ 32)
    (h : bytes.drop off = u32Bytes n ++ rest) : u32At bytes off = some n := by
  rw [u32At, h]
  simp only [u32Bytes, List.cons_append, List.nil_append, UInt8.toNat_ofNat']
  congr 1
  omega

/-! ## The table -/

/-- The entries, the first of them selecting what lies at `base`. -/
def entries (base : Nat) : List Block → List SFDataBlock
  | [] => []
  | b :: bs => ⟨b.Data.length, b.Offset, base⟩ :: entries (base + b.Data.length) bs

/-- Where the data of the block with this index lies. -/
def realOffset (blocks : List Block) (i : Nat) : Nat :=
  12 + 12 * blocks.length + ((blocks.take i).flatMap (·.Data)).length

theorem getElem?_entries (base i : Nat) (blocks : List Block) :
    (entries base blocks)[i]? = blocks[i]?.map fun b =>
      ⟨b.Data.length, b.Offset, base + ((blocks.take i).flatMap (·.Data)).length⟩ := by
  induction blocks generalizing base i with
  | nil => rfl
  | cons b bs ih =>
      cases i with
      | zero => rfl
      | succ i =>
          rw [entries, List.getElem?_cons_succ, List.getElem?_cons_succ, ih, List.take_succ_cons,
            List.flatMap_cons, List.length_append, Nat.add_assoc]

theorem length_sfDataBlock (e : SFDataBlock) : e.bytes.length = 12 := rfl

/-- The entries from an index on. -/
theorem drop_entries {es : List SFDataBlock} {i : Nat} (hi : i ≤ es.length) (rest : List UInt8) :
    (es.flatMap SFDataBlock.bytes ++ rest).drop (12 * i) =
      (es.drop i).flatMap SFDataBlock.bytes ++ rest := by
  induction i generalizing es with
  | zero => rfl
  | succ i ih =>
      cases es with
      | nil => exact absurd hi (Nat.not_succ_le_zero i)
      | cons e es =>
          have hlen : 12 * (i + 1) = e.bytes.length + 12 * i := by
            rw [length_sfDataBlock]
            omega
          rw [List.flatMap_cons, List.append_assoc, hlen, List.drop_length_add_append,
            ih (Nat.le_of_succ_le_succ hi), List.drop_succ_cons]

/-- The data of the blocks from an index on. -/
theorem drop_data (blocks : List Block) (i : Nat) (rest : List UInt8) :
    (blocks.flatMap (·.Data) ++ rest).drop ((blocks.take i).flatMap (·.Data)).length =
      (blocks.drop i).flatMap (·.Data) ++ rest := by
  have hsplit : blocks.flatMap (·.Data) =
      (blocks.take i).flatMap (·.Data) ++ (blocks.drop i).flatMap (·.Data) := by
    rw [← List.flatMap_append, List.take_append_drop]
  rw [hsplit, List.append_assoc, List.drop_left]

/-- Every field fits. -/
def SFDataBlock.Fits (e : SFDataBlock) : Prop :=
  e.BlockSize < 2 ^ 32 ∧ e.Offset < 2 ^ 32 ∧ e.RealOffset < 2 ^ 32

theorem u32At_three (x y z off : Nat) (rest : List UInt8) (hx : x < 2 ^ 32) (hy : y < 2 ^ 32)
    (hz : z < 2 ^ 32)
    (h : bytes.drop off = u32Bytes x ++ u32Bytes y ++ u32Bytes z ++ rest) :
    u32At bytes off = some x ∧ u32At bytes (off + 4) = some y ∧ u32At bytes (off + 8) = some z := by
  have hfirst : bytes.drop off = u32Bytes x ++ (u32Bytes y ++ (u32Bytes z ++ rest)) := by
    rw [h, List.append_assoc, List.append_assoc]
  have hsecond : bytes.drop (off + 4) = u32Bytes y ++ (u32Bytes z ++ rest) := by
    rw [← List.drop_drop, hfirst]
    rfl
  have hthird : bytes.drop (off + 8) = u32Bytes z ++ rest := by
    rw [show off + 8 = off + 4 + 4 from rfl, ← List.drop_drop, hsecond]
    rfl
  exact ⟨u32At_eq hx hfirst, u32At_eq hy hsecond, u32At_eq hz hthird⟩

/-- Each entry is read back from a container. -/
theorem entryAt_eq (front : List UInt8) {rest : List UInt8} {es : List SFDataBlock}
    {e : SFDataBlock} {i : Nat} (hfront : front.length = 12)
    (hbytes : bytes = front ++ (es.flatMap SFDataBlock.bytes ++ rest)) (he : es[i]? = some e)
    (hfits : e.Fits) : entryAt bytes i = some e := by
  obtain ⟨hi, hget⟩ := List.getElem?_eq_some_iff.1 he
  have hdrop : bytes.drop (12 + 12 * i) =
      e.bytes ++ ((es.drop (i + 1)).flatMap SFDataBlock.bytes ++ rest) := by
    rw [hbytes, ← hfront, List.drop_length_add_append, hfront, drop_entries (Nat.le_of_lt hi),
      List.drop_eq_getElem_cons hi, hget, List.flatMap_cons, List.append_assoc]
  obtain ⟨hsize, hoffset, hreal⟩ := u32At_three _ _ _ _ _ hfits.1 hfits.2.1 hfits.2.2 hdrop
  simp only [entryAt, hsize, hoffset, hreal]
  rfl

namespace SparseFileWritter

/-- The first loop writes the entries. -/
theorem writeTable_wrote {base : Nat} (h : stm.Wrote old out)
    (hfits : ∀ e ∈ entries base blocks, e.Fits) :
    (writeTable stm base blocks).Wrote old
      (out ++ (entries base blocks).flatMap SFDataBlock.bytes) := by
  induction blocks generalizing stm out base with
  | nil => simpa [writeTable, entries] using h
  | cons b bs ih =>
      obtain ⟨hsize, hoffset, hreal⟩ := hfits _ List.mem_cons_self
      simp only at hsize hoffset hreal
      have hnext := ih (h.write (SFDataBlock.mk b.Data.length b.Offset base).bytes)
        fun e he => hfits e (List.mem_cons_of_mem _ he)
      rw [List.append_assoc, ← List.flatMap_cons] at hnext
      simpa only [writeTable, entries, Nat.mod_eq_of_lt hsize, Nat.mod_eq_of_lt hoffset,
        Nat.mod_eq_of_lt hreal] using hnext

/-- The second loop writes the data. -/
theorem writeData_wrote (blocks : List Block) (h : stm.Wrote old out) :
    (writeData stm blocks).Wrote old (out ++ blocks.flatMap (·.Data)) := by
  induction blocks generalizing stm out with
  | nil => simpa [writeData] using h
  | cons b bs ih =>
      have hnext := ih (h.write b.Data)
      rwa [List.append_assoc, ← List.flatMap_cons] at hnext

end SparseFileWritter

theorem realOffset_zero (blocks : List Block) :
    realOffset blocks 0 = 12 + 12 * blocks.length := rfl

theorem realOffset_succ {b : Block} {i : Nat} (h : blocks[i]? = some b) :
    realOffset blocks (i + 1) = realOffset blocks i + b.Data.length := by
  rw [realOffset, realOffset, List.take_add_one, h, List.flatMap_append, List.length_append]
  simp [Nat.add_assoc]

theorem realOffset_length (blocks : List Block) :
    realOffset blocks blocks.length = containerSize blocks := by
  rw [realOffset, List.take_length, containerSize]

theorem realOffset_le (blocks : List Block) (i : Nat) :
    realOffset blocks i ≤ containerSize blocks := by
  have hsplit : (blocks.flatMap (·.Data)).length =
      ((blocks.take i).flatMap (·.Data)).length + ((blocks.drop i).flatMap (·.Data)).length := by
    rw [← List.length_append, ← List.flatMap_append, List.take_append_drop]
  rw [realOffset, containerSize, hsplit]
  omega

/-- The entry of a block. -/
theorem getElem?_table {b : Block} {i : Nat} (h : blocks[i]? = some b) :
    (entries (12 + 12 * blocks.length) blocks)[i]? =
      some ⟨b.Data.length, b.Offset, realOffset blocks i⟩ := by
  rw [getElem?_entries, h]
  rfl

/-- The writer's table fits in a container below 4 GB. -/
theorem entries_fit {s : SparseFileWritter} (hinside : ∀ b ∈ s.blocks, b.stop ≤ s.size)
    (hsize : s.size < 2 ^ 32) (hcontainer : containerSize s.blocks < 2 ^ 32) :
    ∀ e ∈ entries (12 + 12 * s.blocks.length) s.blocks, e.Fits := by
  intro e he
  obtain ⟨i, hi⟩ := List.getElem?_of_mem he
  rw [getElem?_entries] at hi
  obtain ⟨b, hb, rfl⟩ := Option.map_eq_some_iff.1 hi
  have hstop := hinside b (List.mem_of_getElem? hb)
  have hreal := realOffset_le s.blocks i
  rw [Block.stop] at hstop
  refine ⟨?_, ?_, ?_⟩
  · change b.Data.length < 2 ^ 32
    omega
  · change b.Offset < 2 ^ 32
    omega
  · change realOffset s.blocks i < 2 ^ 32
    omega

namespace SparseFileWritter

def headerOf (s : SparseFileWritter) : SFHeader := ⟨magic, s.size, s.blocks.length⟩

/-- The container: the header, the table, and the data. -/
theorem serialToStream_wrote (s : SparseFileWritter) (stm : OStream)
    (hinside : ∀ b ∈ s.blocks, b.stop ≤ s.size) (hsize : s.size < 2 ^ 32)
    (hcontainer : containerSize s.blocks < 2 ^ 32) :
    (s.serialToStream stm).Wrote stm.bytes
      (s.headerOf.bytes ++
        ((entries (12 + 12 * s.blocks.length) s.blocks).flatMap SFDataBlock.bytes ++
          s.blocks.flatMap (·.Data))) := by
  have hcount : s.blocks.length < 2 ^ 32 := by
    rw [containerSize] at hcontainer
    omega
  have hheader := stm.wrote_nil.write s.headerOf.bytes
  have htable := writeTable_wrote hheader (entries_fit hinside hsize hcontainer)
  have hdata := writeData_wrote s.blocks htable
  rw [List.nil_append, List.append_assoc] at hdata
  simpa only [serialToStream, headerOf, Nat.mod_eq_of_lt hsize, Nat.mod_eq_of_lt hcount,
    Nat.mul_comm s.blocks.length 12] using hdata

end SparseFileWritter

/-! ## Placing the blocks -/

/-- A block placed in the file. -/
def place (file : List UInt8) (b : Block) : List UInt8 := memcpyAt file b.Offset b.Data

theorem getElem?_place {file : List UInt8} {b : Block} (h : b.stop ≤ file.length) (k : Nat) :
    (place file b)[k]? = (b.byteAt k).or file[k]? := by
  rw [place, getElem?_memcpyAt h]
  by_cases hk : b.Offset ≤ k ∧ k < b.Offset + b.Data.length
  · rw [if_pos hk, Block.byteAt, if_pos hk.1,
      List.getElem?_eq_getElem (show k - b.Offset < b.Data.length by omega)]
    rfl
  · rw [if_neg hk, SparseFileWritter.byteAt_eq_none (by rw [Block.stop]; omega)]
    rfl

theorem apart_cons {b : Block} {bs : List Block} :
    Apart (b :: bs) ↔ (∀ c ∈ bs, b.Offset ≤ c.Offset ∧
      (b.Data = [] ∨ c.Data = [] ∨ b.stop ≤ c.Offset)) ∧ Apart bs := List.pairwise_cons

/-- A byte of the first block is in no other. -/
theorem Apart.content_tail {b : Block} {bs : List Block} (h : Apart (b :: bs)) {k : Nat}
    {x : UInt8} (hx : b.byteAt k = some x) : content bs k = none := by
  have hb : b.Offset ≤ k ∧ k < b.stop := by
    by_contra hout
    rw [SparseFileWritter.byteAt_eq_none (by omega)] at hx
    cases hx
  refine List.findSome?_eq_none_iff.2 fun c hc => SparseFileWritter.byteAt_eq_none ?_
  have hc' := ((apart_cons.1 h).1 c hc).2
  rcases hc' with hempty | hempty | hbelow
  · rw [Block.stop, hempty, List.length_nil] at hb
    omega
  · rw [Block.stop, hempty, List.length_nil]
    omega
  · omega

/-- All blocks placed, one after the other. -/
theorem getElem?_foldl_place {file : List UInt8} (h : Apart blocks)
    (hinside : ∀ b ∈ blocks, b.stop ≤ file.length) (k : Nat) :
    (blocks.foldl place file)[k]? = (content blocks k).or file[k]? := by
  induction blocks generalizing file with
  | nil => rfl
  | cons b bs ih =>
      have hb := hinside b List.mem_cons_self
      have hlen : (place file b).length = file.length := length_memcpyAt hb
      rw [List.foldl_cons, ih (apart_cons.1 h).2
        (fun c hc => hlen ▸ hinside c (List.mem_cons_of_mem b hc)), getElem?_place hb,
        SparseFileWritter.content_cons]
      cases hx : b.byteAt k with
      | none => rfl
      | some x =>
          rw [h.content_tail hx]
          rfl

theorem length_foldl_place {file : List UInt8} (hinside : ∀ b ∈ blocks, b.stop ≤ file.length) :
    (blocks.foldl place file).length = file.length := by
  induction blocks generalizing file with
  | nil => rfl
  | cons b bs ih =>
      have hlen : (place file b).length = file.length :=
        length_memcpyAt (hinside b List.mem_cons_self)
      rw [List.foldl_cons, ih fun c hc => hlen ▸ hinside c (List.mem_cons_of_mem b hc), hlen]

/-- A table whose entries select the blocks places them. -/
theorem foldlM_place (bytes file : List UInt8)
    (h : ∀ i b, blocks[i]? = some b → ∃ e, entryAt bytes i = some e ∧ e.Offset = b.Offset ∧
      e.select bytes = b.Data) {n : Nat} (hn : n ≤ blocks.length) :
    (List.range n).foldlM (fun file i => (entryAt bytes i).map fun e =>
      memcpyAt file e.Offset (e.select bytes)) file = some ((blocks.take n).foldl place file) := by
  induction n with
  | zero => rfl
  | succ n ih =>
      have hb : blocks[n]? = some blocks[n] := List.getElem?_eq_getElem hn
      obtain ⟨e, he, hoffset, hselect⟩ := h n blocks[n] hb
      rw [List.range_succ, List.foldlM_append, ih (Nat.le_of_succ_le hn), List.take_add_one, hb,
        List.foldl_append]
      simp [he, hoffset, hselect, place]

theorem length_table (base : Nat) (blocks : List Block) :
    ((entries base blocks).flatMap SFDataBlock.bytes).length = 12 * blocks.length := by
  induction blocks generalizing base with
  | nil => rfl
  | cons b bs ih =>
      rw [entries, List.flatMap_cons, List.length_append, ih, length_sfDataBlock, List.length_cons]
      omega

section Container

variable {tail : List UInt8} {s : SparseFileWritter}

/-- The container, and what the stream holds behind it. -/
def container (s : SparseFileWritter) (tail : List UInt8) : List UInt8 :=
  s.headerOf.bytes ++ ((entries (12 + 12 * s.blocks.length) s.blocks).flatMap SFDataBlock.bytes ++
    (s.blocks.flatMap (·.Data) ++ tail))

theorem headerAt_container (hsize : s.size < 2 ^ 32) (hcount : s.blocks.length < 2 ^ 32) :
    headerAt (container s tail) = some s.headerOf := by
  have hdrop : (container s tail).drop 0 =
      u32Bytes magic ++ u32Bytes s.size ++ u32Bytes s.blocks.length ++ _ := rfl
  obtain ⟨hmagic, hfile, hblocks⟩ := u32At_three _ _ _ _ _ (by decide) hsize hcount hdrop
  rw [Nat.zero_add] at hfile hblocks
  simp only [headerAt, hmagic, hfile, hblocks]
  rfl

/-- What an entry selects is the data of its block. -/
theorem drop_container {b : Block} {i : Nat} (h : s.blocks[i]? = some b) :
    ((container s tail).drop (realOffset s.blocks i)).take b.Data.length = b.Data := by
  obtain ⟨hi, hget⟩ := List.getElem?_eq_some_iff.1 h
  have hfront : (s.headerOf.bytes ++
      (entries (12 + 12 * s.blocks.length) s.blocks).flatMap SFDataBlock.bytes).length =
        12 + 12 * s.blocks.length := by
    rw [List.length_append, length_table]
    rfl
  rw [container, ← List.append_assoc, realOffset, ← List.drop_drop, List.drop_left' hfront,
    drop_data, List.drop_eq_getElem_cons hi, hget, List.flatMap_cons, List.append_assoc,
    List.take_left]

end Container

/-- What `SerialToStream` writes is read back: the header and the table, whose entries select the
data of the blocks, one after the other up to the end, and placing the data gives the file. -/
theorem serialToStream_decodes (s : SparseFileWritter) (stm : OStream) (hapart : Apart s.blocks)
    (hinside : ∀ b ∈ s.blocks, b.stop ≤ s.size) (hsize : s.size < 2 ^ 32)
    (hcontainer : containerSize s.blocks < 2 ^ 32) :
    headerAt (s.serialToStream stm).bytes = some ⟨magic, s.size, s.blocks.length⟩ ∧
    (∃ real : Nat → Nat, real 0 = 12 + 12 * s.blocks.length ∧
      real s.blocks.length = (s.serialToStream stm).tellp ∧
      ∀ i b, s.blocks[i]? = some b →
        entryAt (s.serialToStream stm).bytes i = some ⟨b.Data.length, b.Offset, real i⟩ ∧
        ((s.serialToStream stm).bytes.drop (real i)).take b.Data.length = b.Data ∧
        real (i + 1) = real i + b.Data.length) ∧
    ∃ file, decode (s.serialToStream stm).bytes = some file ∧ file.length = s.size ∧
      ∀ k < s.size, file[k]? = some ((content s.blocks k).getD 0) := by
  have hwrote := s.serialToStream_wrote stm hinside hsize hcontainer
  have hcount : s.blocks.length < 2 ^ 32 := by
    rw [containerSize] at hcontainer
    omega
  obtain ⟨tail, hbytes⟩ : ∃ tail, (s.serialToStream stm).bytes = container s tail :=
    ⟨_, by rw [hwrote, container, List.append_assoc, List.append_assoc]⟩
  have htellp : (s.serialToStream stm).tellp = realOffset s.blocks s.blocks.length := by
    rw [hwrote.tellp, realOffset_length, List.length_append, List.length_append, length_table,
      containerSize, ← Nat.add_assoc]
    rfl
  have hheader : headerAt (container s tail) = some s.headerOf := headerAt_container hsize hcount
  have hentry : ∀ i b, s.blocks[i]? = some b → entryAt (container s tail) i =
      some ⟨b.Data.length, b.Offset, realOffset s.blocks i⟩ := fun i b hb =>
    entryAt_eq s.headerOf.bytes rfl rfl (getElem?_table hb)
      (entries_fit hinside hsize hcontainer _ (List.mem_of_getElem? (getElem?_table hb)))
  rw [hbytes]
  refine ⟨hheader, ⟨realOffset s.blocks, realOffset_zero _, htellp.symm, fun i b hb =>
    ⟨hentry i b hb, drop_container hb, realOffset_succ hb⟩⟩, ?_⟩
  have hzeros : ∀ b ∈ s.blocks, b.stop ≤ (List.replicate s.size (0 : UInt8)).length := by
    simpa using hinside
  refine ⟨s.blocks.foldl place (List.replicate s.size 0), ?_, ?_, fun k hk => ?_⟩
  · have hplace := foldlM_place (container s tail) (List.replicate s.size 0)
      (fun i b hb => ⟨_, hentry i b hb, rfl, drop_container hb⟩) (Nat.le_refl s.blocks.length)
    rw [List.take_length] at hplace
    simp only [decode, hheader]
    exact hplace
  · rw [length_foldl_place hzeros, List.length_replicate]
  · rw [getElem?_foldl_place hapart hzeros, List.getElem?_replicate, if_pos hk]
    cases content s.blocks k <;> rfl

/-- Two blocks and an empty one, with room behind them. -/
theorem serialToStream_decodes_three :
    ∃ file, decode (SparseFileWritter.serialToStream
        ⟨[⟨0, [1, 2]⟩, ⟨4, []⟩, ⟨5, [7]⟩], 8, 8⟩ ⟨[], 0⟩).bytes = some file ∧ file.length = 8 ∧
      ∀ k < 8, file[k]? = some ((content [⟨0, [1, 2]⟩, ⟨4, []⟩, ⟨5, [7]⟩] k).getD 0) :=
  (serialToStream_decodes ⟨[⟨0, [1, 2]⟩, ⟨4, []⟩, ⟨5, [7]⟩], 8, 8⟩ ⟨[], 0⟩
    (by unfold Apart; decide) (by decide) (by decide) (by decide)).2.2

end Vin64.Tools
