import Vin64.Xv.Reader

/-!
# Reading values ends

Every kind of value reads at least the byte of its type, and an element of a container reads one
more byte before it.  So there are no more calls of `fetch` than bytes, whatever counts the
buffer holds.
-/

namespace Vin64.Xv

open Vin64.Lib Vin64.Lib.Op Vin64.Utils

variable {α β : Type} {x : Header} {src : Buffer} {n m : Nat}

/-! ## Operations that call nothing -/

/-- The operation reads at least `n` bytes when it does not fail, and it calls nothing. -/
def Moves (src : Buffer) (n : Nat) (op : ReaderM α) : Prop :=
  ∀ s, s.current ≤ src.bytes.length →
    wp op
      (fun _ t => s.current + n ≤ t.current ∧ t.current ≤ src.bytes.length ∧
        t.calls = s.calls ∧ t.deepest = s.deepest)
      (fun _ t => t.calls = s.calls ∧ t.deepest = s.deepest) s

namespace Moves

theorem pure (a : α) : Moves src 0 (Pure.pure a : ReaderM α) := by
  intro s hs
  rw [wp_pure]
  exact ⟨Nat.le_refl _, hs, rfl, rfl⟩

theorem fail (e : Stop) : Moves src n (Op.fail e : ReaderM α) := by
  intro s _
  rw [wp_fail]
  exact ⟨rfl, rfl⟩

theorem mono {op : ReaderM α} (h : Moves src n op) (hle : m ≤ n) : Moves src m op := by
  intro s hs
  refine wp_mono (h s hs) (fun a t ht => ?_) fun e t ht => ht
  exact ⟨by omega, ht.2⟩

theorem bind {op : ReaderM α} {f : α → ReaderM β} (h : Moves src n op)
    (hf : ∀ a, Moves src m (f a)) : Moves src (n + m) (op >>= f) := by
  intro s hs
  rw [wp_bind]
  refine wp_mono (h s hs) ?_ fun e t ht => ht
  intro a t ⟨hlo, hhi, hcalls, hdeep⟩
  refine wp_mono (hf a t hhi) ?_ ?_
  · intro b u ⟨hlo', hhi', hcalls', hdeep'⟩
    exact ⟨by omega, hhi', hcalls'.trans hcalls, hdeep'.trans hdeep⟩
  · intro e u ⟨hcalls', hdeep'⟩
    exact ⟨hcalls'.trans hcalls, hdeep'.trans hdeep⟩

theorem ite {c : Prop} [Decidable c] {op op' : ReaderM α} (h : Moves src n op)
    (h' : Moves src n op') : Moves src n (if c then op else op') := by
  split
  · exact h
  · exact h'

theorem rest : Moves src 0 src.rest := by
  intro s hs
  simp only [Buffer.rest, wp_bind, wp_get, wp_pure]
  exact ⟨Nat.le_refl _, hs, trivial, trivial⟩

theorem fetchBytes (size : Nat) : Moves src size (src.fetchBytes size) := by
  intro s hs
  simp only [Buffer.fetchBytes, wp_bind, wp_get, wp_ite, wp_fail, wp_modify, wp_pure]
  refine ⟨fun _ => ⟨trivial, trivial⟩, fun hlt => ⟨Nat.le_refl _, ?_, trivial, trivial⟩⟩
  show s.current + size ≤ src.bytes.length
  omega

theorem fetchPtr (size count : Nat) : Moves src 0 (src.fetchPtr x size count) := by
  intro s hs
  simp only [Buffer.fetchPtr, Buffer.rest, wp_bind, wp_get, wp_ite, wp_fail, wp_modify, wp_pure]
  refine ⟨fun _ => ⟨trivial, trivial⟩, fun hlt => ⟨?_, ?_, trivial, trivial⟩⟩
  · exact Nat.le_add_right _ _
  · show s.current + x.sizeT (size * count) ≤ src.bytes.length
    omega

theorem readChar (size i : Nat) : Moves src 0 (src.readChar size i) := by
  unfold Buffer.readChar
  split
  · exact fail .fault
  · exact pure _

theorem readStr (size i : Nat) : Moves src 0 (src.readStr size i) := by
  unfold Buffer.readStr
  split
  · exact fail .fault
  · exact pure _

theorem fetchX (bsiz : Option ValueSize) : Moves src 1 (fetchX src bsiz) := by
  cases bsiz with
  | none => exact fail .failed
  | some bsiz =>
      refine (bind (fetchBytes bsiz.bytes) fun _ => pure _).mono ?_
      cases bsiz <;> decide

theorem fetchNumber (bsiz : Option ValueSize) : Moves src 0 (fetchNumber src bsiz) := by
  match bsiz with
  | none => exact fail .failed
  | some .s8 | some .s16 | some .s32 | some .s64 =>
      exact (bind (fetchBytes _) fun bytes => pure _).mono (Nat.zero_le _)

theorem fetchReal : Moves src 0 (fetchReal src) :=
  (bind (fetchBytes 8) fun _ => pure _).mono (Nat.zero_le _)

theorem leb128Loop (bits i : Nat) (b : Byte) (k : BitVec bits) :
    Moves src 0 (leb128Loop src bits n i b k) := by
  induction n generalizing i b k with
  | zero => exact pure _
  | succ n ih =>
      unfold Xv.leb128Loop
      refine ite ?_ (pure _)
      exact (bind (fetchBytes 1) fun _ => ih _ _ _).mono (Nat.zero_le _)

/-- The first byte is read in any case. -/
theorem fetchLeb128 (rmax : Nat) : Moves src 1 (fetchLeb128 x src (rmax + 1)) := by
  have hzero : (0 : Byte) &&& 0x80 = 0 := by decide
  unfold Xv.fetchLeb128 Xv.leb128Loop
  rw [if_pos hzero]
  exact bind (fetchBytes 1) fun bytes => leb128Loop _ _ _ _

theorem fetchKey : Moves src 1 (fetchKey x src) := by
  refine bind (m := 0) (fetchBytes 1) fun bytes => ite (fail .failed) ?_
  refine bind (m := 0) (fetchPtr 1 _) fun data => ?_
  exact bind (readChar 1 _) fun last => ite (fail .failed) (pure _)

theorem fetchStr (size : Nat) (bsiz : Option ValueSize) : Moves src 0 (fetchStr x src size bsiz) := by
  refine (bind (m := 0) (fetchX bsiz) fun cch => ?_).mono (Nat.zero_le _)
  refine bind (m := 0) (fetchPtr size _) fun data => ?_
  exact bind (readChar size _) fun last => ite (fail .failed) (readStr size data)

theorem fetchBuf (bsiz : Option ValueSize) : Moves src 0 (fetchBuf x src bsiz) := by
  refine (bind (m := 0) (fetchX bsiz) fun ccb => ?_).mono (Nat.zero_le _)
  refine bind (m := 0) rest fun rest => ite (fail .failed) ?_
  exact bind (fetchPtr 1 _) fun data => pure _

end Moves

/-! ## Calls of `fetch` -/

/-- Before a call of `fetch`: no more calls than bytes read, and a byte is left for this one. -/
structure Entering (src : Buffer) (depth : Nat) (s : Reader) : Prop where
  calls_le : s.calls ≤ s.current
  calls_lt : s.calls < src.bytes.length
  current_le : s.current ≤ src.bytes.length
  depth_le : depth ≤ s.current + 1
  depth_lt : depth ≤ src.bytes.length
  deepest_le : s.deepest ≤ src.bytes.length

/-- No more calls were made, and none deeper, than there are bytes. -/
def Bounded (src : Buffer) (s : Reader) : Prop :=
  s.calls ≤ src.bytes.length ∧ s.deepest ≤ src.bytes.length

/-- After some reads: no more calls than bytes read. -/
structure Reading (src : Buffer) (s : Reader) : Prop where
  calls_le : s.calls ≤ s.current
  current_le : s.current ≤ src.bytes.length
  deepest_le : s.deepest ≤ src.bytes.length

/-- What a call of `fetch` does: it reads a byte or more, and it stays in the bounds. -/
def Fetches (src : Buffer) (depth : Nat) (op : ReaderM Val) (s : Reader) : Prop :=
  Entering src depth s →
    wp op (fun _ t => s.current < t.current ∧ Reading src t) (fun _ t => Bounded src t) s

theorem Reading.bounded {s : Reader} (h : Reading src s) : Bounded src s :=
  ⟨Nat.le_trans h.calls_le h.current_le, h.deepest_le⟩

/-- An operation that calls nothing stays in the bounds. -/
theorem Reading.wp_moves {op : ReaderM α} {s : Reader} (h : Reading src s) (hop : Moves src n op) :
    wp op (fun _ t => s.current + n ≤ t.current ∧ t.calls = s.calls ∧ Reading src t)
      (fun _ t => Bounded src t) s := by
  refine wp_mono (hop s h.current_le) ?_ ?_
  · intro a t ⟨hlo, hhi, hcalls, hdeep⟩
    have hle := h.calls_le
    exact ⟨hlo, hcalls, ⟨by omega, hhi, by rw [hdeep]; exact h.deepest_le⟩⟩
  · intro e t ⟨hcalls, hdeep⟩
    have hbounded := h.bounded
    unfold Bounded at hbounded ⊢
    rwa [hcalls, hdeep]

/-- A call may follow once one more byte was read. -/
theorem Reading.entering {s t : Reader} {depth : Nat} (h : Reading src s) (hd : depth ≤ s.current)
    (hlt : s.current + 1 ≤ t.current) (hcalls : t.calls = s.calls) (ht : Reading src t) :
    Entering src depth t := by
  have hle := h.calls_le
  have hcur := ht.current_le
  exact ⟨ht.calls_le, by omega, hcur, by omega, by omega, ht.deepest_le⟩

/-- The state after an iteration that does not fail: what it calls reads on. -/
theorem Reading.wp_call {s t : Reader} {depth c : Nat} {op : ReaderM Val}
    (hop : ∀ t, c ≤ t.current → Fetches src depth op t) (hc : c ≤ s.current) (h : Reading src s)
    (hd : depth ≤ s.current) (hlt : s.current + 1 ≤ t.current) (hcalls : t.calls = s.calls)
    (ht : Reading src t) :
    wp op (fun _ u => s.current + 1 < u.current ∧ Reading src u) (fun _ u => Bounded src u) t := by
  refine wp_mono (hop t (by omega) (h.entering hd hlt hcalls ht)) ?_ fun e u hu => hu
  intro a u ⟨hlo, hu⟩
  exact ⟨by omega, hu⟩

/-- The loop of `fetch_array` ends: every round reads a byte. -/
theorem fetchElements_spec {depth c elmts fuel i : Nat} {elements : List (Nat × Val)}
    {op : ReaderM Val} {s : Reader} (hop : ∀ t, c ≤ t.current → Fetches src depth op t)
    (hc : c ≤ s.current) (h : Reading src s) (hd : depth ≤ s.current)
    (hfuel : src.bytes.length - s.current < fuel) :
    wp (fetchElements x src op elmts fuel i elements)
      (fun _ t => s.current ≤ t.current ∧ Reading src t) (fun _ t => Bounded src t) s := by
  induction fuel generalizing s i elements with
  | zero => omega
  | succ fuel ih =>
      unfold fetchElements
      rw [wp_ite]
      refine ⟨fun _ => ?_, fun _ => ⟨Nat.le_refl _, h⟩⟩
      rw [wp_bind]
      refine wp_mono (h.wp_moves (Moves.fetchLeb128 4)) ?_ fun e t ht => ht
      intro (read, idx) t ⟨hlo, hcalls, ht⟩
      rw [wp_ite]
      refine ⟨fun _ => ht.bounded, fun _ => ?_⟩
      rw [wp_bind]
      refine wp_mono (Reading.wp_call hop hc h hd hlo hcalls ht) ?_ fun e u hu => hu
      intro elmt u ⟨hlo', hu⟩
      have hcur := hu.current_le
      refine wp_mono (ih (by omega) hu (by omega) (by omega)) ?_ fun e v hv => hv
      intro es v ⟨hle, hv⟩
      exact ⟨by omega, hv⟩

/-- The loop of `fetch_dict` ends: every round reads a byte. -/
theorem fetchPairs_spec {depth c pairs fuel i : Nat} {elements : List (List Byte × Val)}
    {op : ReaderM Val} {s : Reader} (hop : ∀ t, c ≤ t.current → Fetches src depth op t)
    (hc : c ≤ s.current) (h : Reading src s) (hd : depth ≤ s.current)
    (hfuel : src.bytes.length - s.current < fuel) :
    wp (fetchPairs x src op pairs fuel i elements)
      (fun _ t => s.current ≤ t.current ∧ Reading src t) (fun _ t => Bounded src t) s := by
  induction fuel generalizing s i elements with
  | zero => omega
  | succ fuel ih =>
      unfold fetchPairs
      rw [wp_ite]
      refine ⟨fun _ => ?_, fun _ => ⟨Nat.le_refl _, h⟩⟩
      rw [wp_bind]
      refine wp_mono (h.wp_moves Moves.fetchKey) ?_ fun e t ht => ht
      intro key t ⟨hlo, hcalls, ht⟩
      rw [wp_bind]
      refine wp_mono (Reading.wp_call hop hc h hd hlo hcalls ht) ?_ fun e u hu => hu
      intro item u ⟨hlo', hu⟩
      rw [wp_bind]
      refine wp_mono (hu.wp_moves (Moves.readStr 1 key)) ?_ fun e v hv => hv
      intro name v ⟨hle, hcalls', hv⟩
      rw [wp_ite]
      refine ⟨fun _ => hv.bounded, fun _ => ?_⟩
      have hcur := hv.current_le
      refine wp_mono (ih (by omega) hv (by omega) (by omega)) ?_ fun e w hw => hw
      intro es w ⟨hle', hw⟩
      exact ⟨by omega, hw⟩

/-- The kinds that call nothing. -/
theorem Reading.wp_leaf {s : Reader} {op : ReaderM Val} {c : Nat} (h : Reading src s)
    (hop : Moves src 0 op) (hc : c < s.current) :
    wp op (fun _ t => c < t.current ∧ Reading src t) (fun _ t => Bounded src t) s := by
  refine wp_mono (h.wp_moves hop) ?_ fun e t ht => ht
  intro a t ⟨hle, _, ht⟩
  exact ⟨by omega, ht⟩

section Containers

variable {depth c fuel : Nat} {op : ReaderM Val} {s : Reader} {bsiz : Option ValueSize}

/-- A container reads its count before what it holds. -/
theorem Reading.wp_container {loop : Nat → ReaderM β} {f : β → Val} (h : Reading src s)
    (hloop : ∀ n t, s.current < t.current → Reading src t →
      wp (loop n) (fun _ u => t.current ≤ u.current ∧ Reading src u)
        (fun _ u => Bounded src u) t) :
    wp (do
        let n ← fetchX src bsiz
        let elements ← loop n
        return f elements)
      (fun _ t => s.current < t.current ∧ Reading src t) (fun _ t => Bounded src t) s := by
  rw [wp_bind]
  refine wp_mono (h.wp_moves (Moves.fetchX bsiz)) ?_ fun e t ht => ht
  intro n t ⟨hlo, _, ht⟩
  rw [wp_bind]
  refine wp_mono (hloop n t hlo ht) ?_ fun e u hu => hu
  intro elements u ⟨hle, hu⟩
  exact ⟨by omega, hu⟩

theorem fetchArray_spec (hop : ∀ t, c ≤ t.current → Fetches src depth op t) (hc : c ≤ s.current)
    (h : Reading src s) (hd : depth ≤ s.current + 1)
    (hfuel : src.bytes.length - s.current < fuel) :
    wp (fetchArray x src bsiz fuel op) (fun _ t => s.current < t.current ∧ Reading src t)
      (fun _ t => Bounded src t) s :=
  h.wp_container fun _ _ hlt ht =>
    fetchElements_spec hop (by omega) ht (by omega) (by omega)

theorem fetchDict_spec (hop : ∀ t, c ≤ t.current → Fetches src depth op t) (hc : c ≤ s.current)
    (h : Reading src s) (hd : depth ≤ s.current + 1)
    (hfuel : src.bytes.length - s.current < fuel) :
    wp (fetchDict x src bsiz fuel op) (fun _ t => s.current < t.current ∧ Reading src t)
      (fun _ t => Bounded src t) s :=
  h.wp_container fun _ _ hlt ht =>
    fetchPairs_spec hop (by omega) ht (by omega) (by omega)

end Containers

/-- A call of `fetch` counts itself and reads the byte of the type. -/
theorem Entering.wp_start {depth : Nat} {s : Reader} (h : Entering src depth s) :
    wp (do enter depth; src.fetchBytes 1)
      (fun _ t => t.current = s.current + 1 ∧ Reading src t) (fun _ t => Bounded src t) s := by
  have hle := h.calls_le
  have hlt := h.calls_lt
  have hdeep : max s.deepest depth ≤ src.bytes.length := Nat.max_le.2 ⟨h.deepest_le, h.depth_lt⟩
  simp only [enter, Buffer.fetchBytes, wp_bind, wp_modify, wp_get, wp_ite, wp_fail, wp_pure]
  refine ⟨fun _ => ⟨?_, hdeep⟩, fun hroom => ⟨trivial, ?_, ?_, hdeep⟩⟩
  · show s.calls + 1 ≤ src.bytes.length
    omega
  · show s.calls + 1 ≤ s.current + 1
    omega
  · show s.current + 1 ≤ src.bytes.length
    omega

/-- `fetch` ends within the bounds, when the fuel exceeds the bytes that are left. -/
theorem fetch_spec {fuel depth : Nat} {s : Reader}
    (hfuel : src.bytes.length - s.current < fuel) :
    Fetches src depth (fetch x src fuel depth) s := by
  induction fuel generalizing depth s with
  | zero => omega
  | succ fuel ih =>
      intro h
      have hdepth := h.depth_le
      have hstart := h.wp_start
      rw [wp_bind] at hstart
      unfold fetch
      rw [wp_bind]
      refine wp_mono hstart ?_ fun e t ht => ht
      intro _ t₀ ht₀
      rw [wp_bind]
      refine wp_mono ht₀ ?_ fun e t ht => ht
      intro bytes t ⟨hcur, ht⟩
      have hcur_le := ht.current_le
      have hop : ∀ u : Reader, t.current ≤ u.current →
          Fetches src (depth + 1) (fetch x src fuel (depth + 1)) u := fun u hu => ih (by omega)
      have hlt : s.current < t.current := by omega
      have hmore {u : Reader} (hu : t.current < u.current ∧ Reading src u) :
          s.current < u.current ∧ Reading src u := ⟨by omega, hu.2⟩
      unfold fetchType
      generalize BitVec.ofNat 8 (ofBytes bytes) = vt
      cases x.type vt with
      | none => exact ht.bounded
      | some typ =>
          cases typ with
          | dNull => exact ⟨hlt, ht⟩
          | dInt => exact ht.wp_leaf (Moves.fetchNumber _) hlt
          | dReal => exact ht.wp_leaf Moves.fetchReal hlt
          | dLocalStr | dUtf8Str =>
              exact ht.wp_leaf (Moves.bind (m := 0) (Moves.fetchStr 1 _) fun _ => Moves.pure _) hlt
          | dUniStr =>
              exact ht.wp_leaf (Moves.bind (m := 0) (Moves.fetchStr 2 _) fun _ => Moves.pure _) hlt
          | dBuffer => exact ht.wp_leaf (Moves.fetchBuf _) hlt
          | dArray =>
              exact wp_mono (fetchArray_spec hop (Nat.le_refl _) ht (by omega) (by omega))
                (fun _ u hu => hmore hu) fun e u hu => hu
          | dObject =>
              exact wp_mono (fetchDict_spec hop (Nat.le_refl _) ht (by omega) (by omega))
                (fun _ u hu => hmore hu) fun e u hu => hu
          | dUnknown => exact ht.bounded

/-! ## More fuel -/

/-- With more fuel a loop does the same. -/
theorem fetchElements_refines {op op' : ReaderM Val} (h : Refines op op') (elmts fuel i : Nat)
    (elements : List (Nat × Val)) :
    Refines (fetchElements x src op elmts fuel i elements)
      (fetchElements x src op' elmts (fuel + 1) i elements) := by
  induction fuel generalizing i elements with
  | zero =>
      intro s r hr
      cases hr
  | succ fuel ih =>
      unfold fetchElements
      by_cases hi : i < elmts
      · simp only [if_pos hi]
        refine (Refines.refl _).bind fun v => ?_
        by_cases hv : v.1 = 0
        · simp only [if_pos hv]
          exact Refines.refl _
        · simp only [if_neg hv]
          exact h.bind fun elmt => ih _ _
      · simp only [if_neg hi]
        exact Refines.refl _

/-- With more fuel a loop does the same. -/
theorem fetchPairs_refines {op op' : ReaderM Val} (h : Refines op op') (pairs fuel i : Nat)
    (elements : List (List Byte × Val)) :
    Refines (fetchPairs x src op pairs fuel i elements)
      (fetchPairs x src op' pairs (fuel + 1) i elements) := by
  induction fuel generalizing i elements with
  | zero =>
      intro s r hr
      cases hr
  | succ fuel ih =>
      unfold fetchPairs
      by_cases hi : i < pairs
      · simp only [if_pos hi]
        refine (Refines.refl _).bind fun key => h.bind fun item => ?_
        refine (Refines.refl _).bind fun name => ?_
        by_cases hname : name.length = 0 ∨ x.MAX_KEY_LEN < name.length
        · simp only [if_pos hname]
          exact Refines.refl _
        · simp only [if_neg hname]
          exact ih _ _
      · simp only [if_neg hi]
        exact Refines.refl _

theorem fetchType_refines {op op' : ReaderM Val} (h : Refines op op') (vt : Byte) (fuel : Nat) :
    Refines (fetchType x src vt fuel op) (fetchType x src vt (fuel + 1) op') := by
  unfold fetchType
  cases x.type vt with
  | none => exact Refines.refl _
  | some typ =>
      cases typ with
      | dArray =>
          exact (Refines.refl _).bind fun elmts =>
            (fetchElements_refines h elmts fuel 0 []).bind fun _ => Refines.refl _
      | dObject =>
          exact (Refines.refl _).bind fun pairs =>
            (fetchPairs_refines h pairs fuel 0 []).bind fun _ => Refines.refl _
      | dNull | dInt | dReal | dLocalStr | dUtf8Str | dUniStr | dBuffer | dUnknown =>
          exact Refines.refl _

theorem fetch_refines (fuel depth : Nat) :
    Refines (fetch x src fuel depth) (fetch x src (fuel + 1) depth) := by
  induction fuel generalizing depth with
  | zero =>
      intro s r hr
      cases hr
  | succ fuel ih =>
      exact (Refines.refl _).bind fun _ => (Refines.refl _).bind fun bytes =>
        fetchType_refines (ih (depth + 1)) _ fuel

/-- `fetch` does the same with any more fuel. -/
theorem fetch_of_le {fuel fuel' depth : Nat} (hle : fuel ≤ fuel') :
    Refines (fetch x src fuel depth) (fetch x src fuel' depth) := by
  induction hle with
  | refl => exact Refines.refl _
  | step _ ih => exact fun s r hr => fetch_refines _ _ s r (ih s r hr)

/-- `ValueLoad` ends, and it makes no more calls of `fetch`, and nests them no deeper, than the
buffer has bytes. -/
theorem valueLoad_bounded (x : Header) (src : Buffer) :
    ∃ r t, (∀ fuel, src.bytes.length < fuel → valueLoad x src fuel .start = some (r, t)) ∧
      t.calls ≤ src.bytes.length ∧ t.deepest ≤ src.bytes.length := by
  by_cases hempty : src.bytes.length = 0
  · refine ⟨.error .failed, .start, fun fuel _ => ?_, Nat.zero_le _, Nat.zero_le _⟩
    unfold valueLoad
    rw [if_pos hempty]
    rfl
  · have hstart : Entering src 1 .start :=
      ⟨Nat.le_refl _, Nat.pos_of_ne_zero hempty, Nat.zero_le _, Nat.le_refl _,
        Nat.pos_of_ne_zero hempty, Nat.zero_le _⟩
    have hspec := @fetch_spec x src (src.bytes.length + 1) 1 .start (by omega) hstart
    have hbounded : wp (fetch x src (src.bytes.length + 1) 1) (fun _ t => Bounded src t)
        (fun _ t => Bounded src t) .start :=
      wp_mono hspec (fun _ t ht => ht.2.bounded) fun e t ht => ht
    obtain ⟨r, t, hr⟩ := wp_result hbounded
    have ht : Bounded src t := wlp_any (wlp_of_wp hbounded) hr
    refine ⟨r, t, fun fuel hlt => ?_, ht.1, ht.2⟩
    unfold valueLoad
    rw [if_neg hempty]
    exact fetch_of_le hlt _ _ hr

end Vin64.Xv
