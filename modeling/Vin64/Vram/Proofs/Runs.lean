import Vin64.Vram.Proofs.Calls

/-!
# Runs of the RAM manager
-/

namespace Vin64.Vram

open Vin64.Lib Vin64.Lib.Op Vin64.Utils RamManager

variable {s u : RamManager} {e : Env}

/-! ## Starting -/

/-- `Create` leaves free slots and an empty bitmap. -/
theorem create_started {blocks : Nat → RamBlock} {n g : Nat} (hn : n ≠ 0) (hg : g ≠ 0)
    (hunused : ∀ pb, (blocks pb).flags = 0#32) :
    wp (create n g none) (fun _ u => u.Started ∧ u.mBlocks.length = n) (fun _ _ => False)
      (constructed blocks) := by
  have hsum : ¬ (n = 0 ∨ g = 0) := by omega
  unfold create
  simp only [hsum, if_false, wp_bind, wp_modify]
  refine ⟨⟨hunused, ?_, rfl, Nat.pos_of_ne_zero hg⟩, by simp [constructed]⟩
  intro i pb hslot
  simp [constructed, List.getElem?_replicate] at hslot

/-! ## The representation -/

theorem Call.Proper.inPage {c : Call} (h : c.Proper s) : c.InPage := by
  cases c <;> first | exact h | trivial

theorem Call.Proper.safe {c : Call} (h : c.Proper s) : c.Safe s e := by
  cases c with
  | alloc pb initFlags => exact fun hv => absurd hv h
  | swapOut pb bForce => exact h
  | _ => trivial

/-- A call takes effect, or it fails and moves no block. -/
theorem step_cases {t : Target} {v : Event} (hs : s.Invariant) (hin : v.call.InPage)
    (hsafe : v.call.Safe s v.env) (hstep : step t s v u) :
    (∃ bytes, v.reply = .ok bytes ∧ Effect s v.env v.call bytes u) ∨
      (∃ r, v.reply = .error r ∧ Fails v.env s u) := by
  have hwp := wp_exec t v.call hs hin hsafe
  unfold step at hstep
  cases hr : v.reply with
  | ok bytes =>
      rw [hr] at hstep
      exact .inl ⟨bytes, rfl, wp_ok hwp hstep⟩
  | error r =>
      rw [hr] at hstep
      exact .inr ⟨r, rfl, (wp_error hwp hstep).1⟩

theorem step_invariant {t : Target} {v : Event} (hs : s.Invariant) (hin : v.call.InPage)
    (hsafe : v.call.Safe s v.env) (hstep : step t s v u) : u.Invariant := by
  rcases step_cases hs hin hsafe hstep with ⟨bytes, -, heffect⟩ | ⟨r, -, hfails⟩
  · exact heffect.invariant hs
  · exact hfails.invariant hs

/-- In every run of proper calls the slot table, the blocks and the bitmap agree, and no
call makes an access outside them. -/
theorem run_repInvariant (t : Target) {es : List Event} (hstart : s.Started)
    (hrun : Run (When (fun s v => v.call.Proper s) (step t)) s es u) :
    u.RepInvariant ∧ ∀ e c, c.Proper u → ∃ r u', exec t e c u = some (r, u') := by
  have hinv : u.Invariant := by
    apply hrun.invariant hstart.invariant
    intro s v s' hs hstep
    exact step_invariant hs hstep.1.inPage hstep.1.safe hstep.2
  refine ⟨hinv.rep, ?_⟩
  intro e c hc
  exact wp_result (wp_exec t c hinv hc.inPage hc.safe)

theorem run_repInvariant_oneSlot : ∃ u, Run (When (fun s v => v.call.Proper s) (step .x64)) oneSlot
    [⟨.swapIn 0, quiet, .ok []⟩, ⟨.alloc 1 0#32, quiet, .ok []⟩, ⟨.alloc 0 0#32, quiet, .ok []⟩] u ∧
      u.RepInvariant := by
  have hrun : ∃ u, Run (When (fun s v => v.call.Proper s) (step .x64)) oneSlot
      [⟨.swapIn 0, quiet, .ok []⟩, ⟨.alloc 1 0#32, quiet, .ok []⟩,
        ⟨.alloc 0 0#32, quiet, .ok []⟩] u :=
    ⟨_, .snoc (.snoc (.snoc .nil ⟨by decide, rfl⟩) ⟨by decide, rfl⟩) ⟨by decide, rfl⟩⟩
  obtain ⟨u, hu⟩ := hrun
  exact ⟨u, hu, (run_repInvariant .x64 oneSlot_started hu).1⟩

/-! ## The pages -/

/-- The pages hold what was written to them. -/
def Agrees (σ : Store) (es : List Event) : Prop :=
  ∀ pb q k v (hk : k < 4096), σ pb = some q → written es pb k = some v → q ⟨k, hk⟩ = v

theorem agrees_ok {σ σ' : Store} {c : Call} {bytes : List UInt8} {es : List Event}
    (h : Agrees σ es) (hstep : Store.Step σ c bytes σ') : Agrees σ' (⟨c, e, .ok bytes⟩ :: es) := by
  intro pb q k v hk hq hv
  cases hstep with
  | alloc pb' initFlags q' =>
      by_cases hpb : pb = pb'
      · simp [written, hpb] at hv
      · rw [Function.update_of_ne hpb] at hq
        simp only [written, hpb, if_false] at hv
        exact h pb q k v hk hq hv
  | free pb' =>
      by_cases hpb : pb = pb'
      · simp [hpb] at hq
      · rw [Function.update_of_ne hpb] at hq
        exact h pb q k v hk hq hv
  | directWrite pb' off p cb q' hq' =>
      by_cases hpb : pb = pb'
      · rw [hpb, Function.update_self] at hq
        obtain rfl : overwrite q' off p cb = q := by simpa using hq
        unfold overwrite
        by_cases hin : off ≤ k ∧ k < off + cb
        · simpa [written, hpb, hin] using hv
        · simp only [written, hpb, hin, and_false, if_false] at hv
          simpa [hin] using h pb' q' k v hk hq' hv
      · rw [Function.update_of_ne hpb] at hq
        simp only [written, hpb, false_and, if_false] at hv
        exact h pb q k v hk hq hv
  | directRead pb' off cb q' bytes hq' hbytes => exact h pb q k v hk hq hv
  | swapOut pb' bForce => exact h pb q k v hk hq hv
  | swapIn pb' => exact h pb q k v hk hq hv
  | ensure pb' => exact h pb q k v hk hq hv
  | directAccess pb' => exact h pb q k v hk hq hv

theorem agrees_error {σ : Store} {c : Call} {r : HRESULT} {es : List Event} (h : Agrees σ es) :
    Agrees σ (⟨c, e, .error r⟩ :: es) := by
  intro pb q k v hk hq hv
  apply h pb q k v hk hq
  cases c <;> exact hv

/-- The page file works, the call stays in its page and gives no page away. -/
def Good (s : RamManager) (v : Event) : Prop :=
  v.env.Clean ∧ v.call.InPage ∧ v.call.Safe s v.env

theorem step_agrees {t : Target} {v : Event} {es : List Event} (hs : s.Invariant)
    (hgood : Good s v) (h : Agrees s.content es) (hstep : step t s v u) :
    Agrees u.content (v :: es) := by
  obtain ⟨c, e, reply⟩ := v
  obtain ⟨hclean, hin, hsafe⟩ := hgood
  rcases step_cases hs hin hsafe hstep with ⟨bytes, rfl, heffect⟩ | ⟨r, rfl, hfails⟩
  · exact agrees_ok h (heffect.refines hs)
  · rw [hfails.content hclean]
    exact agrees_error h

theorem Store.Step.read {σ σ' : Store} {pb off cb : Nat} {bytes : List UInt8}
    (h : Store.Step σ (.directRead pb off cb) bytes σ') :
    ∃ q, σ pb = some q ∧ IsSlice q off cb bytes := by
  cases h with
  | directRead _ _ _ q _ hq hbytes => exact ⟨q, hq, hbytes⟩

/-- A write leaves the pages of the other blocks. -/
theorem Store.Step.frame {σ σ' : Store} {pb q off cb : Nat} {p : Nat → UInt8} {bytes : List UInt8}
    (h : Store.Step σ (.directWrite pb off p cb) bytes σ') (hne : q ≠ pb) : σ' q = σ q := by
  cases h with
  | directWrite _ _ _ _ _ _ => exact Function.update_of_ne hne _ _

theorem content_of_valid {pb : Nat} (hv : s.Valid pb) : ∃ q, s.content pb = some q := by
  have hplace : s.place pb ≠ none := fun h => hv (RamBlock.place_eq_none.1 h)
  obtain ⟨x, hx⟩ := Option.ne_none_iff_exists'.1 hplace
  exact ⟨s.pageAt x, by simp [content, hx]⟩

/-- A read of an allocated block returns bytes of its page. -/
theorem read_slice (t : Target) {pb off cb : Nat} {q : Page} (hs : s.Invariant) (he : e.Clean)
    (hin : off + cb ≤ 4096) (hq : s.content pb = some q) :
    ∃ bytes u, exec t e (.directRead pb off cb) s = some (.ok bytes, u) ∧
      IsSlice q off cb bytes := by
  have hwp := wp_exec (e := e) t (.directRead pb off cb) hs hin trivial
  obtain ⟨r, u, hr⟩ := wp_result hwp
  cases r with
  | ok bytes =>
      refine ⟨bytes, u, hr, ?_⟩
      obtain ⟨q', hq', hbytes⟩ := ((wp_ok hwp hr).refines hs).read
      obtain rfl : q = q' := by simpa [hq] using hq'
      exact hbytes
  | error r =>
      have hnone := (wp_error hwp hr).2 he pb rfl
      rw [hq] at hnone
      simp at hnone

theorem IsSlice.unique {q : Page} {off cb : Nat} {xs ys : List UInt8} (hin : off + cb ≤ 4096)
    (hx : IsSlice q off cb xs) (hy : IsSlice q off cb ys) : xs = ys := by
  apply List.ext_getElem?
  intro k
  by_cases hk : k < cb
  · rw [hx.2 k (by omega) hk, hy.2 k (by omega) hk]
  · have hxl := hx.1
    have hyl := hy.1
    rw [List.getElem?_eq_none (by omega), List.getElem?_eq_none (by omega)]

theorem run_agrees {t : Target} {es : List Event} (hstart : s.Started)
    (hrun : Run (When Good (step t)) s es u) : u.Invariant ∧ Agrees u.content es := by
  induction hrun with
  | nil => exact ⟨hstart.invariant, fun _ _ _ _ _ _ hv => by simp [written] at hv⟩
  | snoc _ hlast ih =>
      obtain ⟨hinv, hagrees⟩ := ih
      obtain ⟨hgood, hstep⟩ := hlast
      exact ⟨step_invariant hinv hgood.2.1 hgood.2.2 hstep, step_agrees hinv hgood hagrees hstep⟩

/-- In every run of good calls a read returns the bytes last written to its block, a write
leaves what every other block reads, and no call makes an access of no meaning. -/
theorem run_reads_written (t : Target) {es : List Event} (hstart : s.Started)
    (hrun : Run (When Good (step t)) s es u) :
    (∀ e pb off cb, e.Clean → u.Valid pb → off + cb ≤ 4096 →
      ∃ bytes u', exec t e (.directRead pb off cb) u = some (.ok bytes, u') ∧ bytes.length = cb ∧
        ∀ k < cb, ∀ v, written es pb (off + k) = some v → bytes[k]? = some v) ∧
    (∀ e pb off p cb r u', e.Clean → off + cb ≤ 4096 →
      exec t e (.directWrite pb off p cb) u = some (r, u') →
      ∀ e' pb' off' cb', pb' ≠ pb → e'.Clean → u.Valid pb' → off' + cb' ≤ 4096 →
        (exec t e' (.directRead pb' off' cb') u').map Prod.fst =
          (exec t e' (.directRead pb' off' cb') u).map Prod.fst) ∧
    ∀ e c, e.Clean → c.InPage → c.Safe u e → ∃ r u', exec t e c u = some (r, u') := by
  obtain ⟨hinv, hagrees⟩ := run_agrees hstart hrun
  refine ⟨?_, ?_, ?_⟩
  · intro e pb off cb he hv hin
    obtain ⟨q, hq⟩ := content_of_valid hv
    obtain ⟨bytes, u', hread, hbytes⟩ := read_slice t hinv he hin hq
    refine ⟨bytes, u', hread, hbytes.1, ?_⟩
    intro k hk v hw
    rw [hbytes.2 k (by omega) hk, hagrees pb q (off + k) v (by omega) hq hw]
  · intro e pb off p cb r u' he hin hwrite e' pb' off' cb' hne he' hv hin'
    obtain ⟨q, hq⟩ := content_of_valid hv
    have hwp := wp_exec (e := e) t (.directWrite pb off p cb) hinv hin trivial
    have hsame : u'.Invariant ∧ u'.content pb' = some q := by
      cases r with
      | ok bytes =>
          have heffect := wp_ok hwp hwrite
          refine ⟨heffect.invariant hinv, ?_⟩
          rw [(heffect.refines hinv).frame hne, hq]
      | error r =>
          have hfails := (wp_error hwp hwrite).1
          exact ⟨hfails.invariant hinv, by rw [hfails.content he, hq]⟩
    obtain ⟨xs, v, hx, hxs⟩ := read_slice t hsame.1 he' hin' hsame.2
    obtain ⟨ys, w, hy, hys⟩ := read_slice t hinv he' hin' hq
    simp [hx, hy, hxs.unique hin' hys]
  · intro e c he hin hsafe
    exact wp_result (wp_exec t c hinv hin hsafe)

/-- The one slot goes to block 1 between the write to block 0 and the read of it. -/
theorem run_reads_written_evicted :
    ∃ u, Run (When Good (step .x64)) oneSlot
      [⟨.alloc 1 0#32, quiet, .ok []⟩, ⟨.directWrite 0 5 (fun _ => 0x11) 1, quiet, .ok []⟩,
        ⟨.alloc 0 0#32, quiet, .ok []⟩] u ∧ u.mBlocks = [some 1] ∧
      ∃ bytes u', exec .x64 quiet (.directRead 0 5 1) u = some (.ok bytes, u') ∧
        bytes.length = 1 ∧ bytes[0]? = some 0x11 := by
  have hrun : ∃ u, Run (When Good (step .x64)) oneSlot
      [⟨.alloc 1 0#32, quiet, .ok []⟩, ⟨.directWrite 0 5 (fun _ => 0x11) 1, quiet, .ok []⟩,
        ⟨.alloc 0 0#32, quiet, .ok []⟩] u ∧ u.mBlocks = [some 1] ∧ u.Valid 0 := by
    refine ⟨_, .snoc (.snoc (.snoc .nil ⟨⟨⟨rfl, rfl⟩, trivial, ?_⟩, rfl⟩)
      ⟨⟨⟨rfl, rfl⟩, by decide, trivial⟩, rfl⟩) ⟨⟨⟨rfl, rfl⟩, trivial, ?_⟩, rfl⟩, rfl, by decide⟩
    · exact fun hv => absurd hv (by decide)
    · exact fun hv => absurd hv (by decide)
  obtain ⟨u, hu, hslot, hv⟩ := hrun
  obtain ⟨bytes, u', hread, hlen, hbytes⟩ :=
    (run_reads_written .x64 oneSlot_started hu).1 quiet 0 5 1 ⟨rfl, rfl⟩ hv (by decide)
  exact ⟨u, hu, hslot, bytes, u', hread, hlen, hbytes 0 (by decide) 0x11 rfl⟩

/-- Block 1, which was never allocated, is swapped out, and block 2 gets the slot of block 0. -/
def corruptingRun : List Event :=
  [⟨.directWrite 2 0 (fun _ => 0x22) 1, quiet, .ok []⟩, ⟨.alloc 2 0#32, quiet, .ok []⟩,
    ⟨.swapOut 1 false, quiet, .ok []⟩, ⟨.directWrite 0 0 (fun _ => 0x11) 1, quiet, .ok []⟩,
    ⟨.alloc 0 0#32, quiet, .ok []⟩]

/-- A swap-out of a block that was never allocated lets a write to one block change what
another block reads. -/
theorem swapOut_unallocated_corrupts :
    ∃ u, Run (When (fun _ v => v.env.Clean ∧ v.call.InPage) (step .x64)) oneSlot corruptingRun u ∧
      u.Valid 0 ∧ written corruptingRun 0 0 = some 0x11 ∧
      (exec .x64 quiet (.directRead 0 0 1) u).map Prod.fst = some (.ok [0x22]) := by
  refine ⟨_, .snoc (.snoc (.snoc (.snoc (.snoc .nil ⟨by decide, rfl⟩) ⟨by decide, rfl⟩)
    ⟨by decide, rfl⟩) ⟨by decide, rfl⟩) ⟨by decide, rfl⟩, by decide, rfl, ?_⟩
  rfl

end Vin64.Vram
