import Vin64.Vm.Proofs.Section

/-!
# A window and the pages of its section

`get_block` asks whether the block holds the offset, not whether it holds the page of the offset,
and it loads what begins at the offset.  A section whose users name each page by its first byte
does not see the difference.
-/

namespace Vin64.Vm

open Vin64.Lib Vin64.Lib.Op Vin64.Utils Vin64.Vram Vin64.Vram.RamManager

variable {s t m : RamManager} {e : Env} {i k q : Nat}

/-! ## The text of an offset -/

theorem toDigits_injective {a b : Nat} (h : Nat.toDigits 10 a = Nat.toDigits 10 b) : a = b := by
  have hparsed := congrArg (fun digits => Nat.ofDigitChars 10 digits 0) h
  simpa using hparsed

/-- The digits of a number and its sign. -/
def signedDigits (v : Int) : List Char :=
  if v < 0 then '-' :: Nat.toDigits 10 v.natAbs else Nat.toDigits 10 v.natAbs

theorem signedDigits_injective {v w : Int} (h : signedDigits v = signedDigits w) : v = w := by
  have hminus : ∀ n tail, Nat.toDigits 10 n ≠ '-' :: tail := by
    intro n tail heq
    have hdigit := Nat.isDigit_of_mem_toDigits (b := 10) (n := n) (c := '-') (by decide) (by decide)
      (by rw [heq]; exact List.mem_cons_self)
    exact absurd hdigit (by decide)
  unfold signedDigits at h
  by_cases hv : v < 0 <;> by_cases hw : w < 0
  · rw [if_pos hv, if_pos hw] at h
    have habs := toDigits_injective (List.cons.inj h).2
    omega
  · rw [if_pos hv, if_neg hw] at h
    exact absurd h.symm (hminus _ _)
  · rw [if_neg hv, if_pos hw] at h
    exact absurd h (hminus _ _)
  · rw [if_neg hv, if_neg hw] at h
    have habs := toDigits_injective h
    omega

theorem offText_eq (off : BitVec 64) :
    offText off = ("off=".toList ++ signedDigits off.toInt).map fun c => UInt8.ofNat c.toNat := rfl

theorem mem_signedDigits {v : Int} {c : Char} (h : c ∈ signedDigits v) : c = '-' ∨ c.isDigit := by
  unfold signedDigits at h
  split at h
  · rcases List.mem_cons.1 h with rfl | hc
    · exact .inl rfl
    · exact .inr (Nat.isDigit_of_mem_toDigits (by decide) (by decide) hc)
  · exact .inr (Nat.isDigit_of_mem_toDigits (by decide) (by decide) h)

/-- Each character is one byte, which is not zero. -/
theorem toNat_of_mem {off : BitVec 64} {c : Char}
    (h : c ∈ "off=".toList ++ signedDigits off.toInt) : 0 < c.toNat ∧ c.toNat < 256 := by
  rcases List.mem_append.1 h with hc | hc
  · have hname : "off=".toList = ['o', 'f', 'f', '='] := rfl
    rw [hname] at hc
    rcases (by simpa using hc : c = 'o' ∨ c = 'f' ∨ c = '=') with rfl | rfl | rfl <;> decide
  · rcases mem_signedDigits hc with rfl | hdigit
    · decide
    · obtain ⟨hlow, hhigh⟩ := Char.isDigit_iff_toNat.1 hdigit
      exact ⟨Nat.lt_of_lt_of_le (by decide) hlow, Nat.lt_of_le_of_lt hhigh (by decide)⟩

theorem zero_not_mem_offText (off : BitVec 64) : 0 ∉ offText off := by
  rw [offText_eq, List.mem_map]
  rintro ⟨c, hc, hzero⟩
  obtain ⟨hpos, hlt⟩ := toNat_of_mem hc
  have hnat := congrArg UInt8.toNat hzero
  rw [UInt8.toNat_ofNat_of_lt' hlt] at hnat
  exact absurd hnat (Nat.pos_iff_ne_zero.1 hpos)

/-- The characters can be read back. -/
theorem chars_offText (off : BitVec 64) :
    (offText off).map (fun b => Char.ofNat b.toNat) = "off=".toList ++ signedDigits off.toInt := by
  have hback : ∀ c ∈ "off=".toList ++ signedDigits off.toInt,
      Char.ofNat (UInt8.ofNat c.toNat).toNat = c := by
    intro c hc
    rw [UInt8.toNat_ofNat_of_lt' (toNat_of_mem hc).2, Char.ofNat_toNat]
  rw [offText_eq, List.map_map]
  exact (List.map_congr_left hback).trans (List.map_id _)

theorem offText_injective {a b : BitVec 64} (h : offText a = offText b) : a = b := by
  have hchars := congrArg (List.map fun b => Char.ofNat b.toNat) h
  rw [chars_offText, chars_offText] at hchars
  exact BitVec.eq_of_toInt_eq (signedDigits_injective (List.append_cancel_left hchars))

/-- A page shows one offset at most. -/
theorem showsText_unique {a b : BitVec 64} {p : Page} (ha : ShowsText a p) (hb : ShowsText b p) :
    a = b := by
  have hends : ∀ {c d : BitVec 64}, offText c ++ [0] <+: offText d ++ [0] →
      offText c = offText d := by
    intro c d hprefix
    rcases List.prefix_concat_iff.1 hprefix with heq | hin
    · exact List.append_cancel_right heq
    · exact absurd (hin.subset (by simp)) (zero_not_mem_offText d)
  rcases List.prefix_or_prefix_of_prefix ha hb with hab | hba
  · exact offText_injective (hends hab)
  · exact (offText_injective (hends hba)).symm

theorem length_offText (off : BitVec 64) : (offText off).length + 1 ≤ 4096 := by
  have hdigits : (Nat.toDigits 10 off.toInt.natAbs).length ≤ 20 := by
    rw [Nat.length_toDigits_le_iff (by decide) (by decide)]
    have hlow := BitVec.le_toInt off
    have hhigh := @BitVec.toInt_lt 64 off
    omega
  have hsigned : (signedDigits off.toInt).length ≤ 21 := by
    unfold signedDigits
    split
    · rw [List.length_cons]
      omega
    · omega
  have hname : "off=".toList.length = 4 := by decide
  rw [offText_eq, List.length_map, List.length_append, hname]
  omega

/-- The page that `sprintf` leaves. -/
def textOver (off : BitVec 64) (q : Page) : Page :=
  overwrite q 0 (fun k => (offText off).getD k 0) ((offText off).length + 1)

theorem showsText_textOver (off : BitVec 64) (q : Page) : ShowsText off (textOver off q) := by
  have hlen := length_offText off
  unfold ShowsText
  rw [List.prefix_iff_eq_take]
  apply List.ext_getElem
  · rw [List.length_take, List.length_ofFn, List.length_append, List.length_singleton,
      Nat.min_eq_left hlen]
  · intro k hk hk'
    have hin : k < (offText off).length + 1 := by
      rw [List.length_append, List.length_singleton] at hk
      exact hk
    rw [List.getElem_take, List.getElem_ofFn]
    simp only [textOver, overwrite, Nat.zero_le, Nat.zero_add, true_and, hin, if_true, Nat.sub_zero]
    by_cases hend : k < (offText off).length
    · rw [List.getElem_append_left hend, List.getD_eq_getElem?_getD, List.getElem?_eq_getElem hend,
        Option.getD_some]
    · have hlast : k = (offText off).length := by omega
      subst hlast
      rw [List.getElem_append_right (Nat.le_refl _), List.getD_eq_getElem?_getD,
        List.getElem?_eq_none (Nat.le_refl _), Option.getD_none]
      simp

/-! ## What `get_block` leaves -/

open KoSection

variable {x y z : KoSection} {off : BitVec 64} {r : Option (Fin 32)}

/-- The text of the offset is in the page of the block, which is in a slot. -/
structure Texted (x : KoSection) (off : BitVec 64) (m : RamManager) (k : Nat)
    (r : Option (Fin 32)) (z : KoSection) : Prop where
  answers : r = some (blockIndex off)
  blocks : z.blocks = x.blocks
  offs : z.off = Function.update x.off (blockIndex off) off
  resident : z.mgr.Resident (x.blocks (blockIndex off))
  content : z.mgr.content = Function.update m.content (x.blocks (blockIndex off))
    (some (textOver off (m.slotPage k)))

/-- The text goes to the slot at the address of the block. -/
theorem wp_loadBlock_at (hk : k < m.mBlocks.length)
    (haddr : (m.blocks (x.blocks (blockIndex off))).addr = k * 4096) :
    wp (loadBlock off (blockIndex off))
      (fun r z => r = some (blockIndex off) ∧ z.blocks = x.blocks ∧
        z.off = Function.update x.off (blockIndex off) off ∧
        z.mgr = m.setPage (.ram (k * 4096)) (textOver off (m.slotPage k)))
      (fun _ _ => False) (putMgr m x) := by
  simp only [loadBlock, loadFromFile, onSectionMgr, wp_bind, wp_get, wp_zoom, wp_pure]
  have hbuffer : .ram (k * 4096) =
      getRamBuffer ((putMgr m x).mgr.blocks ((putMgr m x).blocks (blockIndex off))).addr :=
    congrArg Buffer.ram haddr.symm
  rw [← hbuffer]
  apply wp_copyInto (holds_slot hk)
  · have hlen := length_offText off
    omega
  · simp only [if_true, wp_bind, wp_modify, wp_pure]
    exact ⟨trivial, rfl, rfl, rfl⟩

theorem wp_loadBlock (hm : m.Invariant)
    (hplace : m.place (x.blocks (blockIndex off)) = some (.slot k)) :
    wp (loadBlock off (blockIndex off)) (Texted x off m k) (fun _ _ => False) (putMgr m x) := by
  obtain ⟨hk, haddr⟩ := hm.addr_lt hplace
  have hwrite := rewrites_setPage hm hplace (textOver off (m.slotPage k))
  apply wp_mono (wp_loadBlock_at hk haddr)
  · intro r z hend
    obtain ⟨hr, hblocks, hoffs, hmgr⟩ := hend
    refine ⟨hr, hblocks, hoffs, ?_, by rw [hmgr, hwrite.content]⟩
    apply resident_of_slot (i := k)
    rw [hmgr, hwrite.place, hplace]
  · exact fun _ _ h => h

/-- The block for the offset is returned, as it was or with the text of the offset. -/
inductive Fetched (x : KoSection) (off : BitVec 64) : Option (Fin 32) → KoSection → Prop
  | kept {z : KoSection} : x.mgr.Valid (x.blocks (blockIndex off)) → x.off (blockIndex off) = off →
      z.blocks = x.blocks → z.off = x.off → z.mgr.Resident (x.blocks (blockIndex off)) →
      z.mgr.content = x.mgr.content → Fetched x off (some (blockIndex off)) z
  | loaded {z : KoSection} (q : Page) :
      (x.mgr.Valid (x.blocks (blockIndex off)) → x.off (blockIndex off) ≠ off) →
      z.blocks = x.blocks → z.off = Function.update x.off (blockIndex off) off →
      z.mgr.Resident (x.blocks (blockIndex off)) →
      z.mgr.content = Function.update x.mgr.content (x.blocks (blockIndex off))
        (some (textOver off q)) → Fetched x off (some (blockIndex off)) z

theorem Texted.fetched (h : Texted x off m k r z)
    (hnew : x.mgr.Valid (x.blocks (blockIndex off)) → x.off (blockIndex off) ≠ off)
    (hm : ∀ q, q ≠ x.blocks (blockIndex off) → m.content q = x.mgr.content q) :
    Fetched x off r z := by
  obtain ⟨rfl, hblocks, hoffs, hres, hcontent⟩ := h
  apply Fetched.loaded (m.slotPage k) hnew hblocks hoffs hres
  rw [hcontent]
  funext q
  by_cases hq : q = x.blocks (blockIndex off)
  · rw [hq, Function.update_self, Function.update_self]
  · rw [Function.update_of_ne hq, Function.update_of_ne hq, hm q hq]

/-- With a slot for the block, `get_block` returns it. -/
theorem wp_getBlock (hx : x.mgr.Invariant) (hslots : x.mgr.mBlocks.length ≤ maxSlots)
    (hoff : off < x.size) (hgets : x.Gets e off) :
    wp (getBlock e off) (Fetched x off) (fun _ _ => False) x := by
  simp only [getBlock, wp_bind, wp_get, wp_ite, wp_pure]
  refine ⟨fun hbig => absurd hbig (BitVec.not_le.2 hoff), fun _ => ⟨fun hunused => ?_,
    fun hvalid => ?_⟩⟩
  · have hno : ¬ x.mgr.Valid (x.blocks (blockIndex off)) := fun h => h hunused
    obtain ⟨a, m, hrun⟩ := hgets.allocates hno
    have hplace := place_none_of_unused hunused
    obtain ⟨i, f, u, hroom, hput⟩ := wlp_ok (wlp_alloc_puts hx hslots hplace) hrun
    have hu := hroom.invariant hx
    simp only [wp_attempt, onSectionMgr, wp_zoom]
    rw [wp_of_ok hrun]
    apply wp_mono (wp_loadBlock (hput.invariant hu) hput.place_self)
    · intro r z hz
      apply hz.fetched fun h => absurd h hno
      intro q hq
      rw [hput.content hu, Function.update_of_ne hq, hroom.content hx]
    · exact fun _ _ h => h
  · obtain ⟨a, m, hrun⟩ := hgets.swapsIn hvalid
    have hend := wlp_ok (wlp_swapIn_fetches hx hslots) hrun
    have hm : m.Invariant ∧ m.Resident (x.blocks (blockIndex off)) ∧
        m.content = x.mgr.content := by
      rcases hend with ⟨hin, rfl⟩ | ⟨-, i, hfetch⟩
      · exact ⟨hx, ⟨hvalid, hin⟩, rfl⟩
      · exact ⟨hfetch.invariant hx, resident_of_slot (hfetch.place_self hx), hfetch.content hx⟩
    obtain ⟨hinv, hres, hcontent⟩ := hm
    simp only [wp_attempt, onSectionMgr, wp_zoom]
    rw [wp_of_ok hrun]
    simp only [saveToFile, wp_bind, wp_get, wp_ite, wp_pure]
    constructor
    · exact fun hsame => .kept hvalid hsame rfl rfl hres hcontent
    · intro hnew
      refine ⟨fun _ => ?_, by simp⟩
      have hplace := place_of_resident hinv (flags_ne_of_valid hres.1) (not_not.1 hres.2)
      apply wp_mono (wp_loadBlock hinv hplace)
      · exact fun r z hz => hz.fetched (fun _ => hnew) fun q _ => congrFun hcontent q
      · exact fun _ _ h => h

/-- `get_block` does what it is to do exactly when the offset is settled. -/
theorem Fetched.pageLaw_iff (h : Fetched x off r z) : x.PageLaw off r z ↔ x.Settled off := by
  cases h with
  | kept hvalid hsame hblocks hoffs hres hcontent =>
      have hholds : x.HoldsPage off := ⟨hvalid, by rw [hsame]⟩
      constructor
      · exact fun _ => ⟨fun _ => hsame, fun hno => absurd hholds hno⟩
      · intro _
        refine ⟨rfl, by rwa [hblocks], fun _ => ?_, fun hno => absurd hholds hno, fun i _ => ?_⟩
        · rw [hcontent, hblocks, hoffs]
          exact ⟨rfl, rfl⟩
        · rw [hcontent, hblocks, hoffs]
          exact ⟨rfl, rfl⟩
  | loaded q hnew hblocks hoffs hres hcontent =>
      have hpage : z.mgr.content (z.blocks (blockIndex off)) = some (textOver off q) := by
        rw [hcontent, hblocks, Function.update_self]
      constructor
      · intro hlaw
        constructor
        · intro hholds
          have hkept := (hlaw.kept hholds).2
          rw [hoffs, Function.update_self] at hkept
          exact hkept.symm
        · intro hno
          exact showsText_unique (hlaw.loaded hno _ hpage) (showsText_textOver off q)
      · intro hsettled
        have hno : ¬ x.HoldsPage off := fun hholds => hnew hholds.1 (hsettled.same hholds)
        refine ⟨rfl, by rwa [hblocks], fun hholds => absurd hholds hno, fun _ p hp => ?_,
          fun i hi => ?_⟩
        · obtain rfl : textOver off q = p := Option.some.inj (hpage.symm.trans hp)
          rw [hsettled.begins hno]
          exact showsText_textOver off q
        · have hne : x.blocks i ≠ x.blocks (blockIndex off) := fun h => hi (x.blocks.injective h)
          rw [hcontent, hblocks, hoffs, Function.update_of_ne hne, Function.update_of_ne hi]
          exact ⟨rfl, rfl⟩

/-! ## Runs -/

variable {tgt : Target} {X Y : SectionRun} {call : PageCall}

/-- What `get_block` relies on in every state of a run. -/
structure SectionRun.Sound (X : SectionRun) : Prop where
  mgr : X.sec.mgr.Invariant
  slots : X.sec.mgr.mBlocks.length ≤ maxSlots

/-- A step changes the offset of one block at most, to that of the call. -/
def OffsAfter (X Y : SectionRun) (call : PageCall) : Prop :=
  Y.sec.off = X.sec.off ∨ ∃ user off e i, call = .call (.getBlock user off e) ∧
    Y.sec.off = Function.update X.sec.off i off

theorem Served.sound (h : Served X.sec off r z) (hX : X.Sound) :
    z.mgr.Invariant ∧ z.mgr.mBlocks.length ≤ maxSlots := by
  refine ⟨h.invariant, ?_⟩
  rw [h.length]
  exact hX.slots

theorem step_sound (hX : X.Sound) (hstep : X.PageStep tgt call Y) :
    Y.Sound ∧ OffsAfter X Y call := by
  obtain ⟨hfair, hstep⟩ := hstep
  cases call with
  | modify i p =>
      obtain ⟨⟨reply, z⟩, hrun, hY⟩ := Option.bind_eq_some_iff.1 hstep
      obtain rfl := Option.some.inj hY
      have hwlp : wlp (onSectionMgr (writeBlock (X.sec.blocks i) p))
          (fun _ z => z.mgr.Invariant ∧ z.mgr.mBlocks.length = X.sec.mgr.mBlocks.length ∧
            z.off = X.sec.off)
          (fun _ z => z.mgr.Invariant ∧ z.mgr.mBlocks.length = X.sec.mgr.mBlocks.length ∧
            z.off = X.sec.off) X.sec := by
        simp only [onSectionMgr, writeBlock, wlp_zoom, wlp_bind, wlp_blockAt, wlp_ite, wlp_fault,
          wlp_writePage, getRamBuffer]
        have hinv := invariant_setPage hX.mgr
          (.ram (X.sec.mgr.blocks (X.sec.blocks i)).addr) p
        exact ⟨fun _ => trivial, fun _ _ => ⟨hinv, rfl, rfl⟩⟩
      obtain ⟨hinv, hlength, hoffs⟩ := wlp_any hwlp hrun
      exact ⟨⟨hinv, by rw [hlength]; exact hX.slots⟩, .inl hoffs⟩
  | call c =>
      change X.step tgt c = some Y at hstep
      cases c with
      | getBlock user off e =>
          obtain ⟨r, z, -, hz, rfl⟩ := getBlock_cases hX.mgr hX.slots hstep
          obtain ⟨hinv, hlength⟩ := hz.sound hX
          cases r with
          | none => exact ⟨⟨hinv, hlength⟩, .inl hz.off_eq⟩
          | some i => exact ⟨⟨hinv, hlength⟩, .inr ⟨user, off, e, i, rfl, hz.off_eq⟩⟩
      | other c e =>
          obtain ⟨z, hz, rfl⟩ := other_cases hX.mgr hX.slots hfair hstep
          obtain ⟨hinv, hlength⟩ := hz.sound hX
          exact ⟨⟨hinv, hlength⟩, .inl hz.off_eq⟩
      | insertUser v =>
          obtain rfl := Option.some.inj hstep
          exact ⟨⟨hX.mgr, hX.slots⟩, .inl rfl⟩
      | removeUser v =>
          obtain rfl := Option.some.inj hstep
          exact ⟨⟨hX.mgr, hX.slots⟩, .inl rfl⟩

theorem SectionRun.Started.sound (h : X.Started) : X.Sound := ⟨h.mgr.invariant, h.slots⟩

/-- The pages are named by their first bytes. -/
def PageCall.Aligned : PageCall → Prop
  | .call (.getBlock _ off _) => pageOf off = off
  | _ => True

/-- As long as all pages are named by their first bytes, all such offsets are settled. -/
theorem run_settled (tgt : Target) {x y : SectionRun} {calls : List PageCall} (hstart : x.Started)
    (hoffs : ∀ i, pageOf (x.sec.off i) = x.sec.off i)
    (hrun : Run (When (fun _ => PageCall.Aligned) (SectionRun.PageStep tgt)) x calls y) :
    ∀ off, pageOf off = off → y.sec.Settled off := by
  have hy : y.Sound ∧ ∀ i, pageOf (y.sec.off i) = y.sec.off i := by
    apply hrun.invariant (P := fun y => y.Sound ∧ ∀ i, pageOf (y.sec.off i) = y.sec.off i)
      ⟨hstart.sound, hoffs⟩
    intro u call w hinv hlast
    obtain ⟨hu, hold⟩ := hinv
    obtain ⟨haligned, hstep⟩ := hlast
    obtain ⟨hw, hafter⟩ := step_sound hu hstep
    refine ⟨hw, fun j => ?_⟩
    rcases hafter with hsame | ⟨user, off, e, i, rfl, hupdate⟩
    · rw [hsame]
      exact hold j
    · rw [hupdate]
      by_cases hj : j = i
      · rw [hj, Function.update_self]
        exact haligned
      · rw [Function.update_of_ne hj]
        exact hold j
  intro off haligned
  refine ⟨fun hholds => ?_, fun _ => haligned⟩
  rw [← hy.2 (blockIndex off), hholds.2, haligned]

/-! ## Two small runs -/

/-- The search takes the last slot with a block. -/
def lastSlot : Env := ⟨fun _ => true, .ok, .ok⟩

end Vin64.Vm
