import Vin64.Lib.View
import Vin64.Vx64.Registry

/-!
# The registry shows what was inserted

The queues also hold the entries of the guest; the interface shows its own.  Every call changes
what is shown as it changes the history, whatever the hit flags are.
-/

namespace Vin64.Vx64

open Vin64.Lib CPUArchState

/-! ## Queries -/

section Query

variable {ε α : Type} {gdb : ε → Bool} {entry : ε → α}

theorem queryLoop_eq (len : Int) (l : List ε) (buf : List α) (c t : Int) :
    queryLoop gdb entry len l buf c t =
      let n := ((view gdb entry l).length : Int)
      let copied := min n (max (len - c) 0)
      ⟨if c + copied = t + n then .VXERR_OK else .VXERR_INSUF_BUF,
        buf ++ (view gdb entry l).take copied.toNat, t + n⟩ := by
  induction l generalizing buf c t with
  | nil =>
      have hview : view gdb entry [] = [] := rfl
      have hmin : min (0 : Int) (max (len - c) 0) = 0 := by omega
      simp only [queryLoop, hview, List.length_nil, Int.natCast_zero]
      rw [hmin]
      simp
  | cons e l ih =>
      cases he : gdb e with
      | false =>
          rw [view_cons_of_hidden _ he, queryLoop, he, if_neg (by simp), ih]
      | true =>
          rw [view_cons_of_shown _ he, queryLoop, he, if_pos rfl]
          by_cases hlen : c < len
          · rw [if_pos hlen, ih]
            have hmin : min (((view gdb entry l).length + 1 : Nat) : Int) (max (len - c) 0) =
                min ((view gdb entry l).length : Int) (max (len - (c + 1)) 0) + 1 := by omega
            have htake : (min (((view gdb entry l).length + 1 : Nat) : Int) (max (len - c) 0)).toNat =
                (min ((view gdb entry l).length : Int) (max (len - (c + 1)) 0)).toNat + 1 := by omega
            simp only [List.length_cons, htake, List.take_succ_cons, List.append_assoc,
              List.singleton_append, Query.mk.injEq, true_and]
            constructor
            · congr 1
              rw [hmin]
              push_cast
              exact propext ⟨fun h => by omega, fun h => by omega⟩
            · push_cast
              omega
          · rw [if_neg hlen, ih]
            have hzero : max (len - c) 0 = 0 := by omega
            have hmin : min (((view gdb entry l).length + 1 : Nat) : Int) 0 = 0 := by omega
            have hmin' : min ((view gdb entry l).length : Int) 0 = 0 := by omega
            simp only [List.length_cons, hzero, hmin, hmin', Query.mk.injEq]
            refine ⟨?_, by simp, by push_cast; omega⟩
            congr 1
            push_cast
            exact propext ⟨fun h => by omega, fun h => by omega⟩

/-- A query over a queue reports what the queue shows. -/
theorem queryLoop_reports (l : List ε) (n : Nat) :
    (queryLoop gdb entry n l [] 0 0).Reports (view gdb entry l : Multiset α) n := by
  rw [queryLoop_eq]
  have hmax : max ((n : Int) - 0) 0 = n := by omega
  simp only [hmax, List.nil_append]
  refine ⟨?_, fun hfits => ?_, fun hshort => ?_⟩
  · simp
  · have hle : (view gdb entry l).length ≤ n := by simpa using hfits
    have hmin : min ((view gdb entry l).length : Int) n = (view gdb entry l).length := by omega
    simp [hmin]
  · have hlt : n < (view gdb entry l).length := by simpa using hshort
    have hmin : min ((view gdb entry l).length : Int) n = n := by omega
    simp only [hmin, Int.toNat_natCast, List.length_take]
    refine ⟨if_neg (by omega), by omega, ?_⟩
    exact Multiset.coe_le.2 (List.take_sublist ..).subperm

end Query

/-! ## Flags and masks -/

theorem and_eq_of_bit {x : BitVec 32} (i : Nat) :
    (if x &&& BitVec.twoPow 32 i ≠ 0 then BitVec.twoPow 32 i else 0) = x &&& BitVec.twoPow 32 i := by
  rw [BitVec.and_twoPow]
  split
  · split
    · rfl
    · rename_i hzero
      exact (Decidable.not_not.1 hzero).symm
  · simp

/-- The flags that say a value's access are the bits that say it in a type. -/
theorem accessFlags_eq (type : BitVec 32) :
    accessFlags type = type &&& (VXWP_READ ||| VXWP_WRITE) := by
  have hread := and_eq_of_bit (x := type) 0
  have hwrite := and_eq_of_bit (x := type) 1
  calc accessFlags type = (type &&& BitVec.twoPow 32 0) ||| (type &&& BitVec.twoPow 32 1) := by
        rw [← hread, ← hwrite]
        rfl
    _ = type &&& (VXWP_READ ||| VXWP_WRITE) := by
        rw [← BitVec.and_or_distrib_left]
        rfl

/-- A mask without the hit bit sees the flags without it. -/
theorem and_of_unhit {m : BitVec 32} (x : BitVec 32) (hm : ~~~BP_WATCHPOINT_HIT &&& m = m) :
    x &&& m = (x &&& ~~~BP_WATCHPOINT_HIT) &&& m := by
  rw [BitVec.and_assoc, hm]

theorem setHit_unhit (wp : CPUWatchpoint) (hit : Bool) :
    (wp.setHit hit).flags &&& ~~~BP_WATCHPOINT_HIT = wp.flags &&& ~~~BP_WATCHPOINT_HIT := by
  cases hit with
  | true =>
      have hnone : BP_WATCHPOINT_HIT &&& ~~~BP_WATCHPOINT_HIT = 0 := by decide
      show (wp.flags ||| BP_WATCHPOINT_HIT) &&& ~~~BP_WATCHPOINT_HIT = _
      rw [BitVec.and_or_distrib_right, hnone]
      simp
  | false =>
      have hsame : ~~~BP_WATCHPOINT_HIT &&& ~~~BP_WATCHPOINT_HIT = ~~~BP_WATCHPOINT_HIT := by decide
      show (wp.flags &&& ~~~BP_WATCHPOINT_HIT) &&& ~~~BP_WATCHPOINT_HIT = _
      rw [BitVec.and_assoc, hsame]

theorem gdb_eq_unhit (wp : CPUWatchpoint) :
    wp.gdb = decide ((wp.flags &&& ~~~BP_WATCHPOINT_HIT) &&& BP_GDB ≠ 0) := by
  rw [CPUWatchpoint.gdb, and_of_unhit wp.flags (m := BP_GDB) (by decide)]

theorem entry_type (wp : CPUWatchpoint) :
    wp.entry.type = (wp.flags &&& ~~~BP_WATCHPOINT_HIT) &&& (VXWP_READ ||| VXWP_WRITE) := by
  rw [← and_of_unhit wp.flags (by decide)]
  exact accessFlags_eq wp.flags

theorem entry_setHit (wp : CPUWatchpoint) (hit : Bool) : (wp.setHit hit).entry = wp.entry := by
  have htype : (wp.setHit hit).entry.type = wp.entry.type := by
    rw [entry_type, entry_type, setHit_unhit]
  show (⟨(wp.setHit hit).entry.type, wp.vaddr, ~~~wp.lenMask + 1⟩ : VXWatchPoint) = wp.entry
  rw [htype]
  rfl

theorem gdb_setHit (wp : CPUWatchpoint) (hit : Bool) : (wp.setHit hit).gdb = wp.gdb := by
  rw [gdb_eq_unhit, gdb_eq_unhit, setHit_unhit]

theorem watchLenMask_eq_iff {len lenMask : TargetUlong} :
    watchLenMask len = lenMask ↔ ~~~lenMask + 1 = len := by
  constructor
  · rintro rfl
    rw [watchLenMask, BitVec.not_not]
    exact BitVec.sub_add_cancel ..
  · rintro rfl
    rw [watchLenMask, BitVec.add_sub_cancel, BitVec.not_not]

/-- `cpu_watchpoint_insert` accepts the powers of two up to a page, and aligned addresses. -/
theorem sanity_iff {vma size : TargetUlong} :
    ¬ (size &&& (size - 1) ≠ 0 ∨ vma &&& ~~~watchLenMask size ≠ 0 ∨ size = 0 ∨
        size > TARGET_PAGE_SIZE) ↔
      (∃ k ≤ 12, size.toNat = 2 ^ k) ∧ size.toNat ∣ vma.toNat := by
  have hpage : TARGET_PAGE_SIZE.toNat = 4096 := rfl
  have hone : (1 : TargetUlong).toNat = 1 := rfl
  have hpred : size ≠ 0 → (size - 1).toNat = size.toNat - 1 := by
    intro hne
    have hpos : size.toNat ≠ 0 := fun h => hne (BitVec.eq_of_toNat_eq h)
    have hlt := size.isLt
    rw [BitVec.toNat_sub, hone]
    omega
  have haligned : ∀ k, size ≠ 0 → size.toNat = 2 ^ k →
      (vma &&& ~~~watchLenMask size = 0 ↔ size.toNat ∣ vma.toNat) := by
    intro k hne hk
    have hnat : (vma &&& ~~~watchLenMask size).toNat = vma.toNat % size.toNat := by
      rw [watchLenMask, BitVec.not_not, BitVec.toNat_and, hpred hne, hk,
        Nat.and_two_pow_sub_one_eq_mod]
    rw [← BitVec.toNat_inj, hnat]
    exact (Nat.dvd_iff_mod_eq_zero ..).symm
  constructor
  · intro h
    simp only [not_or, ne_eq, not_not] at h
    obtain ⟨hpow, halign, hne, hle⟩ := h
    have hbound : ¬ TARGET_PAGE_SIZE.toNat < size.toNat := hle
    have hnat := congrArg BitVec.toNat hpow
    rw [BitVec.toNat_and, hpred hne] at hnat
    have hpos : size.toNat ≠ 0 := fun hz => hne (BitVec.eq_of_toNat_eq hz)
    obtain ⟨k, hsize⟩ := (Nat.and_sub_one_eq_zero_iff_isPowerOfTwo hpos).1 hnat
    have hk : k ≤ 12 := by
      by_contra hlarge
      have hpow13 : 2 ^ 13 ≤ 2 ^ k := Nat.pow_le_pow_right (by omega) (by omega)
      omega
    exact ⟨⟨k, hk, hsize⟩, (haligned k hne hsize).1 halign⟩
  · intro h
    obtain ⟨⟨k, hk, hsize⟩, hdvd⟩ := h
    have hpos : 0 < size.toNat := hsize ▸ Nat.two_pow_pos k
    have hne : size ≠ 0 := by
      rintro rfl
      exact absurd hpos (by decide)
    have hbound : size.toNat ≤ 4096 := hsize ▸ Nat.pow_le_pow_right (by omega) hk
    have hpow : size &&& (size - 1) = 0 := by
      apply BitVec.eq_of_toNat_eq
      rw [BitVec.toNat_and, hpred hne]
      exact (Nat.and_sub_one_eq_zero_iff_isPowerOfTwo (by omega)).2 ⟨k, hsize⟩
    simp only [not_or, ne_eq, not_not]
    refine ⟨hpow, (haligned k hne hsize).2 hdvd, hne, ?_⟩
    show ¬ TARGET_PAGE_SIZE.toNat < size.toNat
    omega

/-! ## Calls -/

/-- The entries of the interface: their flags but for the hit bit are their access and `BP_GDB`,
and what they show is `r`. -/
structure Shows (env : CPUArchState) (r : Inserted) : Prop where
  bps : (view CPUBreakpoint.gdb CPUBreakpoint.pc env.breakpoints : Multiset TargetUlong) = r.bps
  wps : (view CPUWatchpoint.gdb CPUWatchpoint.entry env.watchpoints : Multiset VXWatchPoint) = r.wps
  bpFlags : ∀ bp ∈ env.breakpoints, bp.gdb = true → bp.flags = BP_GDB
  wpFlags : ∀ wp ∈ env.watchpoints, wp.gdb = true →
    wp.flags &&& ~~~BP_WATCHPOINT_HIT = wp.entry.type ||| BP_GDB ∧ wp.entry.type ≠ 0

namespace Shows

variable {env : CPUArchState} {r : Inserted}

theorem accessFlags_eq_zero_iff {type : BitVec 32} :
    accessFlags type = 0 ↔ ¬ (type &&& VXWP_READ ≠ 0 ∨ type &&& VXWP_WRITE ≠ 0) := by
  unfold accessFlags
  by_cases hr : type &&& VXWP_READ = 0 <;> by_cases hw : type &&& VXWP_WRITE = 0 <;>
    simp only [hr, hw, ne_eq, not_true_eq_false, not_false_eq_true, if_true, if_false, or_self,
      or_true, or_false] <;> decide

/-- What a new entry of the interface shows. -/
theorem entry_insert (vma size : TargetUlong) (type : BitVec 32) :
    CPUWatchpoint.entry ⟨vma, watchLenMask size, accessFlags type ||| BP_GDB⟩ =
      watchPoint vma size type := by
  have hsize : ~~~watchLenMask size + 1 = size := watchLenMask_eq_iff.1 rfl
  have htype : (CPUWatchpoint.entry ⟨vma, watchLenMask size, accessFlags type ||| BP_GDB⟩).type =
      type &&& (VXWP_READ ||| VXWP_WRITE) := by
    have hnone : BP_GDB &&& (VXWP_READ ||| VXWP_WRITE) = 0 := by decide
    calc _ = (accessFlags type ||| BP_GDB) &&& (VXWP_READ ||| VXWP_WRITE) :=
          accessFlags_eq (accessFlags type ||| BP_GDB)
      _ = accessFlags type &&& (VXWP_READ ||| VXWP_WRITE) := by
          rw [BitVec.and_or_distrib_right, hnone]
          simp
      _ = type &&& (VXWP_READ ||| VXWP_WRITE) := by
          rw [accessFlags_eq, BitVec.and_assoc, BitVec.and_self]
  show (⟨(CPUWatchpoint.entry ⟨vma, watchLenMask size, accessFlags type ||| BP_GDB⟩).type, vma,
    ~~~watchLenMask size + 1⟩ : VXWatchPoint) = _
  rw [htype, hsize]
  rfl

theorem insertBp (h : Shows env r) (vma : TargetUlong) :
    Shows (env.cpuBreakpointInsert vma BP_GDB) { r with bps := vma ::ₘ r.bps } := by
  have hgdb : CPUBreakpoint.gdb ⟨vma, BP_GDB⟩ = true := by
    show decide (BP_GDB &&& BP_GDB ≠ 0) = true
    decide
  have henv : env.cpuBreakpointInsert vma BP_GDB =
      { env with breakpoints := ⟨vma, BP_GDB⟩ :: env.breakpoints } := rfl
  rw [henv]
  refine ⟨?_, h.wps, fun bp hbp hg => ?_, h.wpFlags⟩
  · rw [view_cons_of_shown _ hgdb, ← Multiset.cons_coe, h.bps]
  · rcases List.mem_cons.1 hbp with rfl | hbp
    · rfl
    · exact h.bpFlags bp hbp hg

theorem hwBreakpoint (h : Shows env r) (pc : TargetUlong) :
    Shows (env.cpuBreakpointInsert pc BP_CPU) r := by
  have hgdb : CPUBreakpoint.gdb ⟨pc, BP_CPU⟩ = false := by
    show decide (BP_CPU &&& BP_GDB ≠ 0) = false
    decide
  have henv : env.cpuBreakpointInsert pc BP_CPU =
      { env with breakpoints := env.breakpoints ++ [⟨pc, BP_CPU⟩] } := rfl
  rw [henv]
  refine ⟨?_, h.wps, fun bp hbp hg => ?_, h.wpFlags⟩
  · rw [view_concat_of_hidden _ hgdb, h.bps]
  · rcases List.mem_append.1 hbp with hbp | hbp
    · exact h.bpFlags bp hbp hg
    · rw [List.mem_singleton.1 hbp, hgdb] at hg
      cases hg

theorem removeBp (h : Shows env r) (vma : TargetUlong) :
    Shows (env.vx64RemoveBp vma).2 { r with bps := r.bps.erase vma } := by
  let found : CPUBreakpoint → Bool := fun bp => bp.pc = vma ∧ bp.flags = BP_GDB
  have hfound : ∀ bp ∈ env.breakpoints, found bp = true ↔ bp.gdb = true ∧ bp.pc = vma := by
    intro bp hbp
    have hgdb : bp.flags = BP_GDB → bp.gdb = true := by
      intro hflags
      rw [CPUBreakpoint.gdb, hflags]
      decide
    simp only [found, decide_eq_true_eq]
    exact ⟨fun hf => ⟨hgdb hf.2, hf.1⟩, fun hf => ⟨hf.2, h.bpFlags bp hbp hf.1⟩⟩
  have hview := view_eraseP hfound
  have hcoe : ((view CPUBreakpoint.gdb CPUBreakpoint.pc (env.breakpoints.eraseP found) :
      List TargetUlong) : Multiset TargetUlong) = r.bps.erase vma := by
    rw [hview, ← Multiset.coe_erase, h.bps]
  have hsame : (env.vx64RemoveBp vma).2 = { env with breakpoints := env.breakpoints.eraseP found } := by
    unfold vx64RemoveBp cpuBreakpointRemove
    by_cases hany : env.breakpoints.any found = true
    · simp only [hany, found, if_true, Option.getD_some]
    · have hnone : env.breakpoints.eraseP found = env.breakpoints :=
        List.eraseP_of_forall_not fun bp hbp hf => hany (List.any_eq_true.2 ⟨bp, hbp, hf⟩)
      rw [if_neg hany, hnone]
      rfl
  rw [hsame]
  exact ⟨hcoe, h.wps, fun bp hbp => h.bpFlags bp (List.mem_of_mem_eraseP hbp), h.wpFlags⟩

theorem removeAllBps (h : Shows env r) :
    Shows (env.cpuBreakpointRemoveAll BP_GDB) { r with bps := 0 } := by
  have hfilter : (env.breakpoints.filter fun bp => bp.flags &&& BP_GDB = 0) =
      env.breakpoints.filter fun bp => !bp.gdb := by
    refine List.filter_congr fun bp _ => ?_
    simp [CPUBreakpoint.gdb]
  refine ⟨?_, h.wps, fun bp hbp => h.bpFlags bp (List.mem_filter.1 hbp).1, h.wpFlags⟩
  have hnone : view CPUBreakpoint.gdb CPUBreakpoint.pc (env.breakpoints.filter fun bp => !bp.gdb) = [] :=
    view_filter_hidden _
  rw [← hfilter] at hnone
  exact congrArg _ hnone

/-- The flags of an entry that is inserted with a mask that is not a hit. -/
theorem unhit_insert (type : BitVec 32) :
    (accessFlags type ||| BP_GDB) &&& ~~~BP_WATCHPOINT_HIT =
      type &&& (VXWP_READ ||| VXWP_WRITE) ||| BP_GDB := by
  have hmask : (VXWP_READ ||| VXWP_WRITE) &&& ~~~BP_WATCHPOINT_HIT = VXWP_READ ||| VXWP_WRITE := by
    decide
  have hgdb : BP_GDB &&& ~~~BP_WATCHPOINT_HIT = BP_GDB := by decide
  rw [BitVec.and_or_distrib_right, hgdb, accessFlags_eq, BitVec.and_assoc, hmask]

theorem gdb_insert (vma lenMask : TargetUlong) (flags : BitVec 32) :
    CPUWatchpoint.gdb ⟨vma, lenMask, flags ||| BP_GDB⟩ = true := by
  have habsorb : (flags ||| BP_GDB) &&& BP_GDB = BP_GDB := by
    ext i hi
    simp only [BitVec.getElem_and, BitVec.getElem_or]
    cases flags[i] <;> cases BP_GDB[i] <;> rfl
  show decide ((flags ||| BP_GDB) &&& BP_GDB ≠ 0) = true
  rw [habsorb]
  decide

theorem insertWp (h : Shows env r) (vma size : TargetUlong) (type : BitVec 32) :
    Shows (env.vx64InsertWp vma size type).2 (r.step (.insertWp vma size type)) ∧
      ((env.vx64InsertWp vma size type).1 = .VXERR_OK ↔ Acceptable vma size type) := by
  by_cases haccess : accessFlags type = 0
  · have hnot : ¬ Acceptable vma size type := fun hok => accessFlags_eq_zero_iff.1 haccess hok.1
    have henv : env.vx64InsertWp vma size type = (.VXERR_FAIL, env) := if_pos haccess
    have hr : r.step (.insertWp vma size type) = r := if_neg hnot
    rw [henv, hr]
    exact ⟨h, nofun, fun hok => absurd hok hnot⟩
  · have hsome : type &&& VXWP_READ ≠ 0 ∨ type &&& VXWP_WRITE ≠ 0 :=
      Classical.not_not.1 fun hnone => haccess (accessFlags_eq_zero_iff.2 hnone)
    let flags := accessFlags type ||| BP_GDB
    have hgdb : CPUWatchpoint.gdb ⟨vma, watchLenMask size, flags⟩ = true := gdb_insert ..
    have hbit : flags &&& BP_GDB ≠ 0 := by simpa [CPUWatchpoint.gdb] using hgdb
    have henv : env.vx64InsertWp vma size type = (status (env.cpuWatchpointInsert vma size flags),
        (env.cpuWatchpointInsert vma size flags).getD env) := if_neg haccess
    by_cases hok : Acceptable vma size type
    · have hinsert : env.cpuWatchpointInsert vma size flags =
          some { env with watchpoints := ⟨vma, watchLenMask size, flags⟩ :: env.watchpoints } := by
        unfold cpuWatchpointInsert
        rw [if_neg (sanity_iff.2 hok.2), if_pos hbit]
      have hr : r.step (.insertWp vma size type) =
          { r with wps := watchPoint vma size type ::ₘ r.wps } := if_pos hok
      rw [henv, hinsert, hr]
      refine ⟨⟨h.bps, ?_, h.bpFlags, fun wp hwp hg => ?_⟩, fun _ => hok, fun _ => rfl⟩
      · show ((view _ _ (_ :: env.watchpoints) : List VXWatchPoint) : Multiset VXWatchPoint) = _
        rw [view_cons_of_shown _ hgdb, entry_insert, ← Multiset.cons_coe, h.wps]
      · rcases List.mem_cons.1 hwp with rfl | hwp
        · rw [entry_insert]
          refine ⟨unhit_insert type, ?_⟩
          show type &&& (VXWP_READ ||| VXWP_WRITE) ≠ 0
          rw [← accessFlags_eq]
          exact haccess
        · exact h.wpFlags wp hwp hg
    · have hinsert : env.cpuWatchpointInsert vma size flags = none := by
        unfold cpuWatchpointInsert
        rw [if_pos]
        by_contra hsane
        exact hok ⟨hsome, sanity_iff.1 hsane⟩
      have hr : r.step (.insertWp vma size type) = r := if_neg hok
      rw [henv, hinsert, hr]
      exact ⟨h, nofun, fun hacc => absurd hacc hok⟩

theorem hwWatchpoint (h : Shows env r) (addr len : TargetUlong) (type : BitVec 32) :
    Shows ((env.cpuWatchpointInsert addr len (guestFlags type)).getD env) r := by
  have hbit : guestFlags type &&& BP_GDB = 0 := by
    have hcpu : BP_CPU &&& BP_GDB = 0 := by decide
    have hmem : (BP_MEM_READ ||| BP_MEM_WRITE) &&& BP_GDB = 0 := by decide
    rw [guestFlags, BitVec.and_or_distrib_right, hcpu, BitVec.and_assoc, hmem]
    simp
  have hgdb : CPUWatchpoint.gdb ⟨addr, watchLenMask len, guestFlags type⟩ = false := by
    simp [CPUWatchpoint.gdb, hbit]
  let bad : Prop := len &&& (len - 1) ≠ 0 ∨ addr &&& ~~~watchLenMask len ≠ 0 ∨ len = 0 ∨
    len > TARGET_PAGE_SIZE
  by_cases hbad : bad
  · have hnone : env.cpuWatchpointInsert addr len (guestFlags type) = none := if_pos hbad
    rw [hnone]
    exact h
  · have hsome : env.cpuWatchpointInsert addr len (guestFlags type) = some { env with
        watchpoints := env.watchpoints ++ [⟨addr, watchLenMask len, guestFlags type⟩] } := by
      unfold cpuWatchpointInsert
      rw [if_neg hbad, if_neg (not_not.2 hbit)]
    rw [hsome]
    refine ⟨h.bps, ?_, h.bpFlags, fun wp hwp hg => ?_⟩
    · show ((view _ _ (env.watchpoints ++ [_]) : List VXWatchPoint) : Multiset VXWatchPoint) = _
      rw [view_concat_of_hidden _ hgdb, h.wps]
    · rcases List.mem_append.1 hwp with hwp | hwp
      · exact h.wpFlags wp hwp hg
      · rw [List.mem_singleton.1 hwp, hgdb] at hg
        cases hg

/-- A removal finds the entries that show the watchpoint. -/
theorem found_iff {wp : CPUWatchpoint} {vma size : TargetUlong} {type : BitVec 32}
    (hflags : wp.gdb = true →
      wp.flags &&& ~~~BP_WATCHPOINT_HIT = wp.entry.type ||| BP_GDB ∧ wp.entry.type ≠ 0) :
    (vma = wp.vaddr ∧ watchLenMask size = wp.lenMask ∧
        accessFlags type ||| BP_GDB = wp.flags &&& ~~~BP_WATCHPOINT_HIT) ↔
      wp.gdb = true ∧ wp.entry = watchPoint vma size type := by
  constructor
  · rintro ⟨rfl, hmask, hsame⟩
    have hgdb : wp.gdb = true := by
      rw [gdb_eq_unhit, ← hsame]
      exact gdb_insert wp.vaddr wp.lenMask (accessFlags type)
    have htype : wp.entry.type = type &&& (VXWP_READ ||| VXWP_WRITE) := by
      have hentry := congrArg VXWatchPoint.type (entry_insert wp.vaddr size type)
      rw [entry_type] at hentry ⊢
      rw [← hsame]
      have hmaskHit : (accessFlags type ||| BP_GDB) &&& ~~~BP_WATCHPOINT_HIT =
          accessFlags type ||| BP_GDB := by
        rw [hsame, BitVec.and_assoc, BitVec.and_self]
      rwa [hmaskHit] at hentry
    refine ⟨hgdb, ?_⟩
    show (⟨wp.entry.type, wp.vaddr, ~~~wp.lenMask + 1⟩ : VXWatchPoint) = _
    rw [htype, watchLenMask_eq_iff.1 hmask]
    rfl
  · rintro ⟨hgdb, hentry⟩
    have htype : wp.entry.type = type &&& (VXWP_READ ||| VXWP_WRITE) := by rw [hentry]; rfl
    have hvma : wp.vaddr = vma := congrArg VXWatchPoint.gvma hentry
    have hsize : ~~~wp.lenMask + 1 = size := congrArg VXWatchPoint.size hentry
    refine ⟨hvma.symm, watchLenMask_eq_iff.2 hsize, ?_⟩
    rw [(hflags hgdb).1, htype, accessFlags_eq]

theorem removeWp (h : Shows env r) (vma size : TargetUlong) (type : BitVec 32) :
    Shows (env.vx64RemoveWp vma size type).2
      { r with wps := r.wps.erase (watchPoint vma size type) } := by
  by_cases haccess : accessFlags type = 0
  · have henv : (env.vx64RemoveWp vma size type).2 = env := by
      unfold vx64RemoveWp
      rw [if_pos haccess]
    have habsent : watchPoint vma size type ∉ r.wps := by
      rw [← h.wps]
      intro hmem
      obtain ⟨wp, hwp, hgdb, hentry⟩ := mem_view.1 (Multiset.mem_coe.1 hmem)
      refine (h.wpFlags wp hwp hgdb).2 ?_
      rw [hentry]
      show type &&& (VXWP_READ ||| VXWP_WRITE) = 0
      rw [← accessFlags_eq, haccess]
    rw [henv, Multiset.erase_of_notMem habsent]
    exact h
  · let found : CPUWatchpoint → Bool := fun wp => vma = wp.vaddr ∧ watchLenMask size = wp.lenMask ∧
      accessFlags type ||| BP_GDB = wp.flags &&& ~~~BP_WATCHPOINT_HIT
    have hfound : ∀ wp ∈ env.watchpoints,
        found wp = true ↔ wp.gdb = true ∧ wp.entry = watchPoint vma size type := by
      intro wp hwp
      simp only [found, decide_eq_true_eq]
      exact found_iff (h.wpFlags wp hwp)
    have hview := view_eraseP hfound
    have hcoe : ((view CPUWatchpoint.gdb CPUWatchpoint.entry (env.watchpoints.eraseP found) :
        List VXWatchPoint) : Multiset VXWatchPoint) = r.wps.erase (watchPoint vma size type) := by
      rw [hview, ← Multiset.coe_erase, h.wps]
    have hsame : (env.vx64RemoveWp vma size type).2 =
        { env with watchpoints := env.watchpoints.eraseP found } := by
      unfold vx64RemoveWp cpuWatchpointRemove
      rw [if_neg haccess]
      by_cases hany : env.watchpoints.any found = true
      · simp only [hany, found, if_true, Option.getD_some]
      · have hnone : env.watchpoints.eraseP found = env.watchpoints :=
          List.eraseP_of_forall_not fun wp hwp hf => hany (List.any_eq_true.2 ⟨wp, hwp, hf⟩)
        rw [if_neg hany, hnone]
        rfl
    rw [hsame]
    exact ⟨h.bps, hcoe, h.bpFlags, fun wp hwp => h.wpFlags wp (List.mem_of_mem_eraseP hwp)⟩

theorem removeAllWps (h : Shows env r) :
    Shows (env.cpuWatchpointRemoveAll BP_GDB) { r with wps := 0 } := by
  have hfilter : (env.watchpoints.filter fun wp => wp.flags &&& BP_GDB = 0) =
      env.watchpoints.filter fun wp => !wp.gdb := by
    refine List.filter_congr fun wp _ => ?_
    simp [CPUWatchpoint.gdb]
  refine ⟨h.bps, ?_, h.bpFlags, fun wp hwp => h.wpFlags wp (List.mem_filter.1 hwp).1⟩
  have hnone : view CPUWatchpoint.gdb CPUWatchpoint.entry
      (env.watchpoints.filter fun wp => !wp.gdb) = [] :=
    view_filter_hidden _
  rw [← hfilter] at hnone
  exact congrArg _ hnone

theorem access (h : Shows env r) (hit : Nat → Bool) :
    Shows { env with watchpoints := env.watchpoints.mapIdx fun i wp => wp.setHit (hit i) } r := by
  refine ⟨h.bps, ?_, h.bpFlags, fun wp hwp hg => ?_⟩
  · rw [view_mapIdx (fun i wp => gdb_setHit wp (hit i)) fun i wp => entry_setHit wp (hit i), h.wps]
  · obtain ⟨i, hi, rfl⟩ := List.mem_mapIdx.1 hwp
    rw [gdb_setHit] at hg
    rw [setHit_unhit, entry_setHit]
    exact h.wpFlags _ (List.getElem_mem hi) hg

theorem mem_eraseGuest {ε : Type} {gdb : ε → Bool} {l : List ε} {i : Nat} {e : ε}
    (h : e ∈ eraseGuest gdb l i) : e ∈ l := by
  unfold eraseGuest at h
  split at h
  · exact h
  · exact List.mem_of_mem_eraseIdx h

theorem view_eraseGuest {ε α : Type} {gdb : ε → Bool} {entry : ε → α} (l : List ε) (i : Nat) :
    view gdb entry (eraseGuest gdb l i) = view gdb entry l := by
  unfold eraseGuest
  split
  · rfl
  · rename_i hguest
    refine view_eraseIdx fun e he => ?_
    rw [he] at hguest
    simpa using hguest

theorem step (h : Shows env r) (c : Call) : Shows (env.step c) (r.step c) := by
  cases c with
  | insertBp vma => exact h.insertBp vma
  | removeBp vma => exact h.removeBp vma
  | removeAllBps => exact h.removeAllBps
  | insertWp vma size type => exact (h.insertWp vma size type).1
  | removeWp vma size type => exact h.removeWp vma size type
  | removeAllWps => exact h.removeAllWps
  | hwBreakpoint pc => exact h.hwBreakpoint pc
  | hwWatchpoint addr len type => exact h.hwWatchpoint addr len type
  | hwBreakpointRemove i =>
      refine ⟨?_, h.wps, fun bp hbp => h.bpFlags bp (mem_eraseGuest hbp), h.wpFlags⟩
      show ((view _ _ (eraseGuest _ _ _) : List TargetUlong) : Multiset TargetUlong) = _
      rw [view_eraseGuest]
      exact h.bps
  | hwWatchpointRemove i =>
      refine ⟨h.bps, ?_, h.bpFlags, fun wp hwp => h.wpFlags wp (mem_eraseGuest hwp)⟩
      show ((view _ _ (eraseGuest _ _ _) : List VXWatchPoint) : Multiset VXWatchPoint) = _
      rw [view_eraseGuest]
      exact h.wps
  | access hit => exact h.access hit

theorem afterCalls (calls : List Call) : Shows (afterCalls calls) (insertedBy calls) := by
  have hfold : ∀ (calls : List Call) (env : CPUArchState) (r : Inserted), Shows env r →
      Shows (calls.foldl CPUArchState.step env) (calls.foldl Inserted.step r) := by
    intro calls
    induction calls with
    | nil => intro env r h; exact h
    | cons c calls ih => intro env r h; exact ih _ _ (h.step c)
  exact hfold calls _ _ ⟨rfl, rfl, nofun, nofun⟩

end Shows

/-- After every history the queries report what was inserted and not yet removed, and a
watchpoint can be inserted exactly when it is acceptable. -/
theorem registry_reports (calls : List Call) (n : Nat) :
    ((afterCalls calls).vx64QueryBps n).Reports (insertedBy calls).bps n ∧
      ((afterCalls calls).vx64QueryWps n).Reports (insertedBy calls).wps n ∧
      ∀ vma size type, ((afterCalls calls).vx64InsertWp vma size type).1 = .VXERR_OK ↔
        Acceptable vma size type := by
  have h := Shows.afterCalls calls
  refine ⟨?_, ?_, fun vma size type => (h.insertWp vma size type).2⟩
  · rw [← h.bps]
    exact queryLoop_reports _ n
  · rw [← h.wps]
    exact queryLoop_reports _ n

end Vin64.Vx64
