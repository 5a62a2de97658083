import Vin64.Vram.Proofs.Stable

/-!
# The bytes of a direct write or read

The sum of the offset and the length is compared with the page size as a `SIZE_T`.  The
results here are about a call that copies through a buffer found by some `access`, as both
managers do.
-/

namespace Vin64.Vram

open Vin64.Lib Vin64.Lib.Op Vin64.Utils RamManager

variable {s u v : RamManager} {t : Target} {access : Ram Buffer} {call : Ram (List UInt8)}
  {pb off cb : Nat} {b : Buffer}

/-- The offset and the length of a direct write or read. -/
def Call.range : Call → Option (Nat × Nat)
  | .directWrite _ off _ cb => some (off, cb)
  | .directRead _ off cb => some (off, cb)
  | _ => none

namespace RamManager

/-- The RAM and the page file are as before. -/
def SamePages (s u : RamManager) : Prop := u.mRamData = s.mRamData ∧ u.storage = s.storage

/-- The buffer is the block's own page, or the temporary page with what the file has of it. -/
def OwnCopy (s v : RamManager) (pb : Nat) : Buffer → Prop
  | .ram addr => ¬ s.IsSwapped pb ∧ addr = (s.blocks pb).addr
  | .temp => s.IsSwapped pb ∧ v.mTemp = s.filePage (s.blocks pb).swapid

/-- In the RAM, only bytes of the range changed. -/
def ChangesRange (s u : RamManager) (b : Buffer) (off cb : Nat) : Prop :=
  ∀ a, u.mRamData a ≠ s.mRamData a → ∃ addr, b = .ram addr ∧ addr + off ≤ a ∧ a < addr + off + cb

/-- The page of a swapped out block cannot be loaded. -/
def LoadFails (s : RamManager) (a : Access) (pb : Nat) : Prop :=
  s.IsSwapped pb ∧ ¬ (a = .ok ∧ uOffset (s.blocks pb).swapid < 2 ^ 63)

end RamManager

/-- The call fails and leaves all pages, or it ends and its `memcpy` moves bytes of the
block's page, or of the copy of it, from `off` on. -/
def StaysInPage (access : Ram Buffer) (call : Ram (List UInt8)) (pb off cb : Nat)
    (s : RamManager) : Prop :=
  (∃ h u, call s = some (.error h, u) ∧ s.SamePages u) ∨
    off + cb ≤ VM_PAGE_SIZE ∧ ∃ b v r u, access s = some (.ok b, v) ∧ s.SamePages v ∧
      (s.OwnCopy v pb b ∨ cb = 0) ∧ call s = some (r, u) ∧ s.ChangesRange u b off cb

/-- What the call does in each case; a `memcpy` that leaves the page has no result. -/
structure Copies (t : Target) (access : Ram Buffer) (call : Ram (List UInt8)) (off cb : Nat)
    (s : RamManager) : Prop where
  stops : (off + cb) % 2 ^ t.sizeBits > VM_PAGE_SIZE → call s = some (.error .E_FAIL, s)
  fails : ∀ {h v}, ¬ (off + cb) % 2 ^ t.sizeBits > VM_PAGE_SIZE →
    access s = some (.error h, v) → call s = some (.error h, v)
  moves : ∀ {b v}, ¬ (off + cb) % 2 ^ t.sizeBits > VM_PAGE_SIZE → access s = some (.ok b, v) →
    v.Holds b → off + cb ≤ VM_PAGE_SIZE →
    ∃ r u, call s = some (r, u) ∧ v.ChangesRange u b off cb ∧ (b = .temp ∨ ∃ bytes, r = .ok bytes)
  faults : ∀ {b v}, ¬ (off + cb) % 2 ^ t.sizeBits > VM_PAGE_SIZE → access s = some (.ok b, v) →
    ¬ off + cb ≤ VM_PAGE_SIZE → call s = none

theorem ChangesRange.of_ram (h : u.mRamData = s.mRamData) : s.ChangesRange u b off cb := by
  intro a ha
  rw [h] at ha
  exact absurd rfl ha

theorem changesRange_setPage {p : Page}
    (hp : ∀ k : Fin 4096, p k ≠ s.page b k → off ≤ k ∧ (k : Nat) < off + cb) :
    s.ChangesRange (s.setPage b p) b off cb := by
  cases b with
  | temp => exact ChangesRange.of_ram rfl
  | ram addr =>
      intro a ha
      have hblit : blit s.mRamData addr p a ≠ s.mRamData a := ha
      unfold blit at hblit
      by_cases hin : addr ≤ a ∧ a - addr < 4096
      · rw [dif_pos hin] at hblit
        have hpage : s.page (.ram addr) ⟨a - addr, hin.2⟩ = s.mRamData a := by
          show s.mRamData (addr + (a - addr)) = s.mRamData a
          rw [Nat.add_sub_cancel' hin.1]
        rw [← hpage] at hblit
        have hrange := hp _ hblit
        have hlow : off ≤ a - addr := hrange.1
        have hhigh : a - addr < off + cb := hrange.2
        exact ⟨addr, rfl, by omega, by omega⟩
      · rw [dif_neg hin] at hblit
        exact absurd rfl hblit

theorem copies_write (t : Target) (access : Ram Buffer) (store : Access) (pb off : Nat)
    (p : Nat → UInt8) (cb : Nat) (s : RamManager)
    (htemp : ∀ b v, access s = some (.ok b, v) → v.IsSwapped pb → b = .temp) :
    Copies t access (writeThrough t access store pb off p cb >>= fun _ => pure []) off cb s where
  stops := by
    intro hbig
    unfold writeThrough
    rw [if_pos hbig]
    rfl
  fails := by
    intro h v hsmall hacc
    unfold writeThrough
    rw [if_neg hsmall]
    exact bind_error (bind_error hacc)
  moves := by
    intro b v hsmall hacc hb hle
    have hput : v.ChangesRange (v.setPage b fun k =>
        if off ≤ (k : Nat) ∧ (k : Nat) < off + cb then p (k - off) else v.page b k) b off cb := by
      apply changesRange_setPage
      intro k hk
      by_cases hin : off ≤ (k : Nat) ∧ (k : Nat) < off + cb
      · exact hin
      · rw [if_neg hin] at hk
        exact absurd rfl hk
    have hwp : wp (writeThrough t access store pb off p cb >>= fun _ => (pure [] : Ram (List UInt8)))
        (fun _ u => v.ChangesRange u b off cb)
        (fun _ u => v.ChangesRange u b off cb ∧ b = .temp) s := by
      unfold writeThrough
      rw [if_neg hsmall, wp_bind, wp_bind, wp_of_ok hacc]
      simp only [copyInto, wp_bind, wp_readPage, wp_ite, wp_writePage, wp_fault, wp_blockAt, wp_pure]
      refine ⟨hb, fun _ => ⟨hb, fun _ => hput, ?_⟩, fun hgt => absurd hle hgt⟩
      intro hswap
      have hout : v.IsSwapped pb := by
        unfold IsSwapped
        cases b <;> exact hswap
      obtain rfl := htemp b v hacc hout
      apply wp_storeToStorage (b := .temp) trivial
      · exact fun _ _ => ChangesRange.of_ram rfl
      · exact fun _ => ⟨ChangesRange.of_ram rfl, rfl⟩
      · exact fun _ _ => ⟨ChangesRange.of_ram rfl, rfl⟩
    obtain ⟨r, u, hr⟩ := wp_result hwp
    refine ⟨r, u, hr, ?_⟩
    cases r with
    | ok bytes =>
        have hrange := wp_ok hwp hr
        exact ⟨hrange, .inr ⟨bytes, rfl⟩⟩
    | error h =>
        obtain ⟨hrange, htmp⟩ := wp_error hwp hr
        exact ⟨hrange, .inl htmp⟩
  faults := by
    intro b v hsmall hacc hgt
    apply fault_of_not_wp
    unfold writeThrough
    rw [if_neg hsmall, wp_bind, wp_bind, wp_of_ok hacc]
    simp [copyInto, hgt]

theorem copies_read (t : Target) (access : Ram Buffer) (off cb : Nat) (s : RamManager) :
    Copies t access (readThrough t access off cb) off cb s where
  stops := by
    intro hbig
    unfold readThrough
    rw [if_pos hbig]
    rfl
  fails := by
    intro h v hsmall hacc
    unfold readThrough
    rw [if_neg hsmall]
    exact bind_error hacc
  moves := by
    intro b v hsmall hacc hb hle
    have hle' : off + cb ≤ 4096 := hle
    have hwp : wp (readThrough t access off cb) (fun _ u => u = v) (fun _ _ => False) s := by
      unfold readThrough copyFrom
      rw [if_neg hsmall, wp_bind, wp_of_ok hacc]
      simp [hb, hle']
    obtain ⟨bytes, u, hr, rfl⟩ := ok_of_wp hwp
    exact ⟨_, u, hr, ChangesRange.of_ram rfl, .inr ⟨bytes, rfl⟩⟩
  faults := by
    intro b v hsmall hacc hgt
    have hgt' : ¬ off + cb ≤ 4096 := hgt
    apply fault_of_not_wp
    unfold readThrough copyFrom
    rw [if_neg hsmall, wp_bind, wp_of_ok hacc]
    simp [hgt']

/-- In a state where `access` finds a buffer of the manager or fails without touching a page,
the call stays in the page of the block in these cases only. -/
theorem Copies.staysInPage_iff (hc : Copies t access call off cb s)
    (hacc : (∃ h v, access s = some (.error h, v) ∧ s.SamePages v) ∨
      ∃ b v, access s = some (.ok b, v) ∧ s.SamePages v ∧ v.Holds b ∧
        (b = .temp → s.OwnCopy v pb b)) :
    StaysInPage access call pb off cb s ↔ (off + cb) % 2 ^ t.sizeBits > VM_PAGE_SIZE ∨
      (∃ h v, access s = some (.error h, v)) ∨ off + cb ≤ VM_PAGE_SIZE ∧
        ∃ b v, access s = some (.ok b, v) ∧ (s.OwnCopy v pb b ∨ cb = 0) := by
  by_cases hbig : (off + cb) % 2 ^ t.sizeBits > VM_PAGE_SIZE
  · exact iff_of_true (.inl ⟨_, _, hc.stops hbig, rfl, rfl⟩) (.inl hbig)
  rcases hacc with ⟨h, v, hv, hsame⟩ | ⟨b, v, hv, hsame, hb, htemp⟩
  · exact iff_of_true (.inl ⟨_, _, hc.fails hbig hv, hsame⟩) (.inr (.inl ⟨h, v, hv⟩))
  constructor
  · intro hstays
    rcases hstays with ⟨h, u, hu, -⟩ | ⟨hle, b', v', r, u, hv', -, hown, -⟩
    · by_cases hle : off + cb ≤ VM_PAGE_SIZE
      · obtain ⟨r, u', hr, -, hend⟩ := hc.moves hbig hv hb hle
        rcases hend with htmp | ⟨bytes, rfl⟩
        · exact .inr (.inr ⟨hle, b, v, hv, .inl (htemp htmp)⟩)
        · rw [hu] at hr
          simp at hr
      · rw [hc.faults hbig hv hle] at hu
        simp at hu
    · exact .inr (.inr ⟨hle, b', v', hv', hown⟩)
  · intro hcond
    rcases hcond with hbig' | ⟨h, v', hv'⟩ | ⟨hle, b', v', hv', hown⟩
    · exact absurd hbig' hbig
    · rw [hv] at hv'
      simp at hv'
    · obtain ⟨rfl, rfl⟩ : b = b' ∧ v = v' := by simpa [hv] using hv'
      obtain ⟨r, u, hr, hrange, -⟩ := hc.moves hbig hv hb hle
      refine .inr ⟨hle, b, v, r, u, hv, hsame, hown, hr, ?_⟩
      intro a ha
      rw [← hsame.1] at ha
      exact hrange a ha

/-! ## The buffer of a block -/

/-- The buffer that a direct access with the temporary page finds; `base` takes the address
of a resident block to the place of its buffer. -/
def tempAccess (load : Access) (base : Nat → Nat) (pb : Nat) : Ram Buffer := do
  let b ← blockAt pb
  if b.flags = 0#32 then fail .E_UNEXPECTED
  else if b.flags &&& BF_SWAPPED ≠ 0#32 then do
    loadFromStorage load b.swapid .temp
    return .temp
  else return .ram (base b.addr)

theorem access_eq_tempAccess (e : Env) (pb : Nat) :
    ramDirectAccess e pb (some .temp) = tempAccess e.load id pb := rfl

variable {load : Access} {base : Nat → Nat}

theorem tempAccess_resident (load : Access) (base : Nat → Nat)
    (hflags : (s.blocks pb).flags ≠ 0#32) (hres : ¬ s.IsSwapped pb) :
    tempAccess load base pb s = some (.ok (.ram (base (s.blocks pb).addr)), s) := by
  have hres' : ¬ (s.blocks pb).flags &&& BF_SWAPPED ≠ 0#32 := hres
  have hblock : (blockAt pb : Ram RamBlock) s = some (.ok (s.blocks pb), s) := rfl
  unfold tempAccess
  rw [bind_ok hblock, if_neg hflags, if_neg hres']
  rfl

theorem tempAccess_swapped (load : Access) (base : Nat → Nat)
    (hflags : (s.blocks pb).flags ≠ 0#32) (hswap : s.IsSwapped pb) :
    wp (tempAccess load base pb)
      (fun b v => b = .temp ∧ s.SamePages v ∧ s.OwnCopy v pb .temp ∧ ¬ s.LoadFails load pb)
      (fun _ v => s.SamePages v ∧ s.LoadFails load pb) s := by
  have hswap' : (s.blocks pb).flags &&& BF_SWAPPED ≠ 0#32 := hswap
  unfold tempAccess
  rw [wp_bind, wp_blockAt, if_neg hflags, if_pos hswap', wp_bind]
  apply wp_loadFromStorage (b := .temp) trivial
  · intro hload hlt
    exact ⟨rfl, ⟨rfl, rfl⟩, ⟨hswap, rfl⟩, fun hfails => hfails.2 ⟨hload, hlt⟩⟩
  · intro hseek
    refine ⟨⟨rfl, rfl⟩, hswap, fun hok => hseek ?_⟩
    unfold seeks
    simpa [hok.1] using hok.2
  · intro hload
    exact ⟨⟨rfl, rfl⟩, hswap, fun hok => hload hok.1⟩

/-- Only the temporary page is found of a block that is swapped out. -/
theorem tempAccess_temp {b : Buffer} (h : tempAccess load base pb s = some (.ok b, v))
    (hswap : v.IsSwapped pb) : b = .temp := by
  have hwlp : wlp (tempAccess load base pb) (fun b v => v.IsSwapped pb → b = .temp)
      (fun _ _ => True) s := by
    simp only [tempAccess, wlp_bind, wlp_blockAt, wlp_ite, wlp_fail, wlp_pure]
    refine ⟨fun _ => trivial, fun _ => ⟨fun _ => ?_, fun hres hout => absurd hout hres⟩⟩
    apply wlp_loadFromStorage
    · exact fun _ _ _ => trivial
    · exact fun _ => trivial
    · exact fun _ _ => trivial
  exact wlp_ok hwlp h hswap

/-- Where the buffer of a resident block may be elsewhere than at its address, a direct call
stays in the page of the block in these cases only. -/
theorem staysInPage_iff (hc : Copies t (tempAccess load base pb) call off cb s) (hs : s.Housed)
    (hbase : ∀ a, base a ≤ a) (hvalid : s.Valid pb) :
    StaysInPage (tempAccess load base pb) call pb off cb s ↔
      (off + cb) % 2 ^ t.sizeBits > VM_PAGE_SIZE ∨ s.LoadFails load pb ∨
        off + cb ≤ VM_PAGE_SIZE ∧
          (s.IsSwapped pb ∨ base (s.blocks pb).addr = (s.blocks pb).addr ∨ cb = 0) := by
  have hflags : (s.blocks pb).flags ≠ 0#32 := flags_ne_of_valid hvalid
  by_cases hswap : s.IsSwapped pb
  · have hwp := tempAccess_swapped load base hflags hswap
    obtain ⟨r, v, hr⟩ := wp_result hwp
    cases r with
    | error h =>
        obtain ⟨hsame, hfails⟩ := wp_error hwp hr
        exact iff_of_true ((hc.staysInPage_iff (.inl ⟨h, v, hr, hsame⟩)).2 (.inr (.inl ⟨h, v, hr⟩)))
          (.inr (.inl hfails))
    | ok b =>
        obtain ⟨rfl, hsame, hown, hloads⟩ := wp_ok hwp hr
        have hfinds : ∃ b w, tempAccess load base pb s = some (.ok b, w) ∧
            (s.OwnCopy w pb b ∨ cb = 0) := ⟨_, v, hr, .inl hown⟩
        have hends : ¬ ∃ h w, tempAccess load base pb s = some (.error h, w) := by simp [hr]
        rw [hc.staysInPage_iff (.inr ⟨_, v, hr, hsame, trivial, fun _ => hown⟩)]
        simp only [hfinds, hends, hloads, hswap, true_or]
  · have hr := tempAccess_resident load base hflags hswap
    have hholds : s.Holds (.ram (base (s.blocks pb).addr)) := by
      have hslot : (s.blocks pb).addr + VM_PAGE_SIZE ≤ s.ramSize := hs pb hflags hswap
      have hle := hbase (s.blocks pb).addr
      show base (s.blocks pb).addr + VM_PAGE_SIZE ≤ s.ramSize
      omega
    rw [hc.staysInPage_iff (.inr ⟨_, s, hr, ⟨rfl, rfl⟩, hholds, fun h => by cases h⟩)]
    simp [hr, hswap, LoadFails, OwnCopy]

end Vin64.Vram
