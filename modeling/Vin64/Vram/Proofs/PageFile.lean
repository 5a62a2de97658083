import Vin64.Vram.Proofs.Ops
import Vin64.Vram.PageFile
import Vin64.Lib.Run

/-!
# What comes back from the page file

Where the handle may be read, a load returns the page last stored.  The handle that `Create`
opens may only be written.
-/

namespace Vin64.Vram.PageFile

open Vin64.Lib Vin64.Lib.Op Vin64.Vram

variable {s t : Storage} {vs : List Store} {index : Nat} {access : BitVec 32}
  {E : HRESULT → Storage → Prop}

/-! ## One access -/

theorem wp_setFilePointer {liDist : Nat} {Q : Unit → Storage → Prop} :
    wp (setFilePointer liDist) Q E s ↔
      (liDist < 2 ^ 63 → Q () { s with pos := liDist }) ∧ (¬ liDist < 2 ^ 63 → E .E_FAIL s) := by
  unfold setFilePointer
  rw [wp_ite]
  rfl

theorem uOffset_of_lt {index : Nat} (h : index < 2 ^ 51) : uOffset index = index * 4096 :=
  Nat.mod_eq_of_lt (by unfold VM_PAGE_SIZE; omega)

/-- The two computations of the offset agree. -/
theorem shift_eq_uOffset (index : Nat) : index <<< VM_PAGE_SHIFT % 2 ^ 64 = uOffset index := by
  rw [shiftLeft_page]
  rfl

/-- The file after a store. -/
def Storage.stored (s : Storage) (index : Nat) : Storage :=
  { s with
    oBlock := codeBlockPage s.oBlock
    bytes := blit s.bytes (uOffset index) (codeBlockPage s.oBlock)
    size := max s.size (uOffset index + VM_PAGE_SIZE)
    pos := uOffset index + VM_PAGE_SIZE }

theorem store_eq (hwrite : s.access &&& GENERIC_WRITE ≠ 0#32) (hlt : uOffset index < 2 ^ 63) :
    storeToStorage index s = some (.ok (), s.stored index) := by
  apply eq_ok_of_wp
  simp only [storeToStorage, shift_eq_uOffset, wp_bind, wp_setFilePointer, codeBlock, wp_modify,
    writeFile, wp_get, wp_ite, wp_fail, wp_pure, hwrite, false_implies, true_and, not_false_eq_true,
    true_implies, ne_eq, not_true_eq_false, hlt, and_true]
  rfl

/-- A load of a page that is not all in the file is short. -/
def Storage.loaded (s : Storage) (index : Nat) : Storage :=
  { s with
    oBlock := splice (min VM_PAGE_SIZE (s.size - uOffset index))
      (window s.bytes 4096 (uOffset index)) s.oBlock
    pos := uOffset index + min VM_PAGE_SIZE (s.size - uOffset index) }

theorem wp_load {Q : Unit → Storage → Prop} : wp (loadFromStorage index) Q E s ↔
    (uOffset index < 2 ^ 63 →
      (s.access &&& GENERIC_READ = 0#32 → E .E_FAIL { s with pos := uOffset index }) ∧
      (s.access &&& GENERIC_READ ≠ 0#32 →
        (min VM_PAGE_SIZE (s.size - uOffset index) ≠ VM_PAGE_SIZE → E .E_FAIL (s.loaded index)) ∧
        (¬ min VM_PAGE_SIZE (s.size - uOffset index) ≠ VM_PAGE_SIZE →
          Q () { s.loaded index with oBlock := codeBlockPage (s.loaded index).oBlock }))) ∧
    (¬ uOffset index < 2 ^ 63 → E .E_FAIL s) := by
  have hoff : index * VM_PAGE_SIZE % 2 ^ 64 = uOffset index := rfl
  simp only [loadFromStorage, hoff, wp_bind, wp_setFilePointer, codeBlock, wp_modify, readFile,
    wp_get, wp_ite, wp_fail, wp_pure]
  rfl

/-- A load returns the page at the index, uncoded, where the handle may be read. -/
theorem load_eq (index : Nat) (hread : s.access &&& GENERIC_READ ≠ 0#32)
    (hlt : uOffset index < 2 ^ 63) (hsize : uOffset index + VM_PAGE_SIZE ≤ s.size) :
    loadFromStorage index s = some (.ok (),
      { s with
        oBlock := codeBlockPage (window s.bytes 4096 (uOffset index))
        pos := uOffset index + VM_PAGE_SIZE }) := by
  have hmin : min VM_PAGE_SIZE (s.size - uOffset index) = VM_PAGE_SIZE := by omega
  have hall : (s.loaded index).oBlock = window s.bytes 4096 (uOffset index) := by
    unfold Storage.loaded
    rw [hmin]
    exact splice_of_le _ _ (Nat.le_refl _)
  apply eq_ok_of_wp
  rw [wp_load, hall]
  unfold Storage.loaded
  rw [hmin]
  exact ⟨fun _ => ⟨fun h => absurd h hread, fun _ => ⟨fun h => absurd rfl h, fun _ => ⟨rfl, rfl⟩⟩⟩,
    fun h => absurd hlt h⟩

/-- Without the right to read, every load fails. -/
theorem load_denied (s : Storage) (index : Nat) (hread : s.access &&& GENERIC_READ = 0#32) :
    ∃ u, loadFromStorage index s = some (.error .E_FAIL, u) := by
  by_cases hlt : uOffset index < 2 ^ 63
  · exact ⟨_, eq_error_of_wp (wp_load.2
      ⟨fun _ => ⟨fun _ => ⟨rfl, rfl⟩, fun h => absurd hread h⟩, fun h => absurd hlt h⟩)⟩
  · exact ⟨_, eq_error_of_wp (wp_load.2 ⟨fun h => absurd h hlt, fun _ => ⟨rfl, rfl⟩⟩)⟩

/-! ## Runs of stores -/

/-- No access changes the rights of the handle. -/
theorem store_access (a : BitVec 32) (index : Nat) :
    Preserves (fun s => s.access = a) (storeToStorage index) := by
  have hseek : ∀ d, Preserves (fun s : Storage => s.access = a) (setFilePointer d) :=
    fun d => .ite (.modify fun _ h => h) (.fail _)
  have hcode : Preserves (fun s : Storage => s.access = a) codeBlock := .modify fun _ h => h
  have hwrite : Preserves (fun s : Storage => s.access = a) writeFile := by
    apply Preserves.get.bind
    intro u
    apply Preserves.ite (.fail _)
    apply Preserves.bind
    · exact .modify fun _ h => h
    · exact fun _ => .pure _
  unfold storeToStorage
  exact (hseek _).bind fun _ => hcode.bind fun _ => hwrite.bind fun _ => .ite (.fail _) (.pure _)

theorem step_access {v : Store} (h : step s v t) : t.access = s.access := by
  obtain ⟨r, hr⟩ := h
  have hsame : ({ s with oBlock := v.page } : Storage).access = s.access := rfl
  exact (store_access s.access v.index).result hsame hr

theorem run_access (h : Run step s vs t) : t.access = s.access :=
  h.invariant (P := fun u => u.access = s.access) rfl fun _ _ _ hu hstep =>
    (step_access hstep).trans hu

/-- The pages last stored lie in the file, coded. -/
def Kept (vs : List Store) (s : Storage) : Prop :=
  ∀ index page, lastStored vs index = some page →
    index < 2 ^ 51 ∧ index * 4096 + VM_PAGE_SIZE ≤ s.size ∧
      window s.bytes 4096 (index * 4096) = codeBlockPage page

theorem step_kept {v : Store} (hwrite : s.access &&& GENERIC_WRITE ≠ 0#32) (hv : v.index < 2 ^ 51)
    (hs : Kept vs s) (h : step s v t) : Kept (v :: vs) t := by
  obtain ⟨r, hr⟩ := h
  have hoff : uOffset v.index = v.index * 4096 := uOffset_of_lt hv
  have hlt : uOffset v.index < 2 ^ 63 := by omega
  have heq := store_eq (s := { s with oBlock := v.page }) hwrite hlt
  obtain ⟨-, rfl⟩ := outcome_unique hr heq
  intro index page hpage
  unfold Storage.stored
  rw [hoff]
  unfold lastStored at hpage
  by_cases hsame : v.index = index
  · rw [if_pos hsame] at hpage
    obtain rfl : v.page = page := Option.some.inj hpage
    subst hsame
    exact ⟨hv, Nat.le_max_right _ _, window_blit_self _ _ _⟩
  · rw [if_neg hsame] at hpage
    obtain ⟨hindex, hsize, hwindow⟩ := hs index page hpage
    refine ⟨hindex, Nat.le_trans hsize (Nat.le_max_left _ _), ?_⟩
    rw [← hwindow]
    exact window_blit_of_ne _ _ (Ne.symm hsame)

theorem run_kept (hwrite : access &&& GENERIC_WRITE ≠ 0#32) (hvs : ∀ v ∈ vs, v.index < 2 ^ 51)
    (h : Run step (createFile access) vs s) : Kept vs s := by
  induction h with
  | nil =>
      intro index page hpage
      cases hpage
  | snoc hrun hstep ih =>
      have hacc : _ = access := run_access hrun
      rw [← hacc] at hwrite
      exact step_kept hwrite (hvs _ (List.mem_cons_self ..))
        (ih fun v hv => hvs v (List.mem_cons_of_mem _ hv)) hstep

/-- A file that may be written gives back what was stored exactly when it may be read too. -/
theorem loadsBack_iff_readable (hwrite : access &&& GENERIC_WRITE ≠ 0#32)
    (hvs : ∀ v ∈ vs, v.index < 2 ^ 51) (hrun : Run step (createFile access) vs s) {page : Page}
    (hstored : lastStored vs index = some page) :
    LoadsBack vs s index ↔ access &&& GENERIC_READ ≠ 0#32 := by
  have hacc : s.access = access := run_access hrun
  constructor
  · intro h hread
    obtain ⟨s', hload, -⟩ := h page hstored page
    obtain ⟨u, hu⟩ := load_denied { s with oBlock := page } index (by rw [← hread, ← hacc])
    rw [hu] at hload
    simp at hload
  · intro hread q hq buf
    obtain ⟨hindex, hsize, hwindow⟩ := run_kept hwrite hvs hrun index q hq
    have hoff : uOffset index = index * 4096 := uOffset_of_lt hindex
    have hread' : ({ s with oBlock := buf } : Storage).access &&& GENERIC_READ ≠ 0#32 := by
      rwa [← hacc] at hread
    have hload := load_eq index hread' (by omega) (by rwa [hoff])
    refine ⟨_, hload, ?_⟩
    show codeBlockPage (window s.bytes 4096 (uOffset index)) = q
    rw [hoff, hwindow, codeBlockPage_codeBlockPage]

/-- On the file that `Create` opens, no page comes back. -/
theorem created_never_loadsBack (hrun : Run step create vs s) {page : Page}
    (hstored : lastStored vs index = some page) : ¬ LoadsBack vs s index := by
  intro h
  have hacc : s.access = GENERIC_WRITE := run_access hrun
  obtain ⟨s', hload, -⟩ := h page hstored page
  obtain ⟨u, hu⟩ := load_denied { s with oBlock := page } index
    (by show s.access &&& GENERIC_READ = 0#32; rw [hacc]; decide)
  rw [hu] at hload
  simp at hload

/-- A page stored on a file that may be read and written. -/
theorem readable_loadsBack : ∃ s,
    Run step (createFile (GENERIC_READ ||| GENERIC_WRITE)) [⟨3, fun _ => 7⟩] s ∧
      LoadsBack [⟨3, fun _ => 7⟩] s 3 := by
  have hrun : ∃ s, Run step (createFile (GENERIC_READ ||| GENERIC_WRITE)) [⟨3, fun _ => 7⟩] s :=
    ⟨_, .snoc .nil ⟨_, store_eq (by decide) (by decide)⟩⟩
  obtain ⟨s, hs⟩ := hrun
  exact ⟨s, hs, (loadsBack_iff_readable (by decide) (by decide) hs rfl).2 (by decide)⟩

theorem created_loses_page : ∃ s, Run step create [⟨3, fun _ => 7⟩] s ∧
    ¬ LoadsBack [⟨3, fun _ => 7⟩] s 3 := by
  have hrun : ∃ s, Run step create [⟨3, fun _ => 7⟩] s :=
    ⟨_, .snoc .nil ⟨_, store_eq (by decide) (by decide)⟩⟩
  obtain ⟨s, hs⟩ := hrun
  exact ⟨s, hs, created_never_loadsBack hs rfl⟩

/-- One page is stored on the file that `Create` opens; the load fails. -/
theorem created_load_fails : ∃ s u, Run step create [⟨3, fun _ => 7⟩] s ∧
    loadFromStorage 3 s = some (.error .E_FAIL, u) ∧ ¬ LoadsBack [⟨3, fun _ => 7⟩] s 3 := by
  have hrun : ∃ s, Run step create [⟨3, fun _ => 7⟩] s ∧ s.access &&& GENERIC_READ = 0#32 :=
    ⟨_, .snoc .nil ⟨_, store_eq (by decide) (by decide)⟩, by decide⟩
  obtain ⟨s, hs, hread⟩ := hrun
  obtain ⟨u, hu⟩ := load_denied s 3 hread
  refine ⟨s, u, hs, hu, fun h => ?_⟩
  obtain ⟨s', hload, -⟩ := h _ rfl s.oBlock
  have hsame : ({ s with oBlock := s.oBlock } : Storage) = s := rfl
  rw [hsame, hu] at hload
  simp at hload

/-! ## The page file of the manager -/

/-- The manager's page file has the bytes of the file, and its temporary page is the buffer. -/
structure Backs (x : Storage) (s : RamManager) : Prop where
  bytes : s.storage = x.bytes
  buffer : s.mTemp = x.oBlock

/-- What a store meets on the handle. -/
def Storage.storeAccess (x : Storage) : Access :=
  if x.access &&& GENERIC_WRITE = 0#32 then .short 0 else .ok

/-- What a load of a page meets on the handle. -/
def Storage.loadAccess (x : Storage) (index : Nat) : Access :=
  if x.access &&& GENERIC_READ = 0#32 then .short 0
  else if uOffset index + VM_PAGE_SIZE ≤ x.size then .ok
  else .short (x.size - uOffset index)

theorem seeks_of_lt {a : Access} (ha : a ≠ .noSeek) (hlt : uOffset index < 2 ^ 63) :
    seeks a (uOffset index) = true :=
  decide_eq_true ⟨ha, hlt⟩

theorem not_seeks {a : Access} (hlt : ¬ uOffset index < 2 ^ 63) :
    ¬ seeks a (uOffset index) = true :=
  fun h => hlt (of_decide_eq_true h).2

/-- A load of the manager is one through the handle. -/
theorem load_backs {x : Storage} {m : RamManager} (h : Backs x m) (index : Nat) : ∃ r x' m',
    loadFromStorage index x = some (r, x') ∧
      Vram.loadFromStorage (x.loadAccess index) index .temp m = some (r, m') ∧ Backs x' m' := by
  by_cases hlt : uOffset index < 2 ^ 63
  · by_cases hread : x.access &&& GENERIC_READ = 0#32
    · have hacc : x.loadAccess index = .short 0 := if_pos hread
      refine ⟨.error .E_FAIL, { x with pos := uOffset index },
        m.setPage .temp (m.fetched (.short 0) index .temp), ?_, ?_, h.bytes, ?_⟩
      · exact eq_error_of_wp (wp_load.2
          ⟨fun _ => ⟨fun _ => ⟨rfl, rfl⟩, fun h => absurd hread h⟩, fun h => absurd hlt h⟩)
      · rw [hacc]
        apply eq_error_of_wp
        apply wp_loadFromStorage (b := .temp) trivial
        · intro hok
          cases hok
        · exact fun hseek => absurd (seeks_of_lt (by simp) hlt) hseek
        · exact fun _ => ⟨rfl, rfl⟩
      · rw [← h.buffer]
        rfl
    · by_cases hsize : uOffset index + VM_PAGE_SIZE ≤ x.size
      · have hacc : x.loadAccess index = .ok := by
          unfold Storage.loadAccess
          rw [if_neg hread, if_pos hsize]
        refine ⟨.ok (), _, m.setPage .temp (m.filePage index), load_eq index hread hlt hsize, ?_,
          h.bytes, ?_⟩
        · rw [hacc]
          apply eq_ok_of_wp
          apply wp_loadFromStorage (b := .temp) trivial
          · exact fun _ _ => ⟨rfl, rfl⟩
          · exact fun hseek => absurd (seeks_of_lt (by simp) hlt) hseek
          · exact fun hne => absurd rfl hne
        · show codeBlockPage (window m.storage 4096 (uOffset index)) = _
          rw [h.bytes]
      · have hacc : x.loadAccess index = .short (x.size - uOffset index) := by
          unfold Storage.loadAccess
          rw [if_neg hread, if_neg hsize]
        have hmin : min VM_PAGE_SIZE (x.size - uOffset index) = x.size - uOffset index := by omega
        have hne : x.size - uOffset index ≠ VM_PAGE_SIZE := by
          unfold VM_PAGE_SIZE at hsize ⊢
          omega
        refine ⟨.error .E_FAIL, x.loaded index,
          m.setPage .temp (m.fetched (.short (x.size - uOffset index)) index .temp), ?_, ?_,
          h.bytes, ?_⟩
        · apply eq_error_of_wp
          rw [wp_load, hmin]
          exact ⟨fun _ => ⟨fun h => absurd h hread, fun _ => ⟨fun _ => ⟨rfl, rfl⟩, fun h => h hne⟩⟩,
            fun h => absurd hlt h⟩
        · rw [hacc]
          apply eq_error_of_wp
          apply wp_loadFromStorage (b := .temp) trivial
          · intro hok
            cases hok
          · exact fun hseek => absurd (seeks_of_lt (by simp) hlt) hseek
          · exact fun _ => ⟨rfl, rfl⟩
        · show splice _ (window m.storage 4096 (uOffset index)) m.mTemp = splice _ _ _
          rw [h.bytes, h.buffer, hmin]
          rfl
  · refine ⟨.error .E_FAIL, x, m, ?_, ?_, h⟩
    · exact eq_error_of_wp (wp_load.2 ⟨fun h => absurd h hlt, fun _ => ⟨rfl, rfl⟩⟩)
    · unfold Vram.loadFromStorage
      rw [if_pos (not_seeks hlt)]
      rfl

/-- A store of the manager is one through the handle. -/
theorem store_backs {x : Storage} {m : RamManager} (h : Backs x m) (index : Nat) : ∃ r x' m',
    storeToStorage index x = some (r, x') ∧
      Vram.storeToStorage x.storeAccess index .temp m = some (r, m') ∧ Backs x' m' := by
  by_cases hlt : uOffset index < 2 ^ 63
  · by_cases hwrite : x.access &&& GENERIC_WRITE = 0#32
    · have hacc : x.storeAccess = .short 0 := if_pos hwrite
      refine ⟨.error .E_FAIL, { x with oBlock := codeBlockPage x.oBlock, pos := uOffset index },
        m.stored (.short 0) index .temp, ?_, ?_, ?_, ?_⟩
      · apply eq_error_of_wp
        simp only [storeToStorage, shift_eq_uOffset, wp_bind, wp_setFilePointer, codeBlock, wp_modify,
          writeFile, wp_get, wp_ite, wp_fail]
        exact ⟨fun _ => ⟨fun _ => ⟨trivial, trivial⟩, fun h => absurd hwrite h⟩, fun h => absurd hlt h⟩
      · rw [hacc]
        apply eq_error_of_wp
        apply wp_storeToStorage (b := .temp) trivial
        · intro hok
          cases hok
        · exact fun hseek => absurd (seeks_of_lt (by simp) hlt) hseek
        · exact fun _ _ => ⟨rfl, rfl⟩
      · show blit m.storage (uOffset index) (window m.storage 4096 (uOffset index)) = x.bytes
        rw [blit_window, h.bytes]
      · show codeBlockPage m.mTemp = codeBlockPage x.oBlock
        rw [h.buffer]
    · have hacc : x.storeAccess = .ok := if_neg hwrite
      refine ⟨.ok (), _, m.stored .ok index .temp, store_eq hwrite hlt, ?_, ?_, ?_⟩
      · rw [hacc]
        apply eq_ok_of_wp
        apply wp_storeToStorage (b := .temp) trivial
        · exact fun _ _ => ⟨rfl, rfl⟩
        · exact fun hseek => absurd (seeks_of_lt (by simp) hlt) hseek
        · exact fun _ hne => absurd rfl hne
      · have hall : splice (moved .ok) (codeBlockPage m.mTemp)
            (window m.storage 4096 (uOffset index)) = codeBlockPage m.mTemp :=
          splice_of_le _ _ (Nat.le_refl _)
        show blit m.storage (uOffset index) (splice (moved .ok) (codeBlockPage m.mTemp) _) = _
        rw [hall, h.bytes, h.buffer]
        rfl
      · show codeBlockPage m.mTemp = codeBlockPage x.oBlock
        rw [h.buffer]
  · refine ⟨.error .E_FAIL, x, m, ?_, ?_, h⟩
    · apply eq_error_of_wp
      simp only [storeToStorage, shift_eq_uOffset, wp_bind, wp_setFilePointer]
      exact ⟨fun h => absurd h hlt, fun _ => ⟨trivial, trivial⟩⟩
    · unfold Vram.storeToStorage
      rw [if_pos (not_seeks hlt)]
      rfl

/-- On the file that `Create` opens every load of the manager is denied. -/
theorem created_loadAccess (hrun : Run step create vs s) (index : Nat) :
    s.loadAccess index = .short 0 := by
  have hacc : s.access = GENERIC_WRITE := run_access hrun
  unfold Storage.loadAccess
  rw [hacc]
  rfl

end Vin64.Vram.PageFile
