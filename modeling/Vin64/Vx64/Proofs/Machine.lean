import Vin64.Vx64.Proofs.RamList
import Vin64.Vx64.Proofs.Windows
import Mathlib.Data.List.Forall2

/-!
# Guest memory is a stack of windows

Setting windows up, taking them away, reading and writing, in any order: the tree of regions, the
map, the dispatch and the list of RAM blocks together do what the stack of windows says.
-/

namespace Vin64.Vx64

variable {m m' : Machine} {g : Guest} {w v : Window} {r : RamRegion} {windows : List Window}
  {regions : List RamRegion} {ram : RAMList} {n a len : Nat}

/-! ## Regions and windows -/

/-- The region shows the window: its bytes are a block of RAM. -/
structure Backs (ram : RAMList) (r : RamRegion) (w : Window) : Prop where
  fields : r.fields = w.fields
  block : ∃ b ∈ ram.blocks, b.offset = r.ramAddr ∧ b.host = w.ptr ∧ b.length = w.size

/-- `n` windows have been set up so far. -/
structure Holds (m : Machine) (g : Guest) (n : Nat) : Prop where
  memory : m.memory = g.memory
  regions : List.Forall₂ (Backs m.ram) m.subregions g.windows
  proper : ∀ w ∈ g.windows, w.Proper
  mrs : g.windows.Pairwise fun v w => v.mr ≠ w.mr
  ramAddrs : m.subregions.Pairwise fun r s => r.ramAddr ≠ s.ramAddr
  ram : m.ram.Inv
  pos : ∀ b ∈ m.ram.blocks, 0 < b.length
  limit : ∀ b ∈ m.ram.blocks, b.stop ≤ n * 4294967296
  map : ∃ b, Mapped b m.currentMap
  count : g.windows.length ≤ 780

theorem Backs.mr (h : Backs ram r w) : r.fields.mr = w.mr := congrArg RegionFields.mr h.fields

theorem fields_of_backs (h : List.Forall₂ (Backs ram) regions windows) :
    regions.map (·.fields) = windows.map Window.fields := by
  induction h with
  | nil => rfl
  | cons hback _ ih => rw [List.map_cons, List.map_cons, hback.fields, ih]

theorem Backs.mono {ram' : RAMList} (hblocks : ∀ b ∈ ram.blocks, b ∈ ram'.blocks)
    (h : Backs ram r w) : Backs ram' r w :=
  ⟨h.fields, h.block.imp fun b hb => ⟨hblocks b hb.1, hb.2⟩⟩

theorem backs_of_mem (h : List.Forall₂ (Backs ram) regions windows) (hr : r ∈ regions) :
    ∃ w ∈ windows, Backs ram r w := by
  induction h with
  | nil => exact absurd hr List.not_mem_nil
  | cons hback _ ih =>
      rcases List.mem_cons.1 hr with rfl | hr
      · exact ⟨_, List.mem_cons_self, hback⟩
      · obtain ⟨w, hw, hbacks⟩ := ih hr
        exact ⟨w, List.mem_cons_of_mem _ hw, hbacks⟩

/-- The region of a window is found by its address. -/
theorem find_of_backs (h : List.Forall₂ (Backs ram) regions windows)
    (hmrs : windows.Pairwise fun v w => v.mr ≠ w.mr) (hw : w ∈ windows) :
    ∃ r, regions.find? (·.fields.mr = w.mr) = some r ∧ r ∈ regions ∧ Backs ram r w := by
  induction h with
  | nil => exact absurd hw List.not_mem_nil
  | @cons s v regions windows hback _ ih =>
      obtain ⟨hfirst, hrest⟩ := List.pairwise_cons.1 hmrs
      rcases List.mem_cons.1 hw with rfl | hw
      · exact ⟨s, by rw [List.find?_cons, hback.mr, decide_eq_true rfl], List.mem_cons_self, hback⟩
      · obtain ⟨r, hfind, hr, hbacks⟩ := ih hrest hw
        have hne : ¬ s.fields.mr = w.mr := hback.mr ▸ hfirst w hw
        exact ⟨r, by rw [List.find?_cons, decide_eq_false hne]; exact hfind,
          List.mem_cons_of_mem _ hr, hbacks⟩

theorem erase_backs (h : List.Forall₂ (Backs ram) regions windows) (mr : Nat) :
    List.Forall₂ (Backs ram) (regions.eraseP (·.fields.mr = mr)) (windows.eraseP (·.mr = mr)) := by
  induction h with
  | nil => exact .nil
  | @cons s v regions windows hback hrest ih =>
      rw [List.eraseP_cons, List.eraseP_cons, hback.mr]
      by_cases hmr : v.mr = mr
      · rw [decide_eq_true hmr]
        exact hrest
      · rw [decide_eq_false hmr]
        exact .cons hback ih

/-- The regions that are left when one is taken away. -/
theorem ne_of_mem_eraseP (hmrs : regions.Pairwise fun r s => r.ramAddr ≠ s.ramAddr) {mr : Nat}
    (hfind : regions.find? (·.fields.mr = mr) = some r) {s : RamRegion}
    (hs : s ∈ regions.eraseP (·.fields.mr = mr)) : s.ramAddr ≠ r.ramAddr := by
  induction regions with
  | nil => exact absurd hs List.not_mem_nil
  | cons t regions ih =>
      obtain ⟨hfirst, hrest⟩ := List.pairwise_cons.1 hmrs
      rw [List.find?_cons] at hfind
      rw [List.eraseP_cons] at hs
      by_cases ht : t.fields.mr = mr
      · rw [decide_eq_true ht] at hfind hs
        obtain rfl := Option.some.inj hfind
        exact (hfirst s hs).symm
      · rw [decide_eq_false ht] at hfind hs
        rcases List.mem_cons.1 hs with rfl | hs
        · exact hfirst r (List.mem_of_find?_eq_some hfind)
        · exact ih hrest hfind hs

/-! ## Setting up and taking away -/

theorem setupRam_spec {mr : Nat} {guestPa : BitVec 64} {size : BitVec 32} {ptr : BitVec 64}
    (h : Holds m g n) (hadmits : g.Admits (.setupRam mr guestPa size ptr))
    (hn : n + 1 ≤ 2147483648) :
    ∃ m', m.vx64SetupRam mr guestPa size ptr = some m' ∧
      Holds m' (g.call (.setupRam mr guestPa size ptr)).2 (n + 1) ∧
      Serves m'.dispatch (g.call (.setupRam mr guestPa size ptr)).2.windows := by
  obtain ⟨hnew, hpa, hsize, hpos, hend, hptr, hcount⟩ := hadmits
  have hlt := size.isLt
  have halign : targetPageAlign size.toNat = size.toNat := by
    unfold targetPageAlign
    omega
  have hroom : n * 4294967296 + targetPageAlign size.toNat ≤ RAM_ADDR_MAX := by
    unfold RAM_ADDR_MAX
    omega
  obtain ⟨offset, hfind, hoffset⟩ := findRamOffset_isSome h.ram.blocks h.pos h.limit hroom
  obtain ⟨ram, halloc, hallocated⟩ := qemuRamAllocFromPtr_spec h.ram size.toNat ptr.toNat mr hfind
  have hblock : newBlock size.toNat ptr.toNat mr offset ∈ ram.blocks :=
    hallocated.blocks.mem_iff.2 List.mem_cons_self
  have hkept : ∀ b ∈ m.ram.blocks, b ∈ ram.blocks := fun b hb =>
    hallocated.blocks.mem_iff.2 (List.mem_cons_of_mem _ hb)
  have hstop : (newBlock size.toNat ptr.toNat mr offset).stop = offset + size.toNat := by
    rw [newBlock_stop, halign]
  have hapart : ∀ b ∈ m.ram.blocks, b.offset ≠ offset := by
    intro b hb heq
    have hbpos := h.pos b hb
    have hor : offset + size.toNat ≤ b.offset ∨ b.stop ≤ offset := hstop ▸ hallocated.apart b hb
    unfold RAMBlock.stop at hor
    omega
  have hregion : regionSize size.toNat = size.toNat := if_neg (by omega)
  have hbacks : Backs ram ⟨⟨mr, guestPa, size.toNat, true, true, true, false, 0⟩, offset⟩
      ⟨mr, guestPa.toNat, size.toNat, ptr.toNat⟩ := by
    refine ⟨?_, _, hblock, rfl, rfl, halign⟩
    rw [Window.fields, BitVec.ofNat_toNat, BitVec.setWidth_eq]
  have hregions := List.Forall₂.cons hbacks (h.regions.imp fun r w => Backs.mono hkept)
  have hproper : ∀ w ∈ ⟨mr, guestPa.toNat, size.toNat, ptr.toNat⟩ :: g.windows, w.Proper :=
    List.forall_mem_cons.2 ⟨⟨hpa, hsize, hpos, hend, hptr⟩, h.proper⟩
  obtain ⟨newView, d', hcommit, hmap, hserves⟩ := commit_spec
    (m := { m with
      ram := ram
      subregions := ⟨⟨mr, guestPa, size.toNat, true, true, true, false, 0⟩, offset⟩ ::
        m.subregions })
    hproper (fields_of_backs hregions) hcount h.map
  refine ⟨{ m with
    ram := ram
    subregions := ⟨⟨mr, guestPa, size.toNat, true, true, true, false, 0⟩, offset⟩ :: m.subregions
    currentMap := newView
    dispatch := d' }, ?_, ?_, hserves⟩
  · rw [Machine.vx64SetupRam, Machine.memoryRegionInitRamPtr, halloc, hregion]
    exact hcommit
  · exact
      { memory := h.memory
        regions := hregions
        proper := hproper
        mrs := List.pairwise_cons.2 ⟨fun w hw => (hnew w hw).symm, h.mrs⟩
        ramAddrs := by
          refine List.pairwise_cons.2 ⟨fun s hs heq => ?_, h.ramAddrs⟩
          obtain ⟨w, -, -, b, hb, hboffset, -⟩ := backs_of_mem h.regions hs
          exact hapart b hb (hboffset.trans heq.symm)
        ram := hallocated.inv
        pos := fun b hb => by
          rcases List.mem_cons.1 (hallocated.blocks.mem_iff.1 hb) with rfl | hb
          · rw [newBlock_length, halign]
            exact hpos
          · exact h.pos b hb
        limit := fun b hb => by
          rcases List.mem_cons.1 (hallocated.blocks.mem_iff.1 hb) with rfl | hb
          · rw [hstop]
            omega
          · exact Nat.le_trans (h.limit b hb) (Nat.mul_le_mul_right _ (Nat.le_succ n))
        map := hmap
        count := hcount }

theorem removeRam_spec {mr : Nat} (h : Holds m g n) (hadmits : g.Admits (.removeRam mr)) :
    ∃ m', m.vx64RemoveRam mr = some m' ∧ Holds m' (g.call (.removeRam mr)).2 n ∧
      Serves m'.dispatch (g.call (.removeRam mr)).2.windows := by
  obtain ⟨w, hw, rfl⟩ := hadmits
  obtain ⟨r, hfind, hr, hback⟩ := find_of_backs h.regions h.mrs hw
  have hsub : (g.windows.eraseP (·.mr = w.mr)).Sublist g.windows := List.eraseP_sublist
  have hregions := erase_backs h.regions w.mr
  have hproper : ∀ v ∈ g.windows.eraseP (·.mr = w.mr), v.Proper := fun v hv =>
    h.proper v (hsub.subset hv)
  have hcount := Nat.le_trans hsub.length_le h.count
  obtain ⟨newView, d', hcommit, hmap, hserves⟩ := commit_spec
    (m := { m with subregions := m.subregions.eraseP (·.fields.mr = w.mr) })
    hproper (fields_of_backs hregions) hcount h.map
  have hblocks := qemuRamFreeFromPtr_blocks h.ram.blocks h.pos r.ramAddr
  have hleft := qemuRamFreeFromPtr_sublist m.ram r.ramAddr
  have hsubregions : (m.subregions.eraseP (·.fields.mr = w.mr)).Sublist m.subregions :=
    List.eraseP_sublist
  refine ⟨{ m with
    subregions := m.subregions.eraseP (·.fields.mr = w.mr)
    currentMap := newView
    dispatch := d'
    ram := m.ram.qemuRamFreeFromPtr r.ramAddr }, ?_, ?_, hserves⟩
  · rw [Machine.vx64RemoveRam, hfind]
    simp only [Option.bind_eq_bind, Option.bind_some, Machine.memoryRegionDelSubregion, hcommit]
    rfl
  · exact
      { memory := h.memory
        regions := by
          refine ((List.forall₂_and_left _ _).2
            ⟨fun s hs => ne_of_mem_eraseP h.ramAddrs hfind hs, hregions⟩).imp ?_
          rintro s v ⟨hne, hfields, b, hb, hoffset, hblock⟩
          refine ⟨hfields, b, ?_, hoffset, hblock⟩
          rw [hblocks]
          exact List.mem_filter.2 ⟨hb, decide_eq_true (hoffset ▸ hne.symm)⟩
        proper := hproper
        mrs := h.mrs.sublist hsub
        ramAddrs := h.ramAddrs.sublist hsubregions
        ram := h.ram.free r.ramAddr
        pos := fun b hb => h.pos b (hleft.subset hb)
        limit := fun b hb => h.limit b (hleft.subset hb)
        map := hmap
        count := hcount }

/-! ## One round of an access -/

variable {s : MemoryRegionSection} {bytes : List (BitVec 8)}

theorem accessLength_le (s : MemoryRegionSection) (a : Nat) (h : 0 < len) :
    accessLength s a len ≤ len := by
  unfold accessLength
  dsimp only
  split
  · omega
  · split
    · omega
    · split <;> omega

theorem accessLength_page (s : MemoryRegionSection) (a len : Nat) :
    a % 4096 + accessLength s a len ≤ 4096 := by
  unfold accessLength
  dsimp only
  split
  · omega
  · split
    · omega
    · split <;> omega

/-- An access that is not to RAM is aligned. -/
theorem accessLength_aligned (hmr : s.mr = .ioMemUnassigned) (a len : Nat) :
    hwaddr (memoryRegionSectionAddr s a) % accessLength s a len = 0 := by
  unfold accessLength
  rw [hmr, if_neg (by exact Bool.false_ne_true)]
  split
  · next hfour => exact hfour.2
  · split
    · next htwo => exact htwo.2
    · exact Nat.mod_one _

theorem windowOf_page (h : ∀ w ∈ g.windows, w.Proper) {i : Nat} (hi : a % 4096 + i < 4096) :
    g.windowOf (a + i) = g.windowOf a := find_page h (by omega)

/-- The block of RAM behind an address of a window. -/
theorem Holds.getRamPtr (h : Holds m g n) (hw : g.windowOf a = some w) (hmr : s.mr = .region w.mr)
    (haddr : memoryRegionSectionAddr s a = (a : Int) - w.pa) :
    ∃ r mru, m.ramAddr s.mr = some r ∧
      m.getRamPtr (r + hwaddr (memoryRegionSectionAddr s a)) =
        some (w.ptr + (a - w.pa), { m with ram := { m.ram with mruBlock := mru } }) ∧
      (∀ c, mru = some c → c ∈ m.ram.blocks) ∧
      ∃ v, m.ram.physDirty.getDirtyFlags
        ((r + hwaddr (memoryRegionSectionAddr s a)) % 18446744073709551616) = some v := by
  have hmem : w ∈ g.windows := List.mem_of_find?_eq_some hw
  have hholds := holds_of_find hw
  have hproper := h.proper w hmem
  obtain ⟨r, hfind, -, -, b, hb, hoffset, hhost, hlength⟩ := find_of_backs h.regions h.mrs hmem
  have hstop := h.ram.blocks.stop b hb
  have hptr := hproper.ptr
  have hend := hproper.stop
  unfold Window.Holds at hholds
  have hoff : hwaddr (memoryRegionSectionAddr s a) = a - w.pa := by
    rw [haddr, hwaddr]
    omega
  have hbound : b.offset + (a - w.pa) < b.stop := by
    unfold RAMBlock.stop
    omega
  unfold RAM_ADDR_MAX at hstop
  have hmod : (r.ramAddr + (a - w.pa)) % 18446744073709551616 = b.offset + (a - w.pa) := by omega
  have hin : a - w.pa < b.length := by omega
  obtain ⟨mru, hget, hmru⟩ := h.ram.getRamPtr_block hb hin (by omega)
  refine ⟨r.ramAddr, mru, ?_, ?_, hmru, ?_⟩
  · rw [hmr, Machine.ramAddr, hfind]
    rfl
  · rw [hoff, Machine.getRamPtr, hmod, hget, ← hhost]
    rfl
  · rw [hoff, hmod]
    exact h.ram.dirty b hb _ (Nat.le_add_right ..) hbound

theorem Holds.setMru (h : Holds m g n) {mru : Option RAMBlock}
    (hmru : ∀ c, mru = some c → c ∈ m.ram.blocks) :
    Holds { m with ram := { m.ram with mruBlock := mru } } g n :=
  { h with
    regions := h.regions.imp fun _ _ hback => ⟨hback.fields, hback.block⟩
    ram := ⟨h.ram.blocks, hmru, h.ram.dirty⟩ }

/-- The bytes of a window from an address on, within its page. -/
theorem read_of_window (h : ∀ w ∈ g.windows, w.Proper) (hw : g.windowOf a = some w) {l : Nat}
    (hl : a % 4096 + l ≤ 4096) : g.read a l = loadBytes g.memory (w.ptr + (a - w.pa)) l := by
  have hholds := holds_of_find hw
  unfold Window.Holds at hholds
  rw [Guest.read, loadBytes, List.range'_eq_map_range, List.map_map]
  refine List.map_congr_left fun i hi => ?_
  have hlt := List.mem_range.1 hi
  rw [Function.comp_apply, Guest.readByte, Guest.hostOf, windowOf_page h (by omega), hw,
    Option.map_some, Option.map_some, Option.getD_some]
  congr 1
  omega

theorem read_of_none (h : ∀ w ∈ g.windows, w.Proper) (hw : g.windowOf a = none) {l : Nat}
    (hl : a % 4096 + l ≤ 4096) : g.read a l = List.replicate l 0 := by
  refine List.eq_replicate_iff.2 ⟨by rw [Guest.read, List.length_map, List.length_range'], ?_⟩
  intro v hv
  obtain ⟨c, hc, rfl⟩ := List.mem_map.1 hv
  obtain ⟨i, hi, rfl⟩ := List.mem_range'.1 hc
  rw [Guest.readByte, Guest.hostOf, Nat.one_mul, windowOf_page h (by omega), hw]
  rfl

/-- One round of `address_space_rw` that reads. -/
theorem readAccess_spec (h : Holds m g n) (hserves : Serves m.dispatch g.windows)
    (ha : a < 2 ^ 52) (len : Nat) :
    ∃ s m', m.dispatch.pageFind (a / 4096) = some s ∧
      m.readAccess s a (accessLength s a len) = some (g.read a (accessLength s a len), m') ∧
      Holds m' g n ∧ m'.dispatch = m.dispatch := by
  cases hw : g.windowOf a with
  | some w =>
      obtain ⟨s, hs, hmr, haddr, -⟩ := hserves.inside a w hw
      obtain ⟨r, mru, hr, hget, hmru, -⟩ := h.getRamPtr hw hmr haddr
      refine ⟨s, _, hs, ?_, h.setMru hmru, rfl⟩
      rw [read_of_window h.proper hw (accessLength_page s a len), ← h.memory, Machine.readAccess,
        if_pos (by rw [hmr]; rfl), hr]
      simp only [Option.bind_eq_bind, Option.bind_some, hget]
  | none =>
      obtain ⟨s, hs, hmr⟩ := hserves.outside a ha hw
      refine ⟨s, m, hs, ?_, h, rfl⟩
      have haligned := accessLength_aligned hmr a len
      rw [read_of_none h.proper hw (accessLength_page s a len), Machine.readAccess,
        if_neg (by rw [hmr]; exact Bool.false_ne_true), hmr, Machine.ioMemRead, Machine.fixedRead,
        if_neg (fun hc => hc haligned)]
      exact fun _ hc => SectionRegion.noConfusion hc

/-- `address_space_rw` reads what the windows say. -/
theorem addressSpaceRead_spec (h : Holds m g n) (hserves : Serves m.dispatch g.windows)
    (hend : a + len ≤ 2 ^ 52) :
    ∃ m', m.addressSpaceRead a len = some (g.read a len, m') ∧ Holds m' g n ∧
      m'.dispatch = m.dispatch := by
  induction len using Nat.strongRecOn generalizing a m with
  | ind len ih =>
      rw [Machine.addressSpaceRead]
      by_cases hlen : 0 < len
      · obtain ⟨s, m₁, hs, hread, hholds, hsame⟩ := readAccess_spec h hserves (by omega : a < 2 ^ 52) len
        have hpos := accessLength_pos s a hlen
        have hle := accessLength_le s a hlen
        have hfit : a + accessLength s a len + (len - accessLength s a len) ≤ 2 ^ 52 := by omega
        obtain ⟨m', hrest, hholds', hsame'⟩ := ih (len - accessLength s a len) (by omega) hholds
          (hsame ▸ hserves) hfit
        refine ⟨m', ?_, hholds', hsame'.trans hsame⟩
        have hsplit : g.read a len = g.read a (accessLength s a len) ++
            g.read (a + accessLength s a len) (len - accessLength s a len) := by
          rw [Guest.read, Guest.read, Guest.read, ← List.map_append, List.range'_append_1,
            Nat.add_sub_cancel' hle]
        rw [dif_pos hlen, hs, hsplit]
        simp only [Option.bind_eq_bind, Option.bind_some, hread, hrest]
      · obtain rfl : len = 0 := by omega
        exact ⟨m, dif_neg hlen, h, rfl⟩

/-! ## Writes -/

theorem write_windows (g : Guest) (a : Nat) (bytes : List (BitVec 8)) :
    (g.write a bytes).windows = g.windows := by
  induction bytes generalizing g a with
  | nil => rfl
  | cons v bytes ih => exact ih (g.writeByte a v) (a + 1)

theorem write_append (g : Guest) (a : Nat) (first rest : List (BitVec 8)) :
    g.write a (first ++ rest) = (g.write a first).write (a + first.length) rest := by
  induction first generalizing g a with
  | nil => rfl
  | cons v first ih =>
      rw [List.cons_append, Guest.write, Guest.write, ih, List.length_cons]
      congr 1
      omega

theorem write_take_drop (g : Guest) (a : Nat) {l : Nat} (h : l ≤ bytes.length) :
    g.write a bytes = (g.write a (bytes.take l)).write (a + l) (bytes.drop l) := by
  calc g.write a bytes = g.write a (bytes.take l ++ bytes.drop l) := by
        rw [List.take_append_drop]
    _ = (g.write a (bytes.take l)).write (a + l) (bytes.drop l) := by
        rw [write_append, List.length_take_of_le h]

/-- What is written outside the windows is lost. -/
theorem write_of_none (h : ∀ i < bytes.length, g.windowOf (a + i) = none) :
    g.write a bytes = g := by
  induction bytes generalizing a with
  | nil => rfl
  | cons v bytes ih =>
      have hfirst : g.windowOf a = none := h 0 (Nat.zero_lt_succ _)
      have hnone : g.hostOf a = none := by
        rw [Guest.hostOf, hfirst]
        rfl
      have hsame : g.writeByte a v = g := by
        rw [Guest.writeByte, hnone]
        rfl
      rw [Guest.write, hsame]
      refine ih fun i hi => ?_
      have hstep := h (i + 1) (Nat.succ_lt_succ hi)
      rwa [Nat.add_assoc, Nat.add_comm 1 i]

theorem storeBytes_cons (memory : Nat → BitVec 8) (ptr : Nat) (v : BitVec 8)
    (bytes : List (BitVec 8)) : storeBytes memory ptr (v :: bytes) =
      storeBytes (fun p => if ptr = p then v else memory p) (ptr + 1) bytes := by
  funext p
  unfold storeBytes
  by_cases hge : ptr ≤ p
  · by_cases heq : ptr = p
    · subst heq
      rw [if_pos (Nat.le_refl _), Nat.sub_self, if_neg (by omega)]
      exact (if_pos rfl).symm
    · have hshift : p - ptr = p - (ptr + 1) + 1 := by omega
      rw [if_pos hge, if_pos (by omega), hshift, List.getElem?_cons_succ]
      dsimp only
      rw [if_neg heq]
  · rw [if_neg hge, if_neg (by omega)]
    exact (if_neg (by omega)).symm

/-- Bytes that lie side by side in the host's memory. -/
theorem write_of_hosts {ptr : Nat} (h : ∀ i < bytes.length, g.hostOf (a + i) = some (ptr + i)) :
    g.write a bytes = { g with memory := storeBytes g.memory ptr bytes } := by
  induction bytes generalizing g a ptr with
  | nil =>
      have hnone : storeBytes g.memory ptr [] = g.memory := by
        funext p
        unfold storeBytes
        split <;> rfl
      rw [hnone]
      rfl
  | cons v bytes ih =>
      have hfirst : g.hostOf a = some ptr := h 0 (Nat.zero_lt_succ _)
      have hrest : ∀ i < bytes.length,
          (g.writeByte a v).hostOf (a + 1 + i) = some (ptr + 1 + i) := by
        intro i hi
        have hstep := h (i + 1) (Nat.succ_lt_succ hi)
        rwa [show a + 1 + i = a + (i + 1) by omega, show ptr + 1 + i = ptr + (i + 1) by omega]
      rw [Guest.write, ih hrest, storeBytes_cons]
      simp only [Guest.writeByte, hfirst, Option.some.injEq]

theorem write_of_window (h : ∀ w ∈ g.windows, w.Proper) (hw : g.windowOf a = some w)
    (hl : a % 4096 + bytes.length ≤ 4096) :
    g.write a bytes = { g with memory := storeBytes g.memory (w.ptr + (a - w.pa)) bytes } := by
  have hholds := holds_of_find hw
  unfold Window.Holds at hholds
  refine write_of_hosts fun i hi => ?_
  rw [Guest.hostOf, windowOf_page h (by omega), hw, Option.map_some, Option.some.injEq]
  omega

/-- Setting dirty flags that a page has keeps what the list of RAM blocks keeps. -/
theorem invalidateAndSetDirty_spec {v : BitVec 8} {addr : Nat}
    (hinv : m.ram.Inv) (hv : m.ram.physDirty.getDirtyFlags addr = some v) :
    ∃ t, m.invalidateAndSetDirty addr = some { m with ram := { m.ram with physDirty := t } } ∧
      RAMList.Inv { m.ram with physDirty := t } := by
  rw [Machine.invalidateAndSetDirty, DirtyTable.isDirty, hv]
  by_cases hdirty : v = 255
  · refine ⟨m.ram.physDirty, ?_, hinv⟩
    simp only [Option.map_some, Option.bind_eq_bind, Option.bind_some, hdirty, decide_true, if_true]
  · obtain ⟨t, hset, -, hget⟩ := DirtyTable.updateFlags_spec
      (f := (· ||| (255 &&& ~~~CODE_DIRTY_FLAG))) hv
    refine ⟨t, ?_, hinv.blocks, hinv.mru, fun b hb c hge hlt => ?_⟩
    · have hset' : m.ram.physDirty.setDirtyFlags addr (255 &&& ~~~CODE_DIRTY_FLAG) = some t := hset
      simp only [Option.map_some, Option.bind_eq_bind, Option.bind_some, hdirty, decide_false,
        Bool.false_eq_true, if_false, hset']
    · rw [hget]
      split
      · exact ⟨_, rfl⟩
      · exact hinv.dirty b hb c hge hlt

theorem Holds.withMemory (h : Holds m g n) {memory : Nat → BitVec 8} {t : DirtyTable}
    (hram : RAMList.Inv { m.ram with physDirty := t }) :
    Holds { m with memory := memory, ram := { m.ram with physDirty := t } }
      { g with memory := memory } n :=
  { h with
    memory := rfl
    regions := h.regions.imp fun _ _ hback => ⟨hback.fields, hback.block⟩
    ram := hram }

/-- One round of `address_space_rw` that writes. -/
theorem writeAccess_spec (h : Holds m g n) (hserves : Serves m.dispatch g.windows)
    (ha : a < 2 ^ 52) (bytes : List (BitVec 8)) :
    ∃ s m', m.dispatch.pageFind (a / 4096) = some s ∧
      m.writeAccess s a (bytes.take (accessLength s a bytes.length)) = some m' ∧
      Holds m' (g.write a (bytes.take (accessLength s a bytes.length))) n ∧
      m'.dispatch = m.dispatch := by
  cases hw : g.windowOf a with
  | some w =>
      obtain ⟨s, hs, hmr, haddr, hreadonly⟩ := hserves.inside a w hw
      obtain ⟨r, mru, hr, hget, hmru, v, hv⟩ := h.getRamPtr hw hmr haddr
      have hpage := accessLength_page s a bytes.length
      have hlength : (bytes.take (accessLength s a bytes.length)).length ≤
          accessLength s a bytes.length := List.length_take_le ..
      have hholds := h.setMru hmru
      obtain ⟨t, hdirty, hinv⟩ := invalidateAndSetDirty_spec
        (m := { m with
          ram := { m.ram with mruBlock := mru }
          memory := storeBytes m.memory (w.ptr + (a - w.pa))
            (bytes.take (accessLength s a bytes.length)) }) hholds.ram hv
      refine ⟨s, { m with
        ram := ⟨m.ram.blocks, mru, t⟩
        memory := storeBytes m.memory (w.ptr + (a - w.pa))
          (bytes.take (accessLength s a bytes.length)) }, hs, ?_, ?_, rfl⟩
      · rw [Machine.writeAccess, if_pos (by rw [hmr]; rfl), hreadonly,
          if_neg Bool.false_ne_true, hr]
        simp only [Option.bind_eq_bind, Option.bind_some, hget, hdirty]
      · rw [write_of_window h.proper hw (by omega), ← h.memory]
        exact hholds.withMemory hinv
  | none =>
      obtain ⟨s, hs, hmr⟩ := hserves.outside a ha hw
      have hpage := accessLength_page s a bytes.length
      have hlength : (bytes.take (accessLength s a bytes.length)).length ≤
          accessLength s a bytes.length := List.length_take_le ..
      refine ⟨s, m, hs, ?_, ?_, rfl⟩
      · rw [Machine.writeAccess, if_neg (by rw [hmr]; exact Bool.false_ne_true), hmr,
          Machine.ioMemWrite, Machine.fixedWrite]
        · split <;> rfl
        · exact fun _ hc => SectionRegion.noConfusion hc
      · rw [write_of_none fun i hi => (windowOf_page h.proper (by omega)).trans hw]
        exact h

/-- `address_space_rw` writes where the windows say. -/
theorem addressSpaceWrite_spec (h : Holds m g n) (hserves : Serves m.dispatch g.windows)
    (hend : a + bytes.length ≤ 2 ^ 52) :
    ∃ m', m.addressSpaceWrite a bytes = some m' ∧ Holds m' (g.write a bytes) n ∧
      m'.dispatch = m.dispatch := by
  induction hlen : bytes.length using Nat.strongRecOn generalizing a m g bytes with
  | ind len ih =>
      rw [Machine.addressSpaceWrite]
      by_cases hpos : 0 < bytes.length
      · obtain ⟨s, m₁, hs, hwrite, hholds, hsame⟩ :=
          writeAccess_spec h hserves (by omega : a < 2 ^ 52) bytes
        have hstep := accessLength_pos s a hpos
        have hle := accessLength_le s a hpos
        have hrest : (bytes.drop (accessLength s a bytes.length)).length =
            bytes.length - accessLength s a bytes.length := List.length_drop
        have hserves₁ : Serves m₁.dispatch
            (g.write a (bytes.take (accessLength s a bytes.length))).windows := by
          rw [write_windows, hsame]
          exact hserves
        obtain ⟨m', hrun, hholds', hsame'⟩ := ih _ (by omega) hholds hserves₁
          (a := a + accessLength s a bytes.length) (by omega) hrest
        refine ⟨m', ?_, ?_, hsame'.trans hsame⟩
        · rw [dif_pos hpos, hs]
          simp only [Option.bind_eq_bind, Option.bind_some, hwrite, hrun]
        · rw [write_take_drop g a hle]
          exact hholds'
      · have hnil : bytes = [] := List.length_eq_zero_iff.1 (by omega)
        subst hnil
        exact ⟨m, dif_neg hpos, h, rfl⟩

/-! ## Runs -/

/-- One call does what the windows say, and keeps all that the next one needs. -/
theorem call_spec {call : VxCall} (h : Holds m g n) (hserves : Serves m.dispatch g.windows)
    (hadmits : g.Admits call) (hn : n + 1 ≤ 2147483648) :
    ∃ m', m.call call = some ((g.call call).1, m') ∧ Holds m' (g.call call).2 (n + 1) ∧
      Serves m'.dispatch (g.call call).2.windows := by
  have hmono : ∀ {m' : Machine} {g' : Guest}, Holds m' g' n → Holds m' g' (n + 1) :=
    fun h => { h with
      limit := fun b hb => Nat.le_trans (h.limit b hb) (Nat.mul_le_mul_right _ (Nat.le_succ n)) }
  cases call with
  | setupRam mr guestPa size ptr =>
      obtain ⟨m', hrun, hholds, hserves'⟩ := setupRam_spec h hadmits hn
      exact ⟨m', by rw [Machine.call, hrun]; rfl, hholds, hserves'⟩
  | removeRam mr =>
      obtain ⟨m', hrun, hholds, hserves'⟩ := removeRam_spec h hadmits
      exact ⟨m', by rw [Machine.call, hrun]; rfl, hmono hholds, hserves'⟩
  | read addr len =>
      obtain ⟨m', hrun, hholds, hsame⟩ := addressSpaceRead_spec h hserves hadmits
      exact ⟨m', hrun, hmono hholds, hsame ▸ hserves⟩
  | write addr bytes =>
      obtain ⟨m', hrun, hholds, hsame⟩ := addressSpaceWrite_spec h hserves hadmits
      refine ⟨m', by rw [Machine.call, hrun]; rfl, hmono hholds, ?_⟩
      show Serves m'.dispatch (g.write addr bytes).windows
      rw [write_windows, hsame]
      exact hserves

theorem calls_spec (calls : List VxCall) (h : Holds m g n) (hserves : Serves m.dispatch g.windows)
    (hadmits : g.AdmitsAll calls) (hn : n + calls.length ≤ 2147483648) :
    ∃ m', m.calls calls = some ((g.calls calls).1, m') ∧ m'.memory = (g.calls calls).2.memory := by
  induction calls generalizing m g n with
  | nil => exact ⟨m, rfl, h.memory⟩
  | cons call calls ih =>
      rw [List.length_cons] at hn
      obtain ⟨m₁, hrun, hholds, hserves₁⟩ := call_spec h hserves hadmits.1 (by omega)
      obtain ⟨m', hrest, hmemory⟩ := ih hholds hserves₁ hadmits.2 (by omega)
      refine ⟨m', ?_, hmemory⟩
      rw [Machine.calls, hrun]
      simp only [Option.bind_eq_bind, Option.bind_some, hrest]
      rfl

theorem memoryMapInit_holds (memory : Nat → BitVec 8) :
    Holds (Machine.memoryMapInit memory) ⟨[], memory⟩ 0 :=
  { memory := rfl
    regions := .nil
    proper := fun _ hw => absurd hw List.not_mem_nil
    mrs := List.Pairwise.nil
    ramAddrs := List.Pairwise.nil
    ram := empty_inv
    pos := fun _ hb => absurd hb List.not_mem_nil
    limit := fun _ hb => absurd hb List.not_mem_nil
    map := ⟨0, trivial, fun _ hr => absurd hr List.not_mem_nil⟩
    count := Nat.zero_le _ }

/-- From the start, any run of calls whose first sets a window up reads and writes what the stack of
windows says: the newest window that holds an address serves it, zeros are read elsewhere, and no
call fails. -/
theorem calls_refine_windows (memory : Nat → BitVec 8) (mr : Nat) (guestPa : BitVec 64)
    (size : BitVec 32) (ptr : BitVec 64) (calls : List VxCall)
    (hadmits : Guest.AdmitsAll ⟨[], memory⟩ (.setupRam mr guestPa size ptr :: calls))
    (hlength : calls.length < 2147483648) :
    ∃ m', (Machine.memoryMapInit memory).calls (.setupRam mr guestPa size ptr :: calls) =
        some ((Guest.calls ⟨[], memory⟩ (.setupRam mr guestPa size ptr :: calls)).1, m') ∧
      m'.memory =
        (Guest.calls ⟨[], memory⟩ (.setupRam mr guestPa size ptr :: calls)).2.memory := by
  obtain ⟨m₁, hsetup, hholds, hserves⟩ :=
    setupRam_spec (memoryMapInit_holds memory) hadmits.1 (by decide)
  obtain ⟨m', hrest, hmemory⟩ := calls_spec calls hholds hserves hadmits.2 (by omega)
  refine ⟨m', ?_, hmemory⟩
  rw [Machine.calls, Machine.call, hsetup]
  simp only [Option.map_some, Option.bind_eq_bind, Option.bind_some, hrest]
  rfl

/-- A window over the middle of another is written to and taken away. -/
def overlaidCalls : List VxCall :=
  [.setupRam 2 8192 4096 1048576, .write 8190 [1, 2, 3, 4], .read 8189 6, .removeRam 2,
    .read 8189 6]

theorem calls_refine_windows_overlaid :
    ∃ m', (Machine.memoryMapInit fun _ => 0).calls (.setupRam 1 4096 12288 65536 :: overlaidCalls) =
        some ((Guest.calls ⟨[], fun _ => 0⟩
          (.setupRam 1 4096 12288 65536 :: overlaidCalls)).1, m') ∧
      m'.memory = (Guest.calls ⟨[], fun _ => 0⟩
        (.setupRam 1 4096 12288 65536 :: overlaidCalls)).2.memory :=
  calls_refine_windows (fun _ => 0) 1 4096 12288 65536 overlaidCalls (by decide +kernel) (by decide)

end Vin64.Vx64
