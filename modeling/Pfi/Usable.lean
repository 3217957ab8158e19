import Pfi.PagerSafety
import Pfi.Exhaustion
import Pfi.Served

/-! # Memory that `avmf_alloc` reports is usable, or not

    `pager_map_range` drops what `pager_map` returns, so `avmf_alloc` reports
    the block whether or not its pages were mapped.  A call of `pager_map`
    does what it is asked when its tables are within reach, its address is
    accepted, the tables missing on its path are granted, and it splits no
    2 MiB leaf (`MapCall.Works`).  A block all of whose calls do that is usable
    when `avmf_alloc` returns (`RangeWorks.usable`): every call that meets an
    address of the block gives it the translation it should have, so whichever
    comes last does.  The tables stay well formed meanwhile, also when pages
    are released that hold no table, so this carries over to runs
    (`allocs_usable`). -/

namespace Pfi

open Words RadixTable Run

/-! ## The allocator's words -/

/-- The limits of the ranges are words, and the heaps stand at pages. -/
structure Avmf.Worded (a : Avmf) : Prop where
  limits : ∀ i, a.avmfLimit i < 2 ^ 64
  heaps : ∀ t, a.heap t % 4096 = 0

theorem Avmf.Worded.of_eq {a a' : Avmf} (h : a.Worded) (hlimit : a'.avmfLimit = a.avmfLimit)
    (hheap : a'.heap = a.heap) : a'.Worded :=
  ⟨fun i => by rw [hlimit]; exact h.limits i, fun t => by rw [hheap]; exact h.heaps t⟩

theorem Avmf.Worded.virt {a : Avmf} (h : a.Worded) (size : Nat) (type : MemoryAllocType) :
    (avmfAllocVirt a size type).2.Worded := by
  have hround := align4k_mod size
  refine ⟨fun i => by rw [(avmfAllocVirt_bitmap a size type).2.1]; exact h.limits i, fun t => ?_⟩
  have ht := h.heaps t
  unfold avmfAllocVirt
  dsimp only
  split
  · exact ht
  · split
    · exact ht
    · show (if t = type then add64 (a.heap t) (align4k size) else a.heap t) % 4096 = 0
      split
      · unfold add64
        omega
      · exact ht

theorem Avmf.Worded.phys {a : Avmf} (h : a.Worded) (size : Nat) :
    (avmfAllocPhysContiguous a size).2.Worded :=
  h.of_eq (allocPhys_ranges a size).limit (sameRegions_allocPhys a size).heap

theorem Avmf.Worded.region {a : Avmf} (h : a.Worded) (virt phys size flags : Nat) :
    (avmfAllocRegion a virt phys size flags).2.Worded :=
  h.of_eq (avmfAllocRegion_bitmap a virt phys size flags).2.1
    (avmfAllocRegion_heap a virt phys size flags)

theorem Avmf.Worded.table {m : Machine} (h : m.avmf.Worded) :
    (allocPageTable m).m.avmf.Worded := by
  rcases allocPageTable_allocator (m := m) rfl rfl with ⟨-, havmf, -⟩ | ⟨-, havmf, -⟩
  · rw [havmf]
    exact (h.phys pageSize).virt pageSize .sensitive
  · rw [havmf]
    exact ((h.phys pageSize).virt pageSize .sensitive).region _ _ _ _

/-- The pages taken end below the limit of their range. -/
theorem Avmf.Worded.phys_end {a : Avmf} (h : a.Worded) (size : Nat)
    (hne : (avmfAllocPhysContiguous a (align4k size)).1 ≠ 0) :
    (avmfAllocPhysContiguous a (align4k size)).1 % 4096 = 0 ∧
      (avmfAllocPhysContiguous a (align4k size)).1 + align4k size < 2 ^ 64 := by
  rcases avmfAllocPhysContiguous_cases a (align4k size) with hp | ⟨i, s, n, hn, -, -, hin, -, hp⟩
  · rw [hp] at hne
    exact absurd rfl hne
  · have hlimit := h.limits i
    have hupper := hin.upper
    have hround := align4k_mod size
    rw [align4k_align4k] at hn
    unfold Avmf.endPage at hupper
    simp only [pageShift, Nat.shiftRight_eq_div_pow] at hupper
    rw [hp]
    dsimp only
    omega

/-! ## Calls that work -/

/-- The call of `pager_map` does what it is asked, on tables that are within
    reach. -/
structure MapCall.Works (m : Machine) (c : MapCall) : Prop where
  accepted : exceedsCpu m c.phys = false
  tables : m.avmf.Grants (lacking m.mem m.root (tablePath c.virt c.flags))
  fits : ¬ c.SplitsHuge m
  reach : WithinReach m

/-- The call leaves well-formed tables: unless its address is rejected it gets
    its tables, and it takes no 2 MiB leaf for one. -/
structure MapCall.Sound (m : Machine) (c : MapCall) : Prop where
  tables : exceedsCpu m c.phys = false →
    m.avmf.Grants (lacking m.mem m.root (tablePath c.virt c.flags))
  fits : ¬ c.SplitsHuge m
  reach : WithinReach m

theorem MapCall.Works.sound {m : Machine} {c : MapCall} (h : c.Works m) : c.Sound m :=
  ⟨fun _ => h.tables, h.fits, h.reach⟩

/-- The page that the call maps holds the address. -/
def MapCall.Meets (c : MapCall) (a : Nat) : Prop := a / c.bytes = c.virt / c.bytes

instance (c : MapCall) (a : Nat) : Decidable (c.Meets a) :=
  inferInstanceAs (Decidable (_ = _))

theorem MapCall.meets_huge {c : MapCall} {a : Nat} (h : c.Huge) :
    c.Meets a ↔ a / 0x200000 = c.virt / 0x200000 := by
  unfold MapCall.Meets MapCall.bytes
  rw [if_pos h]

theorem MapCall.meets_page {c : MapCall} {a : Nat} (h : ¬ c.Huge) :
    c.Meets a ↔ a / 4096 = c.virt / 4096 := by
  unfold MapCall.Meets MapCall.bytes
  rw [if_neg h]

/-- Page `n` is one that the stored leaf translates. -/
def MapCall.Replaces (c : MapCall) (n : Nat) : Prop :=
  if c.Huge then n / 512 % 2 ^ 27 = c.virt / 4096 / 512 % 2 ^ 27
  else n % 2 ^ 36 = c.virt / 4096 % 2 ^ 36

instance instDecidableReplaces (c : MapCall) (n : Nat) : Decidable (c.Replaces n) :=
  inferInstanceAs (Decidable (if c.Huge then _ else _))

theorem MapCall.replaces_huge {c : MapCall} {n : Nat} (h : c.Huge) :
    c.Replaces n ↔ n / 512 % 2 ^ 27 = c.virt / 4096 / 512 % 2 ^ 27 := by
  unfold MapCall.Replaces
  rw [if_pos h]

theorem MapCall.replaces_page {c : MapCall} {n : Nat} (h : ¬ c.Huge) :
    c.Replaces n ↔ n % 2 ^ 36 = c.virt / 4096 % 2 ^ 36 := by
  unfold MapCall.Replaces
  rw [if_neg h]

theorem MapCall.replaces_self (c : MapCall) : c.Replaces (c.virt / pageSize) := by
  by_cases h : c.Huge
  · exact (replaces_huge h).mpr rfl
  · exact (replaces_page h).mpr rfl

/-- For canonical addresses it is the page that the call maps. -/
theorem MapCall.replaces_iff {c : MapCall} {a : Nat} (ha : Canonical a) (hc : Canonical c.virt) :
    c.Replaces (a / pageSize) ↔ c.Meets a := by
  by_cases hhuge : c.Huge
  · have hslot := canonical_slot ha hc
    rw [c.replaces_huge hhuge, c.meets_huge hhuge, hslot]
    omega
  · rw [c.replaces_page hhuge, c.meets_page hhuge]
    exact canonical_page ha hc

/-- The states from which the pager works: its tables are well formed, all
    granted, and loaded. -/
structure Standing (m : Machine) : Prop where
  pager : PagerOk m
  mapped : m.mappedPml4 = m.firmwarePml4
  granted : TablesGranted m
  root : m.cr3 / pageSize = m.root
  worded : m.avmf.Worded

section Calls

variable {m : Machine} {c : MapCall} {a : Nat}

/-- A sound call gets its tables. -/
theorem Standing.mapGranted (h : Standing m) (hsound : c.Sound m) :
    TablesGranted (mapStep m c) := by
  by_cases hrej : exceedsCpu m c.phys = true
  · unfold Pfi.mapStep pagerMap
    rw [if_pos hrej]
    exact h.granted
  · have hacc := Bool.not_eq_true _ ▸ hrej
    exact (pagerMap_granted_iff h.pager.tables h.granted hacc).mpr (hsound.tables hacc)

/-- A sound call faults on no table. -/
theorem Standing.mapFaults (h : Standing m) (hsound : c.Sound m) :
    (mapStep m c).faults = m.faults :=
  hsound.reach.map_faults h.pager.tables hsound.fits (h.mapGranted hsound)

/-- A sound call keeps the standing of the tables. -/
theorem Standing.mapStep (h : Standing m) (hsound : c.Sound m) (hword : c.phys < 2 ^ 64) :
    Standing (mapStep m c) := by
  have hlog := h.mapGranted hsound
  have hregs := sameRegs_mapStep m c
  refine ⟨h.pager.mapStep hword hsound.fits hlog, ?_, hlog, ?_, ?_⟩
  · rw [hregs.mappedPml4, hregs.firmwarePml4]
    exact h.mapped
  · rw [hregs.cr3, hregs.root]
    exact h.root
  · exact pagerMap_keeps (P := fun a _ => a.Worded) (fun _ hm => hm.table) h.worded

/-- A call stores its leaf for the pages that it replaces, if it is not
    rejected. -/
theorem walkPage_replaced (hok : TablesOk m) (hbits : m.cpuPhysBits ≤ 52) (hword : c.phys < 2 ^ 64)
    (hfits : ¬ c.SplitsHuge m) (hlog : TablesGranted (mapStep m c)) :
    TablesOk (mapStep m c) ∧
      ∀ n, walkPage (mapStep m c).mem m.root n
        = if c.phys < 2 ^ m.cpuPhysBits ∧ c.Replaces n then some c.leaf
          else walkPage m.mem m.root n := by
  have hexceeds := exceedsCpu_eq hbits hword
  by_cases hbig : 2 ^ m.cpuPhysBits ≤ c.phys
  · have hsame : mapStep m c = m := by
      unfold mapStep
      rw [pagerMap_rejected (hexceeds.trans (decide_eq_true hbig))]
    rw [hsame]
    refine ⟨hok, fun n => ?_⟩
    rw [if_neg (fun hh => absurd hh.1 (Nat.not_lt.mpr hbig))]
  · have hacc := hexceeds.trans (decide_eq_false hbig)
    have hlt : c.phys < 2 ^ m.cpuPhysBits := Nat.lt_of_not_le hbig
    unfold mapStep at hlog ⊢
    unfold MapCall.leaf
    by_cases hhuge : c.Huge
    · obtain ⟨hok', hwalk⟩ := pagerMap_huge hok hacc hword ((and_huge_ne _).mp hhuge) hlog
      refine ⟨hok', fun n => ?_⟩
      rw [hwalk, if_pos hhuge]
      exact if_congr ((MapCall.replaces_huge hhuge).symm.trans (and_iff_right hlt).symm) rfl rfl
    · have hbit : c.flags / 128 % 2 = 0 := by
        have := mt (and_huge_ne c.flags).mpr hhuge
        omega
      have hno : hugeAt m.mem m.root (c.virt / 4096) = false :=
        Bool.not_eq_true _ ▸ fun hh => hfits ⟨hacc, hhuge, hh⟩
      obtain ⟨hok', hwalk⟩ := pagerMap_page hok hacc hword hbit hno hlog
      refine ⟨hok', fun n => ?_⟩
      rw [hwalk, if_neg hhuge]
      exact if_congr ((MapCall.replaces_page hhuge).symm.trans (and_iff_right hlt).symm) rfl rfl

/-- A call that works stores its leaf. -/
theorem Standing.stored (h : Standing m) (hworks : c.Works m) (hword : c.phys < 2 ^ 64)
    (n : Nat) : walkPage (Pfi.mapStep m c).mem m.root n
      = if c.Replaces n then some c.leaf else walkPage m.mem m.root n := by
  have hlog : TablesGranted (Pfi.mapStep m c) := (h.mapStep hworks.sound hword).granted
  have hacc := hworks.accepted
  rw [exceedsCpu_eq h.pager.bits hword, decide_eq_false_iff_not] at hacc
  rw [(walkPage_replaced h.pager.tables h.pager.bits hword hworks.fits hlog).2 n]
  exact if_congr (and_iff_right (Nat.lt_of_not_le hacc)) rfl rfl

/-- A sound call leaves the other pages alone. -/
theorem Standing.spared (h : Standing m) (hsound : c.Sound m) (hword : c.phys < 2 ^ 64) {n : Nat}
    (hn : ¬ c.Replaces n) :
    walkPage (Pfi.mapStep m c).mem m.root n = walkPage m.mem m.root n := by
  by_cases hrej : exceedsCpu m c.phys = true
  · unfold Pfi.mapStep pagerMap
    rw [if_pos hrej]
  · have hacc := Bool.not_eq_true _ ▸ hrej
    rw [h.stored ⟨hacc, hsound.tables hacc, hsound.fits, hsound.reach⟩ hword, if_neg hn]

/-- Calls that work, each of which gives the address the translation `t` if it
    meets it: once one has met it, `t` is its translation. -/
theorem Standing.exec {t : Nat} {calls : List MapCall} (h : Standing m)
    (hworks : Along Pfi.mapStep (fun m c => c.Works m) m calls)
    (hcalls : ∀ c ∈ calls, Canonical c.virt ∧ c.phys < 2 ^ 64) (ha : Canonical a)
    (hleaf : ∀ c ∈ calls, c.phys < 2 ^ 52 → c.Meets a → leafAddress c.leaf.1 c.leaf.2 a = t)
    (hmet : (∃ c ∈ calls, c.Meets a) ∨ (m.translate a).map Prod.fst = some t) :
    ((exec Pfi.mapStep m calls).translate a).map Prod.fst = some t := by
  induction calls generalizing m with
  | nil =>
      rcases hmet with ⟨c, hc, -⟩ | hmet
      · exact absurd hc List.not_mem_nil
      · exact hmet
  | cons c calls ih =>
      obtain ⟨hfirst, hrest⟩ := hworks
      obtain ⟨hcan, hword⟩ := hcalls c List.mem_cons_self
      have hstep := h.mapStep hfirst.sound hword
      have hwalk := h.stored hfirst hword (a / pageSize)
      have hregs := sameRegs_mapStep m c
      have hphys : c.phys < 2 ^ 52 := by
        have hacc := hfirst.accepted
        rw [exceedsCpu_eq h.pager.bits hword, decide_eq_false_iff_not] at hacc
        exact Nat.lt_of_lt_of_le (Nat.lt_of_not_le hacc)
          (Nat.pow_le_pow_right (by decide) h.pager.bits)
      refine ih hstep hrest (fun c' hc' => hcalls c' (List.mem_cons_of_mem c hc'))
        (fun c' hc' => hleaf c' (List.mem_cons_of_mem c hc')) ?_
      have hnext : (Pfi.mapStep m c).translate a
          = (if c.Meets a then some c.leaf else walkPage m.mem m.root (a / pageSize)).map
              (fun leaf => (leafAddress leaf.1 leaf.2 a, leaf.2 % 2 ^ 12)) := by
        unfold Machine.translate hwWalk
        rw [hregs.cr3, h.root, hwalk, if_congr (MapCall.replaces_iff ha hcan) rfl rfl]
      by_cases hmeets : c.Meets a
      · right
        rw [hnext, if_pos hmeets]
        exact congrArg some (hleaf c List.mem_cons_self hphys hmeets)
      · rcases hmet with ⟨c', hc', hmeets'⟩ | hmet
        · rcases List.mem_cons.mp hc' with rfl | hc'
          · exact absurd hmeets' hmeets
          · exact Or.inl ⟨c', hc', hmeets'⟩
        · right
          rw [hnext, if_neg hmeets]
          unfold Machine.translate hwWalk at hmet
          rw [h.root] at hmet
          exact hmet

end Calls

/-! ## The calls of a range -/

section Range

variable {m : Machine} {virt phys size flags : Nat}

/-- A call of the range is at some offset in it, and is for 2 MiB only when
    the caller asks for that or both bases leave the same rest. -/
structure RangeCall (virt phys size flags : Nat) (c : MapCall) : Prop where
  offset : ∃ o, o < size ∧ o % 4096 = 0 ∧ c.virt = virt + o ∧ c.phys = phys + o
  huge : c.Huge → flags &&& pageHuge ≠ 0 ∨ virt % 0x200000 = phys % 0x200000

theorem not_huge_of_flags {virt phys flags : Nat} (h : flags &&& pageHuge = 0) :
    ¬ (⟨virt, phys, flags⟩ : MapCall).Huge :=
  fun hc => hc h

theorem CallFrom.rangeCall {start : Nat} {c : MapCall} (h : CallFrom virt phys size flags start c) :
    RangeCall virt phys size flags c := by
  obtain ⟨o, -, ho, hpage, hcv, hcp⟩ := h.offset
  refine ⟨⟨o, ho, hpage, hcv, hcp⟩, fun hhuge => ?_⟩
  rcases h.slot with hf | ⟨-, hvs, hps⟩
  · unfold MapCall.Huge at hhuge
    rw [hf] at hhuge
    exact Or.inl hhuge
  · right
    rw [hcv] at hvs
    rw [hcp] at hps
    omega

/-- The calls from an offset on meet every address from there on.  The
    induction is on the turns left. -/
theorem rangeCallsFrom_meets {virt phys size : Nat} (flags : Nat)
    (hvirt : virt % 4096 = 0) (hsize : size % 4096 = 0)
    (hvend : virt + size ≤ 2 ^ 64) (hpend : phys + size < 2 ^ 64) (fuel offset : Nat)
    (hoff : offset % 4096 = 0) (hend : size ≤ offset + 4096 * fuel) :
    ∀ o, offset ≤ o → o < size →
      ∃ c ∈ rangeCallsFrom virt phys size flags fuel offset, c.Meets (virt + o) := by
  induction fuel generalizing offset with
  | zero =>
      intro o hlo hhi
      omega
  | succ fuel ih =>
      simp only [rangeCallsFrom]
      intro o hlo hhi
      rw [if_pos (show offset < size by omega), add64_of_lt (a := virt) (by omega),
        add64_of_lt (a := phys) (by omega)]
      by_cases hslot : 0x200000 ≤ size - offset ∧ (virt + offset) % 0x200000 = 0 ∧
          (phys + offset) % 0x200000 = 0
      · rw [if_pos hslot, add64_of_lt (by omega)]
        have hhuge : (⟨virt + offset, phys + offset, flags ||| pageHuge⟩ : MapCall).Huge :=
          (and_huge_ne _).mpr (or_huge_bit flags)
        by_cases hin : o < offset + 0x200000
        · refine ⟨_, List.mem_cons_self, (MapCall.meets_huge hhuge).mpr ?_⟩
          show (virt + o) / 0x200000 = (virt + offset) / 0x200000
          omega
        · obtain ⟨c, hc, hm⟩ := ih (offset + 0x200000) (by omega) (by omega) o (by omega) hhi
          exact ⟨c, List.mem_cons_of_mem _ hc, hm⟩
      · rw [if_neg hslot, add64_of_lt (by simp only [pageSize]; omega)]
        simp only [pageSize]
        by_cases hin : o < offset + 4096
        · refine ⟨_, List.mem_cons_self, ?_⟩
          by_cases hhuge : (⟨virt + offset, phys + offset, flags⟩ : MapCall).Huge
          · refine (MapCall.meets_huge hhuge).mpr ?_
            show (virt + o) / 0x200000 = (virt + offset) / 0x200000
            omega
          · refine (MapCall.meets_page hhuge).mpr ?_
            show (virt + o) / 4096 = (virt + offset) / 4096
            omega
        · obtain ⟨c, hc, hm⟩ := ih (offset + 4096) (by omega) (by omega) o (by omega) hhi
          exact ⟨c, List.mem_cons_of_mem _ hc, hm⟩

/-- A call of a range whose 2 MiB calls are at equal rests gives an address
    its place in the physical range. -/
theorem RangeCall.leafAddress {c : MapCall} (h : RangeCall virt phys size flags c)
    (hvirt : virt % 4096 = 0) (hphys : phys % 4096 = 0)
    (hslots : flags &&& pageHuge ≠ 0 → virt % 0x200000 = phys % 0x200000)
    (hword : c.phys < 2 ^ 52) {o : Nat} (hm : c.Meets (virt + o)) :
    Pfi.leafAddress c.leaf.1 c.leaf.2 (virt + o) = phys + o := by
  obtain ⟨o', -, ho', hcv, hcp⟩ := h.offset
  rw [leafAddress_call hword]
  unfold MapCall.bytes
  by_cases hhuge : c.Huge
  · have hrest : virt % 0x200000 = phys % 0x200000 := (h.huge hhuge).elim hslots id
    have hslot := (MapCall.meets_huge hhuge).mp hm
    rw [if_pos hhuge]
    omega
  · have hpage := (MapCall.meets_page hhuge).mp hm
    rw [if_neg hhuge]
    simp only [pageSize]
    omega

/-- Every byte of a block has its canonical address, which is translated to
    the byte's place in the physical block. -/
def Usable (m : Machine) (virt phys size : Nat) : Prop :=
  ∀ o, o < size → Canonical (virt + o) ∧ (m.translate (virt + o)).map Prod.fst = some (phys + o)

/-- The range call does what it is asked: the range is canonical, 2 MiB leaves
    are asked for only where they fit, and every call of `pager_map` works. -/
structure RangeWorks (m : Machine) (virt phys size flags : Nat) : Prop where
  canonical : virt + size ≤ 2 ^ 47 ∨ (2 ^ 64 - 2 ^ 47 ≤ virt ∧ virt + size ≤ 2 ^ 64)
  slots : flags &&& pageHuge ≠ 0 → virt % 0x200000 = phys % 0x200000
  calls : Along mapStep (fun m c => c.Works m) m (rangeCalls virt phys size flags)

theorem RangeWorks.usable (h : RangeWorks m virt phys size flags) (hm : Standing m)
    (hvirt : virt % 4096 = 0) (hphys : phys % 4096 = 0) (hsize : size % 4096 = 0)
    (hword : phys + size < 2 ^ 64) :
    Usable (pagerMapRange m virt phys size flags) virt phys size := by
  intro o ho
  have hspace := h.canonical
  have hcan : Canonical (virt + o) := by
    unfold Canonical
    omega
  have hcalls := @rangeCallsFrom_from virt phys size flags (by omega) (by omega) (by omega)
    (size / pageSize + 1) 0 rfl
  refine ⟨hcan, ?_⟩
  rw [pagerMapRange_eq_exec]
  refine hm.exec h.calls ?_ hcan ?_ ?_
  · intro c hc
    obtain ⟨o', -, ho', -, hcv, hcp⟩ := (hcalls c hc).offset
    refine ⟨?_, by omega⟩
    unfold Canonical
    omega
  · intro c hc hlt hmeet
    exact (hcalls c hc).rangeCall.leafAddress hvirt hphys h.slots hlt hmeet
  · left
    exact rangeCallsFrom_meets flags hvirt hsize (by omega) hword _ 0 rfl
      (by simp only [pageSize]; omega) o (Nat.zero_le o) ho

end Range

/-! ## Runs -/

/-- No page that `avmf_free` releases holds a page table. -/
def FreesNoTable (m : Machine) (virt : Nat) : Prop :=
  ∀ j ∈ (avmfFind m.avmf virt).1, ∀ x ∈ m.tableLog,
    ¬ ((m.avmf.header j).physAddr / pageSize ≤ x / pageSize ∧
      x / pageSize < (m.avmf.header j).physAddr / pageSize + (m.avmf.header j).size / pageSize)

/-- A free releases no page table, and its tables are within reach. -/
structure FreeSound (m : Machine) (virt : Nat) : Prop where
  keeps : FreesNoTable m virt
  reach : WithinReach m

/-- What is asked of a step: a block that is handed to `pager_map_range` is
    one that it can map, and a free is sound. -/
def StepWorks (s : Sys) : MemOp → Prop
  | .alloc size type flags => ∀ virt phys m',
      allocRecorded s.m size type flags = some (virt, phys, m') →
        RangeWorks m' virt phys (align4k size) flags
  | .free virt => FreeSound s.m virt

/-- What keeps the tables well formed: every call of the range is sound, and
    so is a free. -/
def StepSound (s : Sys) : MemOp → Prop
  | .alloc size type flags => ∀ virt phys m',
      allocRecorded s.m size type flags = some (virt, phys, m') →
        Along mapStep (fun m c => c.Sound m) m' (rangeCalls virt phys (align4k size) flags)
  | .free virt => FreeSound s.m virt

theorem StepWorks.sound {s : Sys} {op : MemOp} (h : StepWorks s op) : StepSound s op := by
  cases op with
  | alloc size type flags =>
      intro virt phys m' hrec
      exact (h virt phys m' hrec).calls.mono (fun _ _ hc => hc.sound)
  | free virt => exact h

/-- A block that the step reports is usable when the call returns. -/
def ReportedUsable (s : Sys) : MemOp → Prop
  | .alloc size type flags =>
      (avmfAlloc s.m size type flags).virt ≠ 0 →
        ∃ phys, (avmfAlloc s.m size type flags).physOut = some phys ∧
          Usable (avmfAlloc s.m size type flags).m (avmfAlloc s.m size type flags).virt phys
            (align4k size)
  | .free _ => True

section Step

variable {m : Machine}

theorem Standing.of_avmf (h : Standing m) {a : Avmf} (hworded : a.Worded)
    (hbits : ∀ f, f * 4096 ∈ m.tableLog → bitmapTest m.avmf.avmfBitmap f = 1 →
      bitmapTest a.avmfBitmap f = 1) : Standing { m with avmf := a } :=
  ⟨⟨h.pager.tables.of_avmf hbits, h.pager.bits, h.pager.mapped⟩, h.mapped, h.granted, h.root,
    hworded⟩

/-- An address that is granted is the heap pointer. -/
theorem avmfAllocVirt_granted (a : Avmf) (size : Nat) (type : MemoryAllocType)
    (h : (avmfAllocVirt a size type).1 ≠ 0) : (avmfAllocVirt a size type).1 = a.heap type := by
  by_cases ht : type = .unknown
  · rw [avmfAllocVirt, if_pos ht] at h
    exact absurd rfl h
  · obtain ⟨w, -, ⟨-, hres⟩ | ⟨-, hres⟩⟩ := avmfAllocVirt_cases a size ht
    · rw [hres] at h
      exact absurd rfl h
    · rw [hres]

/-- A recorded block lies at whole pages. -/
theorem Standing.recorded (h : Standing m) {size flags virt phys : Nat}
    {type : MemoryAllocType} {m' : Machine}
    (hrec : allocRecorded m size type flags = some (virt, phys, m')) :
    Standing m' ∧ virt ≠ 0 ∧ virt % 4096 = 0 ∧ phys % 4096 = 0 ∧
      phys + align4k size < 2 ^ 64 := by
  obtain ⟨v, p, r, hv, hp, hr, hv0, hp0, -, rfl⟩ := allocRecorded_some hrec
  have hworded := h.worded.virt size type
  rw [hv] at hworded
  have hvirt : virt % 4096 = 0 := by
    have hheap := avmfAllocVirt_granted m.avmf size type (by rw [hv]; exact hv0)
    rw [hv] at hheap
    rw [show virt = m.avmf.heap type from hheap]
    exact h.worded.heaps type
  obtain ⟨hphys, hend⟩ := hworded.phys_end size (by rw [hp]; exact hp0)
  have hpworded := hworded.phys (align4k size)
  rw [hp] at hphys hend hpworded
  have hrworded := hpworded.region virt phys (align4k size) flags
  rw [hr] at hrworded
  exact ⟨h.of_avmf hrworded (fun f _ hf => (alloc_marks m.avmf size type flags hf hv hp hr).2.2),
    hv0, hvirt, hphys, hend⟩

/-- A range of sound calls keeps the standing of the tables, and faults on
    none. -/
theorem Standing.range (h : Standing m) {virt phys size flags : Nat}
    (hcalls : Along Pfi.mapStep (fun m c => c.Sound m) m (rangeCalls virt phys size flags)) :
    Standing (pagerMapRange m virt phys size flags) ∧
      (pagerMapRange m virt phys size flags).faults = m.faults := by
  rw [pagerMapRange_eq_exec]
  have hword : ∀ c ∈ rangeCalls virt phys size flags, c.phys < 2 ^ 64 := rangeCallsFrom_word
  generalize rangeCalls virt phys size flags = calls at hcalls hword ⊢
  induction calls generalizing m with
  | nil => exact ⟨h, rfl⟩
  | cons c calls ih =>
      obtain ⟨hstanding, hfaults⟩ := ih (h.mapStep hcalls.1 (hword c List.mem_cons_self)) hcalls.2
        (fun c' hc' => hword c' (List.mem_cons_of_mem c hc'))
      exact ⟨hstanding, hfaults.trans (h.mapFaults hcalls.1)⟩

/-- `pager_unmap` keeps it too, and takes the leaf of the address. -/
theorem Standing.unmap (h : Standing m) (virt : Nat) :
    Standing (pagerUnmap m virt) ∧ Unmapped m virt (pagerUnmap m virt) := by
  have hun := pagerUnmap_unmapped virt h.pager.tables h.mapped
    (h.pager.tables.pml4_ne h.granted)
  have hpager := h.pager.unmap h.granted virt
  obtain ⟨havmf, hlog⟩ := pagerUnmap_allocator m virt
  have hregs := sameRegs_pagerUnmap m virt
  refine ⟨⟨hpager, ?_, ?_, ?_, ?_⟩, hun⟩
  · rw [hregs.mappedPml4, hregs.firmwarePml4]
    exact h.mapped
  · unfold TablesGranted
    rw [hlog]
    exact h.granted
  · rw [hregs.cr3, hregs.root]
    exact h.root
  · rw [havmf]
    exact h.worded

/-- A free that finds a region releases its pages and unmaps the address. -/
theorem Standing.released (h : Standing m) {virt j : Nat} (hfree : FreesNoTable m virt)
    (hfind : (avmfFind m.avmf virt).1 = some j) :
    ∃ a, Standing { m with avmf := a } ∧ RangesAre m.avmf a ∧
      avmfFree m virt = pagerUnmap { m with avmf := a } virt := by
  unfold avmfFree
  unfold FreesNoTable at hfree
  rcases avmfFind_cases m.avmf virt with ⟨i, hres, -, -⟩ | ⟨hres, -⟩
  · rw [hres] at hfree ⊢
    have hkeeps := hfree i rfl
    dsimp only
    have hheader : Avmf.header { m.avmf with lastFound := some i } i = m.avmf.header i := rfl
    rw [hheader]
    generalize m.avmf.header i = hdr at hkeeps ⊢
    refine ⟨{ m.avmf with
      lastFound := some i
      avmfBitmap := bitmapClearRun m.avmf.avmfBitmap (hdr.physAddr / pageSize)
        (hdr.size / pageSize) }, h.of_avmf (h.worded.of_eq rfl rfl) ?_, ⟨rfl, rfl⟩, rfl⟩
    intro f hlogged hbit
    have hout := hkeeps _ hlogged
    rw [show f * 4096 / pageSize = f from Nat.mul_div_cancel f (by decide)] at hout
    show bitmapTest (bitmapClearRun _ _ _) f = 1
    rw [bitmapTest_clearRun, if_neg hout]
    exact hbit
  · rw [hres] at hfind
    cases hfind

/-- A free that finds none does nothing. -/
theorem avmfFree_missed {virt : Nat} (hfind : (avmfFind m.avmf virt).1 = none) :
    avmfFree m virt = m := by
  unfold avmfFree
  rcases avmfFind_cases m.avmf virt with ⟨i, hres, -, -⟩ | ⟨hres, -⟩
  · rw [hres] at hfind
    cases hfind
  · rw [hres]

/-- A sound free keeps the standing of the tables, and faults on none. -/
theorem Standing.free (h : Standing m) {virt : Nat} (hfree : FreeSound m virt) :
    Standing (avmfFree m virt) ∧ (avmfFree m virt).faults = m.faults := by
  cases hfind : (avmfFind m.avmf virt).1 with
  | none =>
      rw [avmfFree_missed hfind]
      exact ⟨h, rfl⟩
  | some j =>
      obtain ⟨a, ha, hranges, hres⟩ := h.released hfree.keeps hfind
      have hfaults := (hfree.reach.of_avmf hranges).unmap_faults ha.pager.tables ha.granted
        ha.mapped virt
      rw [hres]
      exact ⟨(ha.unmap virt).1, hfaults⟩

/-- A call that records no block changes nothing that the pager sees. -/
theorem Standing.failed (h : Standing m) {size flags : Nat} {type : MemoryAllocType}
    (hrec : allocRecorded m size type flags = none) :
    Standing (avmfAlloc m size type flags).m ∧ (avmfAlloc m size type flags).virt = 0 ∧
      (avmfAlloc m size type flags).m.faults = m.faults := by
  obtain ⟨v, p, r, hv, hp, hr, hres⟩ := avmfAlloc_of_failed hrec
  have hmarks : ∀ f, bitmapTest m.avmf.avmfBitmap f = 1 → _ := fun f hf =>
    alloc_marks m.avmf size type flags hf hv hp hr
  have hvw : v.2.Worded := hv ▸ h.worded.virt size type
  have hpw : p.2.Worded := hp ▸ hvw.phys (align4k size)
  have hrw : r.2.Worded := hr ▸ hpw.region v.1 p.1 (align4k size) flags
  rcases hres with hres | hres | hres
  · rw [hres]
    exact ⟨h.of_avmf hvw (fun f _ hf => (hmarks f hf).1), rfl, rfl⟩
  · rw [hres]
    exact ⟨h.of_avmf hpw (fun f _ hf => (hmarks f hf).2.1), rfl, rfl⟩
  · rw [hres]
    exact ⟨h.of_avmf hrw (fun f _ hf => (hmarks f hf).2.2), rfl, rfl⟩

/-- A sound step keeps the standing of the tables, and faults on none. -/
theorem Standing.step {s : Sys} (h : Standing s.m) {op : MemOp} (hsound : StepSound s op) :
    Standing (s.step op).m ∧ (s.step op).m.faults = s.m.faults := by
  cases op with
  | free virt => exact h.free hsound
  | alloc size type flags =>
      rw [step_alloc_machine]
      rcases hrec : allocRecorded s.m size type flags with _ | ⟨virt, phys, m'⟩
      · obtain ⟨hstanding, -, hfaults⟩ := h.failed hrec
        exact ⟨hstanding, hfaults⟩
      · obtain ⟨hstanding, hfaults⟩ := (h.recorded hrec).1.range (hsound virt phys m' hrec)
        obtain ⟨v, p, r, -, -, -, -, -, -, hm'⟩ := allocRecorded_some hrec
        rw [avmfAlloc_of_recorded hrec]
        refine ⟨hstanding, hfaults.trans ?_⟩
        rw [hm']

/-- What a step that works reports is usable. -/
theorem Standing.reported {s : Sys} (h : Standing s.m) {op : MemOp} (hworks : StepWorks s op) :
    ReportedUsable s op := by
  cases op with
  | free virt => exact trivial
  | alloc size type flags =>
      unfold ReportedUsable
      dsimp only
      intro hne
      rcases hrec : allocRecorded s.m size type flags with _ | ⟨virt, phys, m'⟩
      · exact absurd (h.failed hrec).2.1 hne
      · have hrange := hworks virt phys m' hrec
        obtain ⟨hstart, -, hvirt, hphys, hend⟩ := h.recorded hrec
        rw [avmfAlloc_of_recorded hrec]
        exact ⟨phys, rfl, hrange.usable hstart hvirt hphys (align4k_mod size) hend⟩

end Step

/-- A run that keeps the tables well formed faults on none. -/
theorem Standing.faults_run {s : Sys} (h : Standing s.m) {ops : List MemOp}
    (hsound : Along Sys.step StepSound s ops) :
    (Run.exec Sys.step s ops).m.faults = s.m.faults := by
  induction ops generalizing s with
  | nil => rfl
  | cons op ops ih =>
      obtain ⟨hstanding, hfaults⟩ := h.step hsound.1
      exact (ih hstanding hsound.2).trans hfaults

/-- Every state of a run whose steps work. -/
theorem Standing.run {s : Sys} (h : Standing s.m) {ops : List MemOp}
    (hworks : Along Sys.step StepWorks s ops) : Along Sys.step ReportedUsable s ops := by
  induction ops generalizing s with
  | nil => trivial
  | cons op ops ih =>
      exact ⟨h.reported hworks.1, ih (h.step hworks.1.sound).1 hworks.2⟩

/-! ## Supplied tables -/

theorem Avmf.Grants.le {n n' : Nat} (hle : n' ≤ n) : ∀ {a : Avmf}, a.Grants n → a.Grants n' := by
  induction n' generalizing n with
  | zero => exact fun _ => trivial
  | succ n' ih =>
      intro a h
      cases n with
      | zero => exact absurd hle (Nat.not_succ_le_zero n')
      | succ n => exact ⟨h.1, ih (Nat.le_of_succ_le_succ hle) h.2⟩

/-- As long as pages are supplied, tables are granted. -/
theorem Supply.grants {n : Nat} : ∀ {a : Avmf} {g : Nat}, Supply a g n → a.wrapped = false →
    a.Grants n := by
  induction n with
  | zero => exact fun _ _ => trivial
  | succ n ih =>
      intro a g h hw
      have hheap := h.heap
      have hpos := h.pos
      have hroom := h.room
      have hin := h.inBitmap
      obtain ⟨hrest, hwrest⟩ := tableAvmf_supply h (Nat.succ_pos n) hw
      have htakes := h.takes (k := 1) Nat.one_pos (Nat.succ_pos n)
      have hsame := (sameRegions_allocPhys a pageSize).heap
      have hvirt := (avmfAllocVirt_served (a := (avmfAllocPhysContiguous a pageSize).2) pageSize
        (show MemoryAllocType.sensitive ≠ .unknown by decide)
        (by rw [align4k_pageSize, hsame]; omega)
        (by rw [align4k_pageSize, hsame]; simp only [heapEnd]; omega)).1
      have hphys : (avmfAllocPhysContiguous a pageSize).1 = g * 4096 := by
        rw [show pageSize = 4096 * 1 from rfl, htakes]
      refine ⟨⟨?_, ?_, ?_⟩, ih hrest hwrest⟩
      · rw [hphys]
        omega
      · rw [hphys]
        simp only [bitmapSize, pageSize] at hin ⊢
        omega
      · rw [hvirt, hsame]
        omega

/-! ## Single pages -/

/-- A page call at an accepted address works where it meets no 2 MiB leaf and
    three pages are supplied. -/
theorem Records.works {m : Machine} {a : Avmf} {type : MemoryAllocType} {g k n virt flags : Nat}
    (h : Records m.avmf type g k n a) (hn : k + 3 ≤ n) (hw : m.avmf.wrapped = false)
    (hreach : WithinReach m) (hbits : 32 ≤ m.cpuPhysBits ∧ m.cpuPhysBits ≤ 52)
    (hfree : g + n ≤ bitmapSize)
    (hsmall : flags &&& pageHuge = 0 → hugeAt m.mem m.root (virt / pageSize) = false) :
    MapCall.Works { m with avmf := a } ⟨virt, g * 4096, flags⟩ := by
  have hgrants := h.supply.grants (h.wrapped.trans hw)
  have hpow : 2 ^ 32 ≤ 2 ^ m.cpuPhysBits := Nat.pow_le_pow_right (by decide) hbits.1
  simp only [bitmapSize] at hfree
  refine ⟨?_, ?_, ?_, hreach.of_avmf h.ranges⟩
  · show exceedsCpu m (g * 4096) = false
    rw [exceedsCpu_eq hbits.2 (by omega), decide_eq_false_iff_not]
    omega
  · exact hgrants.le (Nat.le_trans (lacking_le _ _ _)
      (Nat.le_trans tablePath_length_le (by omega)))
  · rintro ⟨-, hpage, hhuge⟩
    have hhuge' : hugeAt m.mem m.root (virt / pageSize) = true := hhuge
    rw [hsmall (not_not.mp hpage)] at hhuge'
    cases hhuge'

/-! ## From the state that `pager_init` leaves -/

section Init

variable {mem : Nat → Fin 512 → Nat} {e820 : List E820Entry} {bits retries : Nat} {m : Machine}

theorem ramRanges_word (e820 : List E820Entry) (i : Nat) :
    ((ramRanges e820).getD i (0, 0)).2 < 2 ^ 64 := by
  rcases Nat.lt_or_ge i (ramRanges e820).length with hi | hi
  · rw [List.getD_eq_getElem _ _ hi]
    have hmem := List.getElem_mem hi
    generalize (ramRanges e820)[i] = r at hmem ⊢
    obtain ⟨e, -, rfl⟩ := List.mem_map.mp hmem
    exact add64_lt _ _
  · rw [List.getD_eq_default _ _ hi]
    decide

theorem pagerInit_worded (hres : pagerInit (bootMachine mem) e820 bits retries = some m) :
    m.avmf.Worded := by
  have hready : (initAvmf (bootMachine mem) e820 bits).pagerReady = false := rfl
  refine buildTables_keeps (P := fun a _ => a.Worded) (fun _ hm => hm.table) hready ?_ hres
  refine ⟨fun i => ?_, fun t => ?_⟩
  · unfold initAvmf avmfInit
    dsimp only
    generalize (if (ramRanges e820).length % 256 ≤ 128 then (ramRanges e820).length % 256
      else 128) = ent
    split
    · exact ramRanges_word e820 i
    · exact Nat.two_pow_pos 64
  · show spaceBase t % 4096 = 0
    cases t <;> decide

theorem InitDone.standing {top : Nat} (h : InitDone top bits m) (hworded : m.avmf.Worded)
    (hlog : TablesGranted m) : Standing m :=
  ⟨⟨h.tables.ok, h.tables.bits.2, Or.inr h.mapped⟩, h.mapped, hlog, h.root, hworded⟩

/-- In every run after `pager_init` whose allocations can be mapped and whose
    frees release no page table, on tables within reach, no call faults on a
    table, and a block that `avmf_alloc` reports is usable when it returns. -/
theorem allocs_usable (hmap : E820Ok e820 bits (2 ^ 47)) (hbits : 32 ≤ bits ∧ bits ≤ 52)
    (hres : pagerInit (bootMachine mem) e820 bits retries = some m) (hlog : TablesGranted m)
    {ops : List MemOp} (hworks : Along Sys.step StepWorks { m := m } ops) :
    Along Sys.step ReportedUsable { m := m } ops ∧
      (Run.exec Sys.step { m := m } ops).m.faults = m.faults := by
  have hdone := pagerInit_done hmap (Nat.le_refl _) hbits hres hlog
  have hstart : Standing (Sys.m { m := m }) := hdone.standing (pagerInit_worded hres) hlog
  exact ⟨hstart.run hworks, hstart.faults_run (hworks.mono (fun _ _ hop => hop.sound))⟩

end Init

/-- On a fresh heap a page call works. -/
theorem FreshStart.callWorks {m : Machine} {g n : Nat} (h : FreshStart m g n) (hn : 4 ≤ n)
    {type : MemoryAllocType} (ht : type ≠ .unknown ∧ type ≠ .sensitive) (flags : Nat) {a : Avmf}
    (hrecords : Records m.avmf type g 1 n a) :
    MapCall.Works { m with avmf := a } ⟨spaceBase type, g * 4096, flags⟩ := by
  have hbase : spaceBase type = aosUserSpaceBase ∨
      (aosKernelSpaceBase ≤ spaceBase type ∧ spaceBase type + 4096 < 2 ^ 64) := by
    cases type with
    | unknown => exact absurd rfl ht.1
    | user => exact Or.inl rfl
    | kernel => exact Or.inr (by decide)
    | driver => exact Or.inr (by decide)
    | sensitive => exact absurd rfl ht.2
  simp only [aosUserSpaceBase, aosKernelSpaceBase] at hbase
  have hroom := h.supply.room
  have hin := h.supply.inBitmap
  refine hrecords.works (by omega) h.granted.1 h.reach h.done.tables.bits (by omega)
    (fun _ => ?_)
  by_contra hc
  simp only [pageSize] at hc
  rcases h.done.tables.huge _ (Bool.not_eq_false _ ▸ hc) with hd | hd
  · unfold DirectPage at hd
    omega
  · unfold CodePage at hd
    omega

/-- On a fresh heap a page can be mapped. -/
theorem FreshStart.stepWorks {m : Machine} {g n : Nat} (h : FreshStart m g n) (hn : 4 ≤ n)
    (type : MemoryAllocType) (ht : type ≠ .unknown ∧ type ≠ .sensitive) :
    StepWorks { m := m } (.alloc 4096 type 3) := by
  obtain ⟨a, hrec, hrecords⟩ := h.page (by omega) type 3 ht
  have hspace : spaceBase type + 4096 ≤ 2 ^ 47 ∨
      (2 ^ 64 - 2 ^ 47 ≤ spaceBase type ∧ spaceBase type + 4096 ≤ 2 ^ 64) := by
    cases type with
    | unknown => exact absurd rfl ht.1
    | user => exact Or.inl (by decide)
    | kernel => exact Or.inr (by decide)
    | driver => exact Or.inr (by decide)
    | sensitive => exact absurd rfl ht.2
  have hroom := h.supply.room
  have hin := h.supply.inBitmap
  intro virt phys m' hrec'
  change allocRecorded m 4096 type 3 = some (virt, phys, m') at hrec'
  rw [hrec] at hrec'
  obtain ⟨rfl, hrest⟩ := Prod.mk.inj (Option.some.inj hrec')
  obtain ⟨rfl, rfl⟩ := Prod.mk.inj hrest
  rw [show align4k 4096 = 4096 by decide]
  simp only [bitmapSize] at hin
  refine ⟨hspace, fun hc => absurd rfl hc, ?_⟩
  rw [rangeCalls_page 3 (by omega) (by omega)]
  exact ⟨h.callWorks hn ht 3 hrecords, trivial⟩

/-- A page of kernel memory is usable. -/
theorem allocs_usable_page :
    ∃ m, pagerInit (bootMachine (fun _ _ => 0)) lowE820 36 1 = some m ∧
      (avmfAlloc m 4096 .kernel 3).virt = aosKernelSpaceBase ∧
      Along Sys.step ReportedUsable { m := m } [.alloc 4096 .kernel 3] ∧
      (exec Sys.step { m := m } [.alloc 4096 .kernel 3]).m.faults = m.faults := by
  obtain ⟨m, g, hres, h⟩ := lowE820_fresh (fun _ _ => 0)
  obtain ⟨a, hrec, -⟩ := h.page (n := 215) (by decide) .kernel 3 (by decide)
  exact ⟨m, hres, by rw [avmfAlloc_of_recorded hrec]; rfl,
    allocs_usable ⟨by decide, by decide, by decide⟩ (by decide) hres h.granted.2
      ⟨h.stepWorks (by decide) .kernel (by decide), trivial⟩⟩

/-- The PML4 is taken, so it is not the next page of the supply. -/
theorem FreshStart.pml4_taken {m : Machine} {g n : Nat} (h : FreshStart m g n) : g ≠ 0x200 := by
  intro hg
  have hroom := h.supply.room
  have hfree := h.supply.free g (Nat.le_refl g) (by omega)
  have htaken := (h.done.tables.ok.owned [] m.root (tableAt_nil 3 m.root)).2.1
  have hroot : m.root = 0x200 := by
    have hptr := h.done.pml4
    have hpml4 := h.pml4
    omega
  rw [hroot, ← hg, hfree] at htaken
  cases htaken

/-- With `PAGE_HUGE` in the flags a page of kernel memory is reported, and
    without a fault its address is translated to 0x200000: not to the block's
    page, but to the PML4. -/
theorem pml4_handed_out :
    ∃ m, pagerInit (bootMachine (fun _ _ => 0)) lowE820 36 1 = some m ∧
      let r := avmfAlloc m 4096 .kernel 0x83
      r.virt = aosKernelSpaceBase ∧ r.physOut ≠ some 0x200000 ∧ m.firmwarePml4 = 0x200000 ∧
        (r.m.translate aosKernelSpaceBase).map Prod.fst = some 0x200000 ∧
        r.m.faults = m.faults ∧
        ¬ Along Sys.step ReportedUsable { m := m } [.alloc 4096 .kernel 0x83] := by
  obtain ⟨m, g, hres, h⟩ := lowE820_fresh (fun _ _ => 0)
  obtain ⟨a, hrec, hrecords⟩ := h.page (n := 215) (by decide) .kernel 0x83 (by decide)
  have hne := h.pml4_taken
  have hfirst := h.first
  -- the page that is given lies behind the PML4, in the same 2 MiB
  have hlast : g < 0x300 := by
    have hroom := h.supply.room
    have hlimit := pagerInit_limits (show RamBelow lowE820 0x300000 by decide) hres 0
    unfold Avmf.endPage at hroom
    simp only [pageShift, Nat.shiftRight_eq_div_pow] at hroom
    omega
  have hstanding := ((h.done.standing (pagerInit_worded hres) h.granted.2).recorded hrec).1
  have hworks := h.callWorks (by decide) (by decide) 0x83 hrecords
  have hresult := avmfAlloc_of_recorded hrec
  rw [show align4k 4096 = 4096 by decide, pagerMapRange_eq_exec,
    rangeCalls_page 0x83 (by decide) (by omega), exec_cons, exec_nil] at hresult
  have hfaults := hstanding.mapFaults hworks.sound
  have hwalk := hstanding.stored hworks (show g * 4096 < 2 ^ 64 by omega)
    (aosKernelSpaceBase / pageSize)
  have hregs := sameRegs_mapStep { m with avmf := a } ⟨spaceBase .kernel, g * 4096, 0x83⟩
  have hroot := hstanding.root
  generalize Pfi.mapStep { m with avmf := a } ⟨spaceBase .kernel, g * 4096, 0x83⟩ = m'
    at hresult hfaults hwalk hregs
  -- the processor takes the frame from bit 21 on, so it finds the start of the 2 MiB
  have htranslate : (m'.translate aosKernelSpaceBase).map Prod.fst = some 0x200000 := by
    have hself : (MapCall.mk (spaceBase .kernel) (g * 4096) 0x83).Replaces
        (aosKernelSpaceBase / pageSize) := MapCall.replaces_self _
    unfold Machine.translate hwWalk
    rw [hregs.cr3, hroot, hwalk, if_pos hself]
    have hbytes : (MapCall.mk (spaceBase .kernel) (g * 4096) 0x83).bytes = 0x200000 :=
      if_pos (show 0x83 &&& pageHuge ≠ 0 by decide)
    refine congrArg some ((leafAddress_call (show g * 4096 < 2 ^ 52 by omega) _).trans ?_)
    rw [hbytes]
    show g * 4096 / 0x200000 * 0x200000 + aosKernelSpaceBase % 0x200000 = 0x200000
    simp only [aosKernelSpaceBase]
    omega
  refine ⟨m, hres, ?_⟩
  intro r
  have hr : r = ⟨aosKernelSpaceBase, some (g * 4096), m'⟩ := hresult
  have hphys : r.physOut ≠ some 0x200000 := by
    rw [hr]
    intro hc
    have := Option.some.inj hc
    omega
  refine ⟨by rw [hr], hphys, h.pml4, by rw [hr]; exact htranslate, by rw [hr]; exact hfaults, ?_⟩
  rintro ⟨husable, -⟩
  unfold ReportedUsable at husable
  dsimp only at husable
  rw [hresult] at husable
  obtain ⟨phys, hout, husable⟩ := husable (Nat.succ_ne_zero _)
  -- a usable block would be translated to its own page
  have hbyte := (husable 0 (by decide)).2
  rw [← Option.some.inj hout] at hbyte
  have hboth := htranslate.symm.trans hbyte
  have := Option.some.inj hboth
  omega

end Pfi
