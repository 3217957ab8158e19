import Pfi.PagerRange

/-! # Which pages the pager reads and writes

    Runs of `pager_map`, `pager_map_range` and `pager_unmap`.  `pager_unmap`
    looks at `PAGE_HUGE` before it follows a page directory entry;
    `pager_map` does not, so a 4 KiB call in a slot that holds a 2 MiB leaf
    takes the mapped data page for a page table.  Runs without such a call
    touch only pages that `alloc_page_table` returned
    (`touched_granted`). -/

namespace Pfi

open Words RadixTable Run

/-! ## Runs of the pager -/

/-- The calls of the pager. -/
inductive PagerCall where
  | map (c : MapCall)
  | mapRange (virt phys size flags : Nat)
  | unmap (virt : Nat)
deriving Repr, DecidableEq

/-- The machine after a call. -/
def pagerStep (m : Machine) : PagerCall → Machine
  | .map c => mapStep m c
  | .mapRange virt phys size flags => pagerMapRange m virt phys size flags
  | .unmap virt => pagerUnmap m virt

/-- The addresses and sizes of the call are words and page aligned. -/
def PagerCall.Aligned : PagerCall → Prop
  | .map c => c.virt % pageSize = 0 ∧ c.phys % pageSize = 0 ∧ c.virt < 2 ^ 64 ∧ c.phys < 2 ^ 64
  | .mapRange virt phys size _ =>
      virt % pageSize = 0 ∧ phys % pageSize = 0 ∧ size % pageSize = 0 ∧
        virt < 2 ^ 64 ∧ phys < 2 ^ 64 ∧ size < 2 ^ 64
  | .unmap virt => virt % pageSize = 0 ∧ virt < 2 ^ 64

instance : (c : PagerCall) → Decidable c.Aligned
  | .map _ => inferInstanceAs (Decidable (_ ∧ _))
  | .mapRange _ _ _ _ => inferInstanceAs (Decidable (_ ∧ _))
  | .unmap _ => inferInstanceAs (Decidable (_ ∧ _))

/-- No accepted 4 KiB `pager_map` that the call makes falls in a slot that
    holds a 2 MiB leaf at that moment. -/
def PagerCall.KeepsHuge (m : Machine) : PagerCall → Prop
  | .map c => ¬ c.SplitsHuge m
  | .mapRange virt phys size flags =>
      Along mapStep (fun m c => ¬ c.SplitsHuge m) m (rangeCalls virt phys size flags)
  | .unmap _ => True

instance (m : Machine) : (c : PagerCall) → Decidable (c.KeepsHuge m)
  | .map _ => inferInstanceAs (Decidable (¬ _))
  | .mapRange _ _ _ _ => inferInstanceAs (Decidable (Along _ _ _ _))
  | .unmap _ => isTrue trivial

/-- Every page in which the pager read or stored an entry was returned by
    `alloc_page_table`. -/
def OnlyTables (m : Machine) : Prop := ∀ f ∈ m.touched, f * pageSize ∈ m.tableLog

instance (m : Machine) : Decidable (OnlyTables m) :=
  inferInstanceAs (Decidable (∀ f ∈ m.touched, _))

/-! ## The invariant -/

/-- The tables are well formed, and `mapped_pml4` is unset or
    `firmware_pml4`. -/
structure PagerOk (m : Machine) : Prop where
  tables : TablesOk m
  bits : m.cpuPhysBits ≤ 52
  mapped : m.mappedPml4 = 0 ∨ m.mappedPml4 = m.firmwarePml4

/-- Well-formed tables and the same registers are enough. -/
theorem PagerOk.of_sameRegs {m m' : Machine} (h : PagerOk m) (hregs : SameRegs m m')
    (htables : TablesOk m') : PagerOk m' := by
  refine ⟨htables, ?_, ?_⟩
  · rw [hregs.cpuPhysBits]
    exact h.bits
  · rw [hregs.mappedPml4, hregs.firmwarePml4]
    exact h.mapped

/-- A call of `pager_map`, accepted or not. -/
theorem PagerOk.mapStep {m : Machine} (h : PagerOk m) {c : MapCall} (hword : c.phys < 2 ^ 64)
    (hkeeps : ¬ c.SplitsHuge m) (hlog : TablesGranted (mapStep m c)) :
    PagerOk (mapStep m c) := by
  refine h.of_sameRegs (sameRegs_mapStep m c) ?_
  cases hacc : exceedsCpu m c.phys with
  | true =>
      unfold Pfi.mapStep
      rw [pagerMap_rejected hacc]
      exact h.tables
  | false =>
      by_cases hhuge : c.Huge
      · exact (pagerMap_huge h.tables hacc hword ((and_huge_ne _).mp hhuge) hlog).1
      · have hbit : c.flags / 128 % 2 = 0 := by
          have := mt (and_huge_ne c.flags).mpr hhuge
          omega
        have hno : hugeAt m.mem m.root (c.virt / 4096) = false :=
          Bool.not_eq_true _ ▸ fun hh => hkeeps ⟨hacc, hhuge, hh⟩
        exact (pagerMap_page h.tables hacc hword hbit hno hlog).1

/-- A sequence of calls of `pager_map`. -/
theorem PagerOk.exec {m : Machine} (h : PagerOk m) {calls : List MapCall}
    (hword : ∀ c ∈ calls, c.phys < 2 ^ 64)
    (hkeeps : Along Pfi.mapStep (fun m c => ¬ c.SplitsHuge m) m calls)
    (hlog : TablesGranted (Run.exec Pfi.mapStep m calls)) :
    PagerOk (Run.exec Pfi.mapStep m calls) := by
  have hall := (along_granted hlog).2
  clear hlog
  induction calls generalizing m with
  | nil => exact h
  | cons c calls ih =>
      exact ih (h.mapStep (hword c List.mem_cons_self) hkeeps.1 hall.1)
        (fun c' hc' => hword c' (List.mem_cons_of_mem c hc')) hkeeps.2 hall.2

/-- The frames of a range are words. -/
theorem rangeCallsFrom_word {virt phys size flags : Nat} {fuel offset : Nat} :
    ∀ c ∈ rangeCallsFrom virt phys size flags fuel offset, c.phys < 2 ^ 64 := by
  induction fuel generalizing offset with
  | zero => exact fun c hc => absurd hc List.not_mem_nil
  | succ fuel ih =>
      intro c hc
      simp only [rangeCallsFrom] at hc
      split at hc
      · split at hc
        · rcases List.mem_cons.mp hc with rfl | hc
          · exact add64_lt _ _
          · exact ih c hc
        · rcases List.mem_cons.mp hc with rfl | hc
          · exact add64_lt _ _
          · exact ih c hc
      · cases hc

/-- Unmapping leaves the tables well formed. -/
theorem PagerOk.unmap {m : Machine} (h : PagerOk m) (hlog : TablesGranted m) (virt : Nat) :
    PagerOk (pagerUnmap m virt) := by
  rcases h.mapped with h0 | hm
  · have hsame : pagerUnmap m virt = m := by
      unfold pagerUnmap
      exact if_pos h0
    rw [hsame]
    exact h
  · have hun := pagerUnmap_unmapped virt h.tables hm (h.tables.pml4_ne hlog)
    exact h.of_sameRegs hun.regs hun.ok

/-- What is logged stays logged. -/
theorem pagerStep_log_mono (m : Machine) (c : PagerCall) {x : Nat} (hx : x ∈ m.tableLog) :
    x ∈ (pagerStep m c).tableLog := by
  cases c with
  | map c => exact mapStep_log_mono m c hx
  | mapRange virt phys size flags => exact pagerMapRange_log_mono m virt phys size flags hx
  | unmap virt =>
      show x ∈ (pagerUnmap m virt).tableLog
      rw [(pagerUnmap_allocator m virt).2]
      exact hx

/-- One call of the run. -/
theorem PagerOk.step {m : Machine} (h : PagerOk m) {c : PagerCall} (hc : c.Aligned)
    (hkeeps : c.KeepsHuge m) (hlog : TablesGranted (pagerStep m c)) :
    PagerOk (pagerStep m c) := by
  cases c with
  | map c => exact h.mapStep hc.2.2.2 hkeeps hlog
  | mapRange virt phys size flags =>
      change PagerOk (pagerMapRange m virt phys size flags)
      change TablesGranted (pagerMapRange m virt phys size flags) at hlog
      rw [pagerMapRange_eq_exec] at hlog ⊢
      exact h.exec rangeCallsFrom_word hkeeps hlog
  | unmap virt =>
      exact h.unmap (hlog.of_mono (fun x hx => pagerStep_log_mono m (.unmap virt) hx)) virt

/-- In a run from an empty PML4 in which no 4 KiB call falls in a slot that
    holds a 2 MiB leaf, the pager touches only page tables. -/
theorem touched_granted {m : Machine} (h : EmptyPml4 m) (hbits : m.cpuPhysBits ≤ 52)
    (hmapped : m.mappedPml4 = 0 ∨ m.mappedPml4 = m.firmwarePml4) {calls : List PagerCall}
    (haligned : ∀ c ∈ calls, c.Aligned)
    (hkeeps : Along pagerStep (fun m c => c.KeepsHuge m) m calls)
    (hlog : TablesGranted (exec pagerStep m calls)) : OnlyTables (exec pagerStep m calls) := by
  have hback : ∀ m c, TablesGranted (pagerStep m c) → TablesGranted m :=
    fun m c hg => hg.of_mono (fun x hx => pagerStep_log_mono m c hx)
  have hall := (along_of_final hback hlog).2
  have hok : PagerOk m := ⟨h.tablesOk, hbits, hmapped⟩
  clear hlog h hbits hmapped
  have hfinal : PagerOk (exec pagerStep m calls) := by
    induction calls generalizing m with
    | nil => exact hok
    | cons c calls ih =>
        exact ih (fun c' hc' => haligned c' (List.mem_cons_of_mem c hc')) hkeeps.2 hall.2
          (hok.step (haligned c List.mem_cons_self) hkeeps.1 hall.1)
  exact hfinal.tables.touched

/-- A 2 MiB page and a 4 KiB page, each in its own slot. -/
theorem touched_granted_run :
    OnlyTables (exec pagerStep smallMachine
      [.mapRange 0x200000 0x400000 0x200000 3, .map ⟨0x400000, 0x5000, 3⟩, .unmap 0x200000]) := by
  refine touched_granted smallMachine_empty (by decide) (Or.inr rfl) ?_ ?_ ?_
  · decide
  · decide +kernel
  · decide +kernel

/-- Remapping the second page of a range that was mapped with a 2 MiB leaf:
    the data page at 0x400000 is written as a page table. -/
theorem remap_touches_data :
    let m := exec pagerStep smallMachine
      [.mapRange 0x200000 0x400000 0x200000 3, .mapRange 0x201000 0x401000 0x1000 3]
    TablesGranted m ∧ ¬ OnlyTables m ∧ m.mem 0x400 1 ≠ smallMachine.mem 0x400 1 := by
  decide +kernel

end Pfi
