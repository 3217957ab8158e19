import Pfi.PagerRange
import Pfi.Memory

/-! # Destroying a table tree

    `pager_destroy_table` takes its table from `mapped_pml4` at every level:
    the recursion never goes below the PML4.  So a call frees one address over
    and over, the pointer to the PML4, once for itself and once for each turn
    of its nested loops (`pagerDestroyTable_eq`), and the pages whose bits it
    clears are those of the region that `avmf_find` gives for that pointer, if
    any, each as often as the others (`iterate_count`).

    As soon as one entry of the PML4 is present there is more than one call.
    Then no page is freed exactly once, not even that of the PML4, whatever
    the regions are (`destroy_never_exact`). -/

namespace Pfi

open Words RadixTable Run

/-! ## The function -/

/-- The pages whose bitmap bits `avmf_free_phys` clears, in order. -/
def freedPages (a : Avmf) (virt : Nat) : List Nat :=
  match (avmfFind a virt).1 with
  | none => []
  | some j =>
      (List.range ((a.header j).size / pageSize)).map ((a.header j).physAddr / pageSize + ·)

/-- A machine, with the pages freed so far. -/
structure Destroying where
  m : Machine
  cleared : List Nat := []

/-- `avmf_free_phys((uint64_t)table)`. -/
def Destroying.freePhys (s : Destroying) (table : Nat) : Destroying :=
  { m := { s.m with avmf := avmfFreePhys s.m.avmf table }
    cleared := s.cleared ++ freedPages s.m.avmf table }

/-- The recursion goes on at an entry: it is present, and no 2 MiB leaf. -/
def descends (level e : Nat) : Bool :=
  decide (e &&& pagePresent ≠ 0) && !(decide (level = 2) && decide (e &&& pageHuge ≠ 0))

/-- The loop over the entries of `table`. -/
def destroyEntries (level table : Nat) (destroy : Destroying → Destroying) (s : Destroying) :
    Destroying :=
  (List.finRange 512).foldl
    (fun s i => if descends level (s.m.entry table i) then destroy s else s) s

/-- `pager_destroy_table`. -/
def pagerDestroyTable : (level : Nat) → Destroying → Destroying
  | 0, s => if s.m.mappedPml4 = 0 then s else s.freePhys s.m.mappedPml4
  | level + 1, s =>
      -- the table is `mapped_pml4` again, not the one that the entry names
      if s.m.mappedPml4 = 0 then s
      else
        (if 0 < level
          then destroyEntries (level + 1) s.m.mappedPml4 (pagerDestroyTable level) s
          else s).freePhys s.m.mappedPml4

/-- `pager_destroy_table(level)` from the state `m`. -/
def Machine.destroyTable (m : Machine) (level : Nat) : Destroying :=
  pagerDestroyTable level { m := m }

/-- The tables are freed, each once, and no other page. -/
structure DestroysTables (m : Machine) : Prop where
  tables : ∀ p f, tableAt x86Kind m.mem 3 (tableFrame m.mappedPml4) p = some f →
    (m.destroyTable 4).cleared.count f = 1
  data : ∀ f, (∀ p, tableAt x86Kind m.mem 3 (tableFrame m.mappedPml4) p ≠ some f) →
    bitmapTest (m.destroyTable 4).m.avmf.avmfBitmap f = bitmapTest m.avmf.avmfBitmap f

/-! ## One address, many times -/

/-- How often `avmf_free_phys` is called. -/
def destroyFrees (pml4 : Fin 512 → Nat) : (level : Nat) → Nat
  | 0 => 1
  | level + 1 =>
      (if 0 < level
        then (List.finRange 512).countP (fun i => descends (level + 1) (pml4 i))
          * destroyFrees pml4 level
        else 0) + 1

section Frees

variable {s : Destroying} {table : Nat}

theorem iterate_keeps (n : Nat) :
    ((fun s => s.freePhys table)^[n] s).m.mem = s.m.mem ∧
      ((fun s => s.freePhys table)^[n] s).m.mappedPml4 = s.m.mappedPml4 := by
  induction n generalizing s with
  | zero => exact ⟨rfl, rfl⟩
  | succ n ih =>
      rw [Function.iterate_succ_apply]
      exact ih

/-- A loop whose turns each free the table `n` times or not at all. -/
theorem foldl_iterate {destroy : Destroying → Destroying} {pml4 : Fin 512 → Nat} {level n : Nat}
    (hdestroy : ∀ s : Destroying, s.m.entry table = pml4 → s.m.mappedPml4 = table →
      destroy s = (fun s => s.freePhys table)^[n] s)
    (l : List (Fin 512)) (hpml4 : s.m.entry table = pml4) (hmapped : s.m.mappedPml4 = table) :
    l.foldl (fun s i => if descends level (s.m.entry table i) then destroy s else s) s
      = (fun s => s.freePhys table)^[l.countP (fun i => descends level (pml4 i)) * n] s := by
  induction l generalizing s with
  | nil =>
      rw [List.countP_nil, Nat.zero_mul]
      rfl
  | cons i l ih =>
      rw [List.foldl_cons, List.countP_cons, hpml4]
      by_cases hi : descends level (pml4 i) = true
      · obtain ⟨hmem, hptr⟩ := @iterate_keeps s table n
        have hsame : ((fun s => s.freePhys table)^[n] s).m.entry table = pml4 := by
          rw [← hpml4]
          unfold Machine.entry
          rw [hmem]
        rw [if_pos hi, if_pos hi, hdestroy s hpml4 hmapped, ih hsame (hptr.trans hmapped),
          ← Function.iterate_add_apply, Nat.add_mul, Nat.one_mul]
      · rw [if_neg hi, if_neg hi, ih hpml4 hmapped, Nat.add_zero]

/-- The recursion frees the table it starts from, as often as its loops
    turn. -/
theorem pagerDestroyTable_eq (level : Nat) {pml4 : Fin 512 → Nat} (htable : table ≠ 0)
    (hpml4 : s.m.entry table = pml4) (hmapped : s.m.mappedPml4 = table) :
    pagerDestroyTable level s
      = (fun s => s.freePhys table)^[destroyFrees pml4 level] s := by
  induction level generalizing s with
  | zero =>
      unfold pagerDestroyTable destroyFrees
      rw [hmapped, if_neg htable]
      rfl
  | succ level ih =>
      unfold pagerDestroyTable destroyFrees
      rw [hmapped, if_neg htable, Function.iterate_succ_apply']
      congr 1
      by_cases hlevel : 0 < level
      · -- the deeper calls start from the same table
        rw [if_pos hlevel, if_pos hlevel]
        exact foldl_iterate (fun s h h' => ih h h') _ hpml4 hmapped
      · rw [if_neg hlevel, if_neg hlevel]
        rfl

/-- Freeing an address leads to the same region again. -/
theorem freedPages_again (a : Avmf) (virt : Nat) :
    freedPages (avmfFreePhys a virt) virt = freedPages a virt := by
  rcases avmfFind_cases a virt with ⟨j, hfind, hcontains, -⟩ | ⟨hfind, -⟩
  · have hagain : avmfFind (avmfFreePhys a virt) virt = (some j, avmfFreePhys a virt) := by
      unfold avmfFreePhys
      rw [hfind]
      unfold avmfFind
      exact if_pos hcontains
    have hheader : (avmfFreePhys a virt).header j = a.header j := by
      unfold avmfFreePhys
      rw [hfind]
      rfl
    unfold freedPages
    rw [hagain, hfind]
    dsimp only
    rw [hheader]
  · have hsame : avmfFreePhys a virt = a := by
      unfold avmfFreePhys
      rw [hfind]
    rw [hsame]

/-- Each call frees the same pages. -/
theorem iterate_count (n f : Nat) :
    ((fun s => s.freePhys table)^[n] s).cleared.count f
      = s.cleared.count f + n * (freedPages s.m.avmf table).count f := by
  induction n generalizing s with
  | zero => simp
  | succ n ih =>
      rw [Function.iterate_succ_apply, ih]
      show (s.cleared ++ freedPages s.m.avmf table).count f
        + n * (freedPages (avmfFreePhys s.m.avmf table) table).count f = _
      rw [freedPages_again, List.count_append, Nat.succ_mul]
      omega

end Frees

/-- With an entry of the PML4 present the recursion frees more than once. -/
theorem two_le_destroyFrees {pml4 : Fin 512 → Nat} {i : Fin 512} (hi : pml4 i % 2 = 1) :
    2 ≤ destroyFrees pml4 4 := by
  have hpresent : pml4 i &&& pagePresent ≠ 0 := by
    rw [and_present]
    omega
  have hdescends : descends 4 (pml4 i) = true := by
    unfold descends
    rw [decide_eq_true hpresent]
    rfl
  have hcount : 0 < (List.finRange 512).countP (fun i => descends 4 (pml4 i)) :=
    List.countP_pos_iff.mpr ⟨i, List.mem_finRange i, hdescends⟩
  have hthree : 0 < destroyFrees pml4 3 := Nat.succ_pos _
  have hprod := Nat.mul_pos hcount hthree
  show 2 ≤ (if 0 < 3 then (List.finRange 512).countP (fun i => descends 4 (pml4 i))
    * destroyFrees pml4 3 else 0) + 1
  rw [if_pos (by decide)]
  omega

/-- A page is freed a multiple of that number of times. -/
theorem destroyTable_count {m : Machine} (hmapped : m.mappedPml4 ≠ 0) (level f : Nat) :
    (m.destroyTable level).cleared.count f
      = destroyFrees (m.entry m.mappedPml4) level
        * (freedPages m.avmf m.mappedPml4).count f := by
  unfold Machine.destroyTable
  rw [pagerDestroyTable_eq level hmapped rfl rfl, iterate_count, List.count_nil, Nat.zero_add]

/-- No tree with a present entry in its PML4 is destroyed exactly. -/
theorem not_destroysTables {m : Machine} {i : Fin 512} (hmapped : m.mappedPml4 ≠ 0)
    (hi : m.entry m.mappedPml4 i % 2 = 1) : ¬ DestroysTables m := by
  intro h
  -- already the count of the PML4's own page is a multiple of two or more
  have hroot := h.tables [] (tableFrame m.mappedPml4) (tableAt_nil 3 _)
  rw [destroyTable_count hmapped] at hroot
  have htwo := @two_le_destroyFrees (m.entry m.mappedPml4) i hi
  have hone := Nat.eq_one_of_mul_eq_one_right hroot
  omega

/-! ## The PML4 of a mapping -/

section Present

variable {m : Machine} {root : Nat}

/-- Some entry of the frame is present. -/
def HasPresent (m : Machine) (f : Nat) : Prop := ∃ i, m.mem f i % 2 = 1

theorem HasPresent.setEntry {tbl e : Nat} {i : Fin 512} (he : e % 2 = 1)
    (h : HasPresent m root ∨ tableFrame tbl = root) : HasPresent (m.setEntry tbl i e) root := by
  by_cases hroot : tableFrame tbl = root
  · refine ⟨i, ?_⟩
    rw [setEntry_mem, ← hroot, store_self]
    exact he
  · obtain ⟨j, hj⟩ := h.resolve_right hroot
    refine ⟨j, ?_⟩
    rw [setEntry_mem, store_of_ne_table (fun hc => hroot hc.symm)]
    exact hj

/-- What `alloc_page_table` stores in memory. -/
theorem allocPageTable_mem (m : Machine) :
    (allocPageTable m).m.mem = m.mem ∨ (allocPageTable m).m.mem
      = fun f i => if f = tableFrame (allocPageTable m).tbl then 0 else m.mem f i := by
  have hcases := allocPageTable_cases m
  dsimp only at hcases
  generalize tableAvmf m.avmf = a at hcases
  generalize avmfAllocVirt (avmfAllocPhysContiguous m.avmf pageSize).2 pageSize .sensitive = v
    at hcases
  generalize (avmfAllocPhysContiguous m.avmf pageSize).1 = p at hcases
  rcases hcases with ⟨-, h⟩ | ⟨-, -, h⟩ | ⟨-, tbl, -, -, h⟩
  · rw [h]
    exact Or.inl rfl
  · rw [h]
    exact Or.inl rfl
  · rw [h]
    exact Or.inr rfl

/-- A new table clears no frame but its own. -/
theorem HasPresent.alloc (h : HasPresent m root) :
    HasPresent (allocPageTable m).m root ∨ tableFrame (allocPageTable m).tbl = root := by
  obtain ⟨j, hj⟩ := h
  unfold HasPresent
  rcases allocPageTable_mem m with hmem | hmem
  · rw [hmem]
    exact Or.inl ⟨j, hj⟩
  · rw [hmem]
    by_cases hroot : root = tableFrame (allocPageTable m).tbl
    · exact Or.inr hroot.symm
    · refine Or.inl ⟨j, ?_⟩
      dsimp only
      rw [if_neg hroot]
      exact hj

/-- A step of the descent keeps an entry of the frame present, or arrives at
    the frame. -/
theorem nextTable_present_or {tbl : Nat} {i : Fin 512}
    (h : HasPresent m root ∨ tableFrame tbl = root) :
    HasPresent (nextTable m tbl i).2 root ∨ tableFrame (nextTable m tbl i).1 = root := by
  by_cases he : m.mem (tableFrame tbl) i % 2 = 0
  · obtain ⟨htbl, hres⟩ := nextTable_of_absent he
    have hodd : ((allocPageTable (m.touch tbl)).phys ||| pagePresent ||| pageRw) % 2 = 1 := by
      rw [Nat.or_assoc, show (pagePresent ||| pageRw : Nat) = 3 from rfl,
        show (2 : Nat) = 2 ^ 1 from rfl, Nat.or_mod_two_pow]
      rcases Nat.mod_two_eq_zero_or_one (allocPageTable (m.touch tbl)).phys with h0 | h1
      · rw [show (allocPageTable (m.touch tbl)).phys % 2 ^ 1 = 0 from h0]
        rfl
      · rw [show (allocPageTable (m.touch tbl)).phys % 2 ^ 1 = 1 from h1]
        rfl
    rw [htbl, hres]
    by_cases hroot : tableFrame tbl = root
    · exact Or.inl (HasPresent.setEntry hodd (Or.inr hroot))
    · have hm : HasPresent (m.touch tbl) root := h.resolve_right hroot
      rcases hm.alloc with hkept | hnew
      · exact Or.inl (HasPresent.setEntry hodd (Or.inl hkept))
      · exact Or.inr hnew
  · obtain ⟨-, hres⟩ := nextTable_of_present he
    rw [hres]
    left
    rcases h with hm | hroot
    · exact hm
    · exact ⟨i, by rw [← hroot]; show m.mem (tableFrame tbl) i % 2 = 1; omega⟩

theorem leaf_odd (a b : Nat) : (a ||| b ||| pagePresent) % 2 = 1 := by
  rw [show (a ||| b ||| pagePresent) = (a ||| b) / 2 * 2 + 1 from or_one _]
  omega

/-- After an accepted call an entry of the PML4 is present, whatever memory
    held before. -/
theorem hasPresent_pagerMap {virt phys flags : Nat} (hacc : exceedsCpu m phys = false) :
    HasPresent (pagerMap m virt phys flags).2 m.root := by
  have hpdpt := @nextTable_present_or m m.root m.firmwarePml4 (tableIndex virt 39)
    (Or.inr (show tableFrame m.firmwarePml4 = m.root from rfl))
  have hpd := nextTable_present_or (i := tableIndex virt 30) hpdpt
  rw [pagerMap_accepted hacc]
  by_cases hhuge : flags &&& pageHuge ≠ 0
  · rw [if_pos hhuge]
    exact HasPresent.setEntry (leaf_odd _ _) hpd
  · rw [if_neg hhuge]
    exact HasPresent.setEntry (leaf_odd _ _) (nextTable_present_or hpd)

/-- So it is after any calls one of which was accepted. -/
theorem hasPresent_exec {calls : List MapCall}
    (h : HasPresent m m.root ∨ ∃ c ∈ calls, exceedsCpu m c.phys = false) :
    HasPresent (exec mapStep m calls) m.root := by
  induction calls generalizing m with
  | nil =>
      rcases h with h | ⟨c, hc, -⟩
      · exact h
      · exact absurd hc List.not_mem_nil
  | cons c calls ih =>
      have hregs := sameRegs_mapStep m c
      rw [exec_cons]
      have hrest := @ih (mapStep m c)
      rw [hregs.root] at hrest
      refine hrest ?_
      by_cases hacc : exceedsCpu m c.phys = false
      · exact Or.inl (hasPresent_pagerMap hacc)
      · rcases h with h | ⟨c', hc', hacc'⟩
        · left
          unfold mapStep
          rw [pagerMap_rejected (Bool.not_eq_false _ ▸ hacc)]
          exact h
        · right
          rcases List.mem_cons.mp hc' with rfl | hc'
          · exact absurd hacc' hacc
          · exact ⟨c', hc', by rw [hregs.exceedsCpu]; exact hacc'⟩

end Present

/-- `pager_load` sets `mapped_pml4` and leaves memory alone. -/
theorem pagerLoad_mapped (m : Machine) (pml4 : Nat) :
    (pagerLoad m pml4).mappedPml4 = pml4 ∧ (pagerLoad m pml4).mem = m.mem := by
  unfold pagerLoad
  by_cases hready : m.pagerReady = true
  · rw [if_pos hready]
    exact ⟨rfl, rfl⟩
  · rw [if_neg hready]
    exact ⟨rfl, rfl⟩

/-- No tree that `pager_map` built and `pager_load` loaded is destroyed
    exactly. -/
theorem destroy_never_exact {m : Machine} {calls : List MapCall} (hpml4 : m.firmwarePml4 ≠ 0)
    (hacc : ∃ c ∈ calls, exceedsCpu m c.phys = false) :
    ¬ DestroysTables (pagerLoad (exec mapStep m calls) m.firmwarePml4) := by
  obtain ⟨hmapped, hmem⟩ := pagerLoad_mapped (exec mapStep m calls) m.firmwarePml4
  obtain ⟨i, hi⟩ := hasPresent_exec (Or.inr hacc)
  refine not_destroysTables (i := i) ?_ ?_
  · rw [hmapped]
    exact hpml4
  · unfold Machine.entry
    rw [hmapped, hmem]
    exact hi

/-- One 4 KiB page in an empty tree. -/
theorem destroy_never_exact_page :
    ¬ DestroysTables (pagerLoad (exec mapStep smallMachine [⟨0x400000, 0x5000, 3⟩])
      smallMachine.firmwarePml4) :=
  destroy_never_exact (by decide) ⟨⟨0x400000, 0x5000, 3⟩, List.mem_singleton_self _, by decide⟩

/-- The code, the data and the stack of the firmware, in 2 MiB pages. -/
def firmwareCalls : List MapCall :=
  [⟨0x0, 0x0, 0x83⟩, ⟨0x200000, 0x200000, 0x83⟩, ⟨0x7e00000, 0x7e00000, 0x83⟩] ++
    (List.range 8).map (fun k => ⟨0xff000000 + 0x200000 * k, 0xff000000 + 0x200000 * k, 0x83⟩)

/-- The allocator initialised with 16 pages of RAM, a PML4, and in it the
    firmware and one page. -/
def tinyTree : Machine :=
  let r := allocPageTable (initAvmf {} [⟨0x10000, 0x10000, e820TypeRam⟩] 36)
  pagerLoad (exec mapStep { r.m with firmwarePml4 := r.tbl }
    (firmwareCalls ++ [⟨0x400000, 0x5000, 3⟩])) r.tbl

/-- Destroying it clears no bit: the tables are recorded under other
    addresses than their pointers. -/
theorem destroy_clears_nothing :
    (∀ f, (tinyTree.destroyTable 4).cleared.count f = 0) ∧ ¬ DestroysTables tinyTree := by
  have hmapped : tinyTree.mappedPml4 ≠ 0 := by decide +kernel
  have hfreed : freedPages tinyTree.avmf tinyTree.mappedPml4 = [] := by decide +kernel
  have hnone : ∀ f, (tinyTree.destroyTable 4).cleared.count f = 0 := by
    intro f
    rw [destroyTable_count hmapped, hfreed, List.count_nil, Nat.mul_zero]
  refine ⟨hnone, fun h => ?_⟩
  have hroot := h.tables [] (tableFrame tinyTree.mappedPml4) (tableAt_nil 3 _)
  rw [hnone] at hroot
  cases hroot

end Pfi
