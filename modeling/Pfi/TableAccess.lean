import Pfi.DirectMap
import Pfi.AgreementRuns

/-! # Which tables the pager reaches

    The pager reads and stores entries through pointers: `firmware_pml4` as it
    is, every other table through `pager_phys_to_virt`.  `WithinReach` is the
    state in which that works: the tables in force translate `firmware_pml4`
    to the PML4, and they hold every page from which a table can come at its
    place in the direct map.  From such a state neither `pager_map`
    (`WithinReach.map_faults`) nor `pager_unmap` (`WithinReach.unmap_faults`)
    faults on a table, and a call that leaves the translations of these
    pointers alone leaves such a state (`WithinReach.of_walk`).

    `pager_init` leaves one when the direct map takes in all the RAM and the
    PML4 lies in one of the windows (`pagerInit_withinReach`). -/

namespace Pfi

open Words RadixTable Run

/-! ## Pointers -/

/-- The tables in force are those of the boot, or those of the pager. -/
def InForce (m : Machine) : Prop := m.cr3 = 0 ∨ m.cr3 / pageSize = m.root

/-- Every table that was granted came from a configured range. -/
def LoggedInRange (a : Avmf) (log : List Nat) : Prop :=
  ∀ x ∈ log, x ≠ 0 → ∃ i, a.InRange i (x / pageSize) 1

/-- The pager reaches its tables: the PML4 through `firmware_pml4`, which is
    its physical address, and every page that can become a table, or is one,
    at its place in the direct map. -/
structure WithinReach (m : Machine) : Prop where
  force : InForce m
  ready : m.pagerReady = true
  root : m.firmwarePml4 = m.root * pageSize
  pml4 : m.Reaches m.firmwarePml4
  pages : ∀ i f, m.avmf.InRange i f 1 → f < bitmapSize →
    m.Reaches (pagerPhysToVirt m (f * pageSize))
  logged : LoggedInRange m.avmf m.tableLog

/-- Page `n` is one through which the pager reaches a table. -/
def TablePage (m : Machine) (n : Nat) : Prop :=
  n = m.firmwarePml4 / pageSize ∨
    ∃ f, f < bitmapSize ∧ n = pagerPhysToVirt m (f * pageSize) / pageSize

theorem SameRegs.physToVirt {m m' : Machine} (h : SameRegs m m') (phys : Nat) :
    pagerPhysToVirt m' phys = pagerPhysToVirt m phys := by
  unfold pagerPhysToVirt
  rw [h.pagerReady]

theorem SameRegs.inForce {m m' : Machine} (h : SameRegs m m') (hm : InForce m) : InForce m' := by
  unfold InForce
  rw [h.cr3, h.root]
  exact hm

/-- A pointer whose translation is left alone reaches what it reached. -/
theorem Machine.Reaches.of_walk {m m' : Machine} {tbl : Nat} (h : m.Reaches tbl)
    (hforce : InForce m) (hregs : SameRegs m m')
    (hwalk : walkPage m'.mem m.root (tbl / pageSize) = walkPage m.mem m.root (tbl / pageSize)) :
    m'.Reaches tbl := by
  have hphys : m'.physical tbl = m.physical tbl := by
    unfold Machine.physical
    rw [hregs.cr3]
    rcases hforce with h0 | hroot
    · rw [if_pos h0, if_pos h0]
    · unfold Machine.translate hwWalk
      rw [hregs.cr3, hroot, hwalk]
  unfold Machine.Reaches
  rw [hphys]
  exact h

theorem Avmf.InRange.of_ranges {a a' : Avmf} {i s n : Nat} (hin : a'.InRange i s n)
    (h : RangesAre a a') : a.InRange i s n := by
  obtain ⟨hne, hlo, hhi⟩ := hin
  unfold Avmf.startPage at hlo
  unfold Avmf.endPage at hhi
  rw [h.base] at hne hlo
  rw [h.limit] at hne hhi
  exact ⟨hne, hlo, hhi⟩

theorem RangesAre.symm {a a' : Avmf} (h : RangesAre a a') : RangesAre a' a :=
  ⟨h.base.symm, h.limit.symm⟩

/-- A page that `alloc_page_table` is given comes from a configured range. -/
theorem LoggedInRange.table (m : Machine) (h : LoggedInRange m.avmf m.tableLog) :
    LoggedInRange (allocPageTable m).m.avmf (allocPageTable m).m.tableLog := by
  have hranges : RangesAre m.avmf (allocPageTable m).m.avmf :=
    allocPageTable_ranges ⟨rfl, rfl⟩
  have hold : ∀ x ∈ m.tableLog, x ≠ 0 →
      ∃ i, (allocPageTable m).m.avmf.InRange i (x / pageSize) 1 := by
    intro x hx hne
    obtain ⟨i, hin⟩ := h x hx hne
    exact ⟨i, hin.of_ranges hranges.symm⟩
  have hlog : (allocPageTable m).m.tableLog = m.tableLog ++ [0] ∨
      (allocPageTable m).m.tableLog
        = m.tableLog ++ [(avmfAllocPhysContiguous m.avmf pageSize).1] := by
    rcases allocPageTable_allocator (m := m) rfl rfl with ⟨-, -, h0⟩ | ⟨-, -, h0⟩
    · exact Or.inl h0
    · exact h0
  intro x hx hne
  rcases hlog with hlog | hlog
  · rw [hlog, List.mem_append, List.mem_singleton] at hx
    rcases hx with hx | hx
    · exact hold x hx hne
    · exact absurd hx hne
  · rw [hlog, List.mem_append, List.mem_singleton] at hx
    rcases hx with hx | hx
    · exact hold x hx hne
    · rcases avmfAllocPhysContiguous_cases m.avmf pageSize with
        hp | ⟨i, s, n, hn, -, -, hin, -, hp⟩
      · rw [hp] at hx
        exact absurd hx hne
      · rw [align4k_pageSize] at hn
        have hn1 : n = 1 := hn
        subst hn1
        rw [hp] at hx
        rw [hx, show s * 4096 / pageSize = s from Nat.mul_div_cancel s (by decide)]
        exact ⟨i, hin.of_ranges hranges.symm⟩

section Reach

variable {m : Machine}

theorem faultsAt_reached {tbl : Nat} (h : m.Reaches tbl) : m.faultsAt tbl = m.faults :=
  if_pos h

/-- Leaving the translations of the table pointers alone. -/
theorem WithinReach.of_walk {m' : Machine} (h : WithinReach m) (hregs : SameRegs m m')
    (hranges : RangesAre m.avmf m'.avmf) (hlogged : LoggedInRange m'.avmf m'.tableLog)
    (hwalk : ∀ n, TablePage m n → walkPage m'.mem m.root n = walkPage m.mem m.root n) :
    WithinReach m' := by
  refine ⟨hregs.inForce h.force, hregs.pagerReady.trans h.ready, ?_, ?_, ?_, hlogged⟩
  · rw [hregs.root, hregs.firmwarePml4]
    exact h.root
  · rw [hregs.firmwarePml4]
    exact h.pml4.of_walk h.force hregs (hwalk _ (Or.inl rfl))
  · intro i f hin hf
    rw [hregs.physToVirt]
    exact (h.pages i f (hin.of_ranges hranges) hf).of_walk h.force hregs
      (hwalk _ (Or.inr ⟨f, hf, rfl⟩))

/-- Recording accesses, or other marks in the bitmap, makes no difference. -/
theorem WithinReach.touch (h : WithinReach m) (tbl : Nat) : WithinReach (m.touch tbl) :=
  ⟨h.force, h.ready, h.root, h.pml4, h.pages, h.logged⟩

theorem WithinReach.of_avmf (h : WithinReach m) {a : Avmf} (hranges : RangesAre m.avmf a) :
    WithinReach { m with avmf := a } :=
  h.of_walk (sameRegs_with m a m.mem m.tableLog m.touched m.faults) hranges
    (fun x hx hne => (h.logged x hx hne).imp (fun _ hin => hin.of_ranges hranges.symm))
    (fun _ _ => rfl)

/-- The PML4 lies in the memory that the bitmap covers. -/
theorem WithinReach.pml4_low (h : WithinReach m) (hok : TablesOk m) :
    m.firmwarePml4 + pageSize ≤ bitmapSize * pageSize := by
  have hbitmap := (hok.owned [] m.root (tableAt_nil 3 m.root)).1
  rw [h.root, ← Nat.succ_mul]
  exact Nat.mul_le_mul_right pageSize hbitmap

/-- A table of the tree is reached through `pager_phys_to_virt`. -/
theorem WithinReach.table (h : WithinReach m) (hok : TablesOk m) (hlog : TablesGranted m)
    {p : List (Fin 512)} {g : Nat} (hp : tableAt x86Kind m.mem 3 m.root p = some g) :
    m.Reaches (pagerPhysToVirt m (g * pageSize)) := by
  obtain ⟨hlt, -, hlogged⟩ := hok.owned p g hp
  obtain ⟨i, hin⟩ := h.logged _ hlogged (hlog _ hlogged).1
  rw [show g * 4096 / pageSize = g from Nat.mul_div_cancel g (by decide)] at hin
  exact h.pages i g hin hlt

/-- The table that `alloc_page_table` obtains is zeroed through its place in
    the direct map. -/
theorem WithinReach.alloc_faults (h : WithinReach m)
    (hlog : TablesGranted (allocPageTable m).m) :
    (allocPageTable m).m.faults = m.faults ∧
      (allocPageTable m).tbl = pagerPhysToVirt m (allocPageTable m).phys := by
  have hlast : ∀ x, x ∈ m.tableLog ++ [x] :=
    fun x => List.mem_append_right _ List.mem_cons_self
  rcases allocPageTable_cases m with ⟨-, hres⟩ | ⟨-, -, hres⟩ | ⟨-, tbl, htbl, -, hres⟩
  · rw [hres] at hlog
    exact absurd rfl (hlog 0 (hlast 0)).1
  · rw [hres] at hlog
    exact absurd rfl (hlog 0 (hlast 0)).1
  · rw [hres] at hlog ⊢
    suffices hreach : m.Reaches tbl from
      ⟨faultsAt_reached (hreach.of_walk h.force (sameRegs_with m _ m.mem _ m.touched m.faults)
        rfl), htbl⟩
    rw [htbl]
    rcases avmfAllocPhysContiguous_cases m.avmf pageSize with
      hp | ⟨i, s, n, hn, -, -, hin, -, hp⟩
    · rw [hp] at hlog
      exact absurd rfl (hlog 0 (hlast 0)).1
    · rw [align4k_pageSize] at hn
      have hn1 : n = 1 := hn
      subst hn1
      rw [hp] at hlog ⊢
      have hlt := (hlog (s * 4096) (hlast (s * 4096))).2
      exact h.pages i s hin (by simp only [bitmapSize, pageSize] at hlt ⊢; omega)

/-! ## `pager_map` -/

/-- A table, with its pointer and the state in which it is reached. -/
structure AtHand (m : Machine) (r : Nat × Machine) : Prop where
  faults : r.2.faults = m.faults
  within : WithinReach r.2
  table : r.2.Reaches r.1

theorem AtHand.trans {m : Machine} {r r' : Nat × Machine} (h : AtHand m r) (h' : AtHand r.2 r') :
    AtHand m r' :=
  ⟨h'.faults.trans h.faults, h'.within, h'.table⟩

/-- One level of the descent: nothing faults, and the next table is at
    hand. -/
theorem WithinReach.next {p : List (Fin 512)} {tbl : Nat} {i : Fin 512} (h : WithinReach m)
    (hok : TablesOk m) (hp : tableAt x86Kind m.mem 3 m.root p = some (tableFrame tbl))
    (hlen : p.length < 3)
    (hleaf : p.length = 2 → m.mem (tableFrame tbl) i % 2 = 1 →
      m.mem (tableFrame tbl) i / 128 % 2 = 0)
    (hlog : TablesGranted (nextTable m tbl i).2) (htbl : m.Reaches tbl) :
    AtHand m (nextTable m tbl i) := by
  have hreached := nextTable_reached hok hp hlen hleaf hlog
  have hwithin : WithinReach (nextTable m tbl i).2 :=
    h.of_walk hreached.regs
      (nextTable_keeps (P := fun a _ => RangesAre m.avmf a)
        (fun _ hm => allocPageTable_ranges hm) ⟨rfl, rfl⟩)
      (nextTable_keeps LoggedInRange.table h.logged) (fun n _ => hreached.walk _)
  have hroot : (nextTable m tbl i).2.root = m.root := hreached.regs.root
  -- the next table is in the tree, so it is reached at its place
  have hplaced : (nextTable m tbl i).1
      = pagerPhysToVirt m (tableFrame (nextTable m tbl i).1 * pageSize) →
      (nextTable m tbl i).2.Reaches (nextTable m tbl i).1 := by
    intro hptr
    have htable := hreached.table
    rw [← hroot] at htable
    have hat := hwithin.table hreached.ok hlog htable
    rw [hreached.regs.physToVirt, ← hptr] at hat
    exact hat
  by_cases he : m.mem (tableFrame tbl) i % 2 = 0
  · obtain ⟨hptr, hres⟩ := nextTable_of_absent he
    have hlog' : TablesGranted (allocPageTable (m.touch tbl)).m := by
      rw [hres, tablesGranted_setEntry] at hlog
      exact hlog
    obtain ⟨hfaults, hplace⟩ := (h.touch tbl).alloc_faults hlog'
    obtain ⟨g, hg⟩ := allocPageTable_obtained hlog'
    have hregs := sameRegs_allocPageTable (m.touch tbl)
    have haside := hg.setAside (hok.touch hp) hregs
    have hstill : (allocPageTable (m.touch tbl)).m.Reaches tbl :=
      htbl.of_walk h.force ((sameRegs_touch m tbl).trans hregs) (haside.walk _)
    refine ⟨?_, hwithin, hplaced ?_⟩
    · rw [hres, setEntry_faults, faultsAt_reached hstill, hfaults, touch_faults,
        faultsAt_reached htbl]
    · rw [hptr, hg.frame, hplace, hg.phys]
      exact (sameRegs_touch m tbl).physToVirt _
  · obtain ⟨hptr, hres⟩ := nextTable_of_present he
    have hodd : m.mem (tableFrame tbl) i % 2 = 1 := by omega
    refine ⟨?_, hwithin, hplaced ?_⟩
    · rw [hres, touch_faults, faultsAt_reached htbl]
    · rcases hok.entries p _ i hp hlen hodd with ⟨hl, hb⟩ | ⟨g, hg, hlink⟩
      · have := hleaf (by omega) hodd
        omega
      · rw [hptr, hlink, linkEntry_frame hg, tableFrame_physToVirt m hg]

/-- The descent to the page directory. -/
theorem WithinReach.directory (h : WithinReach m) (hok : TablesOk m) (virt : Nat)
    (hlog : TablesGranted (pageDirectory m virt).2) : AtHand m (pageDirectory m virt) := by
  have hlog1 : TablesGranted (nextTable m m.firmwarePml4 (tableIndex virt 39)).2 :=
    hlog.of_mono (fun x hx => nextTable_log_mono _ _ _ hx)
  have hroot : tableAt x86Kind m.mem 3 m.root [] = some (tableFrame m.firmwarePml4) :=
    tableAt_nil 3 m.root
  have h1 : Reached m [tableIndex virt 39] (nextTable m m.firmwarePml4 (tableIndex virt 39)) :=
    nextTable_reached hok hroot (Nat.zero_lt_succ 2) (fun h => absurd h (by decide)) hlog1
  have hat1 : AtHand m (nextTable m m.firmwarePml4 (tableIndex virt 39)) :=
    h.next hok hroot (Nat.zero_lt_succ 2) (fun h => absurd h (by decide)) hlog1 h.pml4
  have htable := h1.table
  rw [← h1.regs.root] at htable
  exact hat1.trans (hat1.within.next h1.ok htable (Nat.one_lt_succ_succ 1)
    (fun h => absurd h (by rw [List.length_singleton]; decide)) hlog hat1.table)

/-- A call of `pager_map` that gets its tables, and takes no 2 MiB leaf for
    one, faults on none. -/
theorem WithinReach.map_faults (h : WithinReach m) (hok : TablesOk m) {c : MapCall}
    (hfits : ¬ c.SplitsHuge m) (hlog : TablesGranted (mapStep m c)) :
    (mapStep m c).faults = m.faults := by
  unfold mapStep at hlog ⊢
  by_cases hrej : exceedsCpu m c.phys = true
  · rw [pagerMap_rejected hrej]
  · have hacc := Bool.not_eq_true _ ▸ hrej
    rw [pagerMap_accepted hacc] at hlog ⊢
    by_cases hhuge : c.flags &&& pageHuge ≠ 0
    · rw [if_pos hhuge] at hlog ⊢
      rw [tablesGranted_setEntry] at hlog
      have hat := h.directory hok c.virt hlog
      rw [setEntry_faults, faultsAt_reached hat.table]
      exact hat.faults
    · rw [if_neg hhuge] at hlog ⊢
      dsimp only at hlog ⊢
      rw [tablesGranted_setEntry] at hlog
      have hlogd : TablesGranted (pageDirectory m c.virt).2 :=
        hlog.of_mono (fun x hx => nextTable_log_mono _ _ _ hx)
      have hpd := pageDirectory_reached c.virt hok hlogd
      have hatd := h.directory hok c.virt hlogd
      have htable := hpd.table
      rw [← hpd.regs.root] at htable
      have hsmall : hugeAt m.mem m.root (c.virt / 4096) = false :=
        Bool.not_eq_true _ ▸ fun hh => hfits ⟨hacc, hhuge, hh⟩
      have hat := hatd.trans (hatd.within.next hpd.ok htable (Nat.lt_succ_self 2)
        (fun _ => not_leaf_of_not_huge hpd hsmall) hlog hatd.table)
      rw [setEntry_faults, faultsAt_reached hat.table]
      exact hat.faults

/-- A call that leaves the translations of the table pointers alone leaves
    them within reach. -/
theorem WithinReach.map (h : WithinReach m) {c : MapCall}
    (hkept : ∀ n, TablePage m n →
      walkPage (mapStep m c).mem m.root n = walkPage m.mem m.root n) :
    WithinReach (mapStep m c) :=
  h.of_walk (sameRegs_mapStep m c)
    (pagerMap_keeps (P := fun a _ => RangesAre m.avmf a) (fun _ hm => allocPageTable_ranges hm)
      ⟨rfl, rfl⟩)
    (pagerMap_keeps LoggedInRange.table h.logged) hkept

/-! ## `pager_unmap` -/

/-- A table that an entry links is at hand. -/
theorem WithinReach.follow (h : WithinReach m) (hok : TablesOk m) (hlog : TablesGranted m)
    {p : List (Fin 512)} {i : Fin 512} {f : Nat}
    (hp : tableAt x86Kind m.mem 3 m.root p = some f) (hlen : p.length < 3)
    (hodd : m.mem f i % 2 = 1) (hleaf : p.length = 2 → m.mem f i / 128 % 2 = 0) :
    m.Reaches (pagerPhysToVirt m (m.mem f i &&& not64 0xFFF)) := by
  have htable := follow_link hok hp hlen hodd hleaf
  rcases hok.entries p f i hp hlen hodd with ⟨hl, hb⟩ | ⟨g, hg, hlink⟩
  · have := hleaf (by omega)
    omega
  · rw [hlink, linkEntry_frame hg, tableFrame_physToVirt m hg] at htable
    rw [hlink, linkEntry_frame hg]
    exact h.table hok hlog htable

/-- `pager_unmap` faults on no table. -/
theorem WithinReach.unmap_faults (h : WithinReach m) (hok : TablesOk m) (hlog : TablesGranted m)
    (hmapped : m.mappedPml4 = m.firmwarePml4) (virt : Nat) :
    (pagerUnmap m virt).faults = m.faults := by
  have hroot : tableAt x86Kind m.mem 3 m.root [] = some (tableFrame m.firmwarePml4) :=
    tableAt_nil 3 m.root
  have hone : [tableIndex virt 39].length ≠ 2 := by
    rw [List.length_singleton]
    decide
  unfold pagerUnmap
  rw [hmapped]
  extract_lets pml4 m4 e4 pdpt m3 e3 pd m2 e2 pt m1
  by_cases hpml4 : pml4 = 0
  · rw [if_pos hpml4]
  rw [if_neg hpml4]
  -- PML4
  have hf4 : m4.faults = m.faults := faultsAt_reached h.pml4
  by_cases he4 : e4 % 2 = 0
  · rw [if_pos ((and_present _).trans he4)]
    exact hf4
  rw [if_neg (fun hc => he4 ((and_present _).symm.trans hc))]
  have ho4 := Nat.mod_two_ne_zero.mp he4
  have h3 : tableAt x86Kind m.mem 3 m.root [tableIndex virt 39] = some (tableFrame pdpt) :=
    follow_link hok hroot (by decide) ho4 (fun h => absurd h (by decide))
  have hr3 : m.Reaches pdpt :=
    h.follow hok hlog hroot (by decide) ho4 (fun h => absurd h (by decide))
  -- PDPT
  have hs3 : m4.Reaches pdpt := hr3
  have hf3 : m3.faults = m.faults := (faultsAt_reached hs3).trans hf4
  by_cases he3 : e3 % 2 = 0
  · rw [if_pos ((and_present _).trans he3)]
    exact hf3
  rw [if_neg (fun hc => he3 ((and_present _).symm.trans hc))]
  have ho3 := Nat.mod_two_ne_zero.mp he3
  have h2 : tableAt x86Kind m.mem 3 m.root (pdPath virt) = some (tableFrame pd) :=
    follow_link hok h3 (by rw [List.length_singleton]; decide) ho3 (fun h => absurd h hone)
  have hr2 : m.Reaches pd :=
    h.follow hok hlog h3 (by rw [List.length_singleton]; decide) ho3 (fun h => absurd h hone)
  -- page directory
  have hr2' : m3.Reaches pd := hr2
  have hf2 : m2.faults = m.faults := (faultsAt_reached hr2').trans hf3
  have hs2 : m2.Reaches pd := hr2
  by_cases hbit : e2 / 128 % 2 = 1
  · rw [if_pos ((and_huge_ne _).mpr hbit), setEntry_faults, faultsAt_reached hs2]
    exact hf2
  rw [if_neg (fun hc => hbit ((and_huge_ne _).mp hc))]
  by_cases he2 : e2 % 2 = 0
  · rw [if_pos ((and_present _).trans he2)]
    exact hf2
  rw [if_neg (fun hc => he2 ((and_present _).symm.trans hc))]
  have hr1 : m.Reaches pt := h.follow hok hlog h2 (Nat.lt_succ_self 2)
    (Nat.mod_two_ne_zero.mp he2) (fun _ => Nat.mod_two_ne_one.mp hbit)
  -- page table
  have hr1' : m2.Reaches pt := hr1
  have hf1 : m1.faults = m.faults := (faultsAt_reached hr1').trans hf2
  have hs1 : m1.Reaches pt := hr1
  rw [setEntry_faults, faultsAt_reached hs1]
  exact hf1

/-- An unmapping whose leaf translates no table pointer leaves them within
    reach. -/
theorem WithinReach.unmap (h : WithinReach m) (hok : TablesOk m) (hlog : TablesGranted m)
    (hmapped : m.mappedPml4 = m.firmwarePml4) {virt : Nat}
    (hkept : ∀ n, TablePage m n → ¬ SameLeaf m virt n) : WithinReach (pagerUnmap m virt) := by
  have hun := pagerUnmap_unmapped virt hok hmapped (hok.pml4_ne hlog)
  obtain ⟨havmf, hlogs⟩ := pagerUnmap_allocator m virt
  refine h.of_walk hun.regs (by rw [havmf]; exact ⟨rfl, rfl⟩) ?_
    (fun n hn => hun.kept n (hkept n hn))
  rw [havmf, hlogs]
  exact h.logged

/-! ## Blocks -/

/-- No page of the block is one through which the pager reaches a table. -/
def Block.SparesTables (m : Machine) (b : Block) : Prop :=
  ∀ n, TablePage m n → ∀ k, 4096 * k < b.size → n % 2 ^ 36 ≠ (b.virt / 4096 + k) % 2 ^ 36

theorem Block.SparesTables.of_sameRegs {m' : Machine} {b : Block} (h : b.SparesTables m)
    (hregs : SameRegs m m') : b.SparesTables m' := by
  intro n hn
  refine h n ?_
  unfold TablePage at hn ⊢
  rw [hregs.firmwarePml4] at hn
  rcases hn with hn | ⟨f, hf, hn⟩
  · exact Or.inl hn
  · rw [hregs.physToVirt] at hn
    exact Or.inr ⟨f, hf, hn⟩

/-- A block in one of the heaps spares the direct map, and the PML4 too if it
    does not hold its identity page. -/
theorem WithinReach.spares (h : WithinReach m) (hok : TablesOk m) {b : Block} (hb : b.Placed)
    (hpml4 : Apart b.virt b.size m.firmwarePml4 pageSize) : b.SparesTables m := by
  have hbitmap := (hok.owned [] m.root (tableAt_nil 3 m.root)).1
  have hroot := h.root
  have hspace := hb.space
  have hvirt := hb.virtPage
  have hsize := hb.sizePage
  unfold Apart at hpml4
  simp only [bitmapSize] at hbitmap
  simp only [aosKernelSpaceBase] at hspace
  intro n hn k hk hkey
  rcases hn with rfl | ⟨f, hf, rfl⟩
  · simp only [pageSize] at hpml4 hroot hkey
    omega
  · simp only [bitmapSize] at hf
    unfold pagerPhysToVirt at hkey
    rw [if_pos h.ready, add64_of_lt (by simp only [pageSize, aosDirectMapBase]; omega)] at hkey
    simp only [pageSize, aosDirectMapBase] at hkey
    omega

section Range

variable {virt phys size flags k : Nat}

/-- The loop of `pager_map_range` from page `k` on, over pages through which no
    table is reached.  The induction is on the turns left. -/
theorem WithinReach.loop {fuel : Nat} (h : WithinReach m)
    (hargs : RangeArgs m virt phys size flags) (hok : TablesOk m)
    (hfront : RangeHuge virt phys size k → (virt / 4096 + k) % 512 = 0)
    (hsmall : ∀ k', k ≤ k' → 4096 * k' < size →
      hugeAt m.mem m.root (virt / 4096 + k') = false)
    (hspares : ∀ n, TablePage m n → ∀ k', k ≤ k' → 4096 * k' < size →
      n % 2 ^ 36 ≠ (virt / 4096 + k') % 2 ^ 36)
    (hlog : TablesGranted (pagerMapRangeLoop virt phys size flags fuel m (4096 * k))) :
    (pagerMapRangeLoop virt phys size flags fuel m (4096 * k)).faults = m.faults ∧
      WithinReach (pagerMapRangeLoop virt phys size flags fuel m (4096 * k)) := by
  induction fuel generalizing m k with
  | zero => exact ⟨rfl, h⟩
  | succ fuel ih =>
      by_cases hk : 4096 * k < size
      · have hword := hargs.physWord
        have hlen := hargs.length
        have hpage : (virt + 4096 * k) / 4096 = virt / 4096 + k := by omega
        have hmono : ∀ (m₁ : Machine) (off : Nat), TablesGranted
            (pagerMapRangeLoop virt phys size flags fuel m₁ off) → TablesGranted m₁ :=
          fun m₁ off h => h.of_mono
            (fun x hx => pagerMapRangeLoop_log_mono virt phys size flags fuel m₁ off hx)
        -- the pages of the tables are the same after each turn
        have hpages : ∀ {m₁ : Machine}, SameRegs m m₁ → ∀ n, TablePage m₁ n → TablePage m n := by
          intro m₁ hregs n hn
          unfold TablePage at hn ⊢
          rw [hregs.firmwarePml4] at hn
          exact hn.imp_right (fun ⟨f, hf, hf'⟩ => ⟨f, hf, by rw [← hregs.physToVirt]; exact hf'⟩)
        rw [pagerMapRangeLoop_step hargs hfront hk] at hlog ⊢
        by_cases hr : RangeHuge virt phys size k
        · -- a 2 MiB page: the turn goes on by 512 pages
          rw [if_pos hr] at hlog ⊢
          have hlog1 := hmono _ _ hlog
          have hstart := hfront hr
          have hfits := hr.fits
          unfold rangeSlot at hfits
          have hregs := sameRegs_pagerMap m (virt + 4096 * k) (phys + 4096 * k)
            (flags ||| pageHuge)
          obtain ⟨hok1, hwalk⟩ := pagerMap_huge hok (hargs.accepted hk) (by omega)
            (or_huge_bit flags) hlog1
          rw [hpage] at hwalk
          have hfaults := @WithinReach.map_faults m h hok
            ⟨virt + 4096 * k, phys + 4096 * k, flags ||| pageHuge⟩
            (fun hc => hc.2.1 ((and_huge_ne _).mpr (or_huge_bit flags))) hlog1
          have hreach := @WithinReach.map m h
            ⟨virt + 4096 * k, phys + 4096 * k, flags ||| pageHuge⟩ (fun n hn => by
              refine (hwalk n).trans (if_neg fun hc => ?_)
              exact hspares n hn (k + n % 512) (by omega) (by omega) (by omega))
          unfold mapStep at hfaults hreach
          obtain ⟨hrest, hreach'⟩ := ih hreach (hargs.of_sameRegs hregs) hok1
            (k := k + 512) (fun _ => by omega)
            (fun k' hk' hlt => by
              rw [hregs.root]
              exact small_after_slot hargs hstart hwalk hsmall hk' hlt)
            (fun n hn k' hk' hlt => hspares n (hpages hregs n hn) k' (by omega) hlt) hlog
          exact ⟨hrest.trans hfaults, hreach'⟩
        · -- a 4 KiB page: the turn goes on by one
          rw [if_neg hr] at hlog ⊢
          have hlog1 := hmono _ _ hlog
          have hregs := sameRegs_pagerMap m (virt + 4096 * k) (phys + 4096 * k) flags
          have hfirst := hsmall k (Nat.le_refl k) hk
          obtain ⟨hok1, hwalk⟩ := pagerMap_page hok (hargs.accepted hk) (by omega) hargs.small
            (by rw [hpage]; exact hfirst) hlog1
          rw [hpage] at hwalk
          have hfaults := @WithinReach.map_faults m h hok ⟨virt + 4096 * k, phys + 4096 * k, flags⟩
            (fun hc => by
              have hhuge : hugeAt m.mem m.root ((virt + 4096 * k) / 4096) = true := hc.2.2
              rw [hpage, hfirst] at hhuge
              cases hhuge) hlog1
          have hreach := @WithinReach.map m h ⟨virt + 4096 * k, phys + 4096 * k, flags⟩
            (fun n hn => (hwalk n).trans (if_neg (hspares n hn k (Nat.le_refl k) hk)))
          unfold mapStep at hfaults hreach
          obtain ⟨hrest, hreach'⟩ := ih hreach (hargs.of_sameRegs hregs) hok1
            (k := k + 1) (rangeHuge_next hr)
            (fun k' hk' hlt => by
              rw [hregs.root]
              exact small_after_page hargs hwalk hsmall hk' hlt)
            (fun n hn k' hk' hlt => hspares n (hpages hregs n hn) k' (by omega) hlt) hlog
          exact ⟨hrest.trans hfaults, hreach'⟩
      · simp only [pagerMapRangeLoop]
        rw [if_neg hk]
        exact ⟨rfl, h⟩

end Range

/-- Mapping a block that spares the tables faults on none, and leaves them
    within reach. -/
theorem WithinReach.mappable (h : WithinReach m) {live : List Block} {b : Block} {flags : Nat}
    (hm : Mappable m live b flags) (hspares : b.SparesTables m)
    (hlog : TablesGranted (pagerMapRange m b.virt b.phys b.size flags)) :
    (pagerMapRange m b.virt b.phys b.size flags).faults = m.faults ∧
      WithinReach (pagerMapRange m b.virt b.phys b.size flags) := by
  unfold pagerMapRange at hlog ⊢
  refine h.loop (k := 0) hm.args hm.agrees.tables ?_ (fun k _ hk => hm.small k hk)
    (fun n hn k _ hk => hspares n hn k hk) hlog
  intro hr
  have hstart := hr.starts
  omega

end Reach

/-! ## Runs of allocations and frees -/

/-- The tables are within reach, and no live block takes a page through which
    they are reached. -/
structure Sys.Within (s : Sys) : Prop where
  reach : WithinReach s.m
  spared : ∀ b ∈ s.live, b.SparesTables s.m

theorem WithinReach.sys {m : Machine} (h : WithinReach m) : Sys.Within { m := m } :=
  ⟨h, fun _ hb => absurd hb List.not_mem_nil⟩

/-- The block of the allocation, if one is given, does not take the page at
    which the PML4 is reached. -/
def SparesPml4 (m : Machine) (size : Nat) (type : MemoryAllocType) (flags : Nat) : Prop :=
  (avmfAlloc m size type flags).virt ≠ 0 →
    Apart (avmfAlloc m size type flags).virt (align4k size) m.firmwarePml4 pageSize

instance (m : Machine) (size : Nat) (type : MemoryAllocType) (flags : Nat) :
    Decidable (SparesPml4 m size type flags) :=
  inferInstanceAs (Decidable (_ → (_ + _ : Nat) ≤ _ ∨ (_ + _ : Nat) ≤ _))

section Runs

variable {s : Sys} {size flags : Nat} {type : MemoryAllocType} {b : Block}

/-- An allocation faults on no table. -/
theorem Sys.Within.alloc (h : s.Within) (hok : s.Ok) (ht : type ≠ .unknown)
    (hflags : flags &&& pageHuge = 0)
    (hclear : (avmfAlloc s.m size type flags).virt ≠ 0 → type = .user → UserClear s.m.avmf size)
    (hspares : SparesPml4 s.m size type flags)
    (hgranted : (s.step (.alloc size type flags)).Granted) :
    (avmfAlloc s.m size type flags).m.faults = s.m.faults ∧
      (s.step (.alloc size type flags)).Within := by
  have hw : (avmfAlloc s.m size type flags).m.avmf.wrapped = false := hgranted.1
  have hlog : TablesGranted (avmfAlloc s.m size type flags).m := hgranted.2
  have hplaced := (hok.alloc ht hflags hclear hgranted).agrees.placed
  rw [and_huge] at hflags
  generalize hv : avmfAllocVirt s.m.avmf size type = v
  generalize hp : avmfAllocPhysContiguous v.2 (align4k size) = p
  generalize hr : avmfAllocRegion p.2 v.1 p.1 (align4k size) flags = r
  obtain ⟨-, hvl, hvb⟩ := avmfAllocVirt_bitmap s.m.avmf size type
  rw [hv] at hvl hvb
  have hpranges := allocPhys_ranges v.2 (align4k size)
  rw [hp] at hpranges
  obtain ⟨-, hrl, hrb⟩ := avmfAllocRegion_bitmap p.2 v.1 p.1 (align4k size) flags
  rw [hr] at hrl hrb
  have h1 : RangesAre s.m.avmf v.2 := ⟨hvb, hvl⟩
  have h2 : RangesAre s.m.avmf p.2 := h1.trans hpranges
  have h3 : RangesAre s.m.avmf r.2 := h2.trans ⟨hrb, hrl⟩
  unfold Sys.step at hplaced ⊢
  dsimp only at hplaced ⊢
  unfold SparesPml4 at hspares
  -- an allocation that fails has touched no table
  have hfailed : ∀ {a : Avmf}, RangesAre s.m.avmf a →
      (AllocResult.mk 0 none { s.m with avmf := a }).m.faults = s.m.faults ∧
        Sys.Within { m := { s.m with avmf := a }, live := s.live,
                     asked := fun t => s.asked t + (if t = type then pageRound size else 0) } :=
    fun {a} ha => ⟨rfl, h.reach.of_avmf ha, fun b hb => (h.spared b hb).of_sameRegs
      (sameRegs_with s.m a s.m.mem s.m.tableLog s.m.touched s.m.faults)⟩
  rcases avmfAlloc_cases hv hp hr with ⟨-, hres⟩ | ⟨-, -, hres⟩ | ⟨-, -, -, hres⟩ |
      ⟨hv0, hp0, hr0, hres⟩
  · rw [hres]
    exact hfailed h1
  · rw [hres]
    exact hfailed h2
  · rw [hres]
    exact hfailed h3
  · rw [hres] at hw hlog hclear hspares hplaced ⊢
    unfold AllocResult.live AllocResult.block at hplaced ⊢
    rw [if_neg hv0] at hplaced ⊢
    -- the block is mapped clear of the pages through which the tables are reached
    have hmappable := avmfAlloc_mappable ht (by omega) (hclear hv0) hok.owned hok.agrees hv hp hr
      hv0 hp0 hr0 (map_unwrapped hr hw)
    have hreach := h.reach.of_avmf h3
    have hblock := hreach.spares hmappable.agrees.tables
      (hplaced _ List.mem_cons_self) (hspares hv0)
    obtain ⟨hfaults, hafter⟩ := hreach.mappable hmappable hblock hlog
    have hregs := sameRegs_pagerMapRange { s.m with avmf := r.2 } v.1 p.1 (align4k size) flags
    refine ⟨hfaults, hafter, fun b hb => ?_⟩
    rcases List.mem_cons.mp hb with rfl | hb
    · exact hblock.of_sameRegs hregs
    · exact ((h.spared b hb).of_sameRegs
        (sameRegs_with s.m r.2 s.m.mem s.m.tableLog s.m.touched s.m.faults)).of_sameRegs hregs

/-- A free of a live block faults on no table. -/
theorem Sys.Within.free (h : s.Within) (hok : s.Ok) (hlog : TablesGranted s.m)
    (hb : b ∈ s.live) :
    (avmfFree s.m b.virt).faults = s.m.faults ∧ (s.step (.free b.virt)).Within := by
  obtain ⟨j, -, hres⟩ := avmfFree_live hok.owned hb
  obtain ⟨a, hagrees, havmf, hun⟩ := avmfFree_unmapped hok.owned hok.agrees hlog hb
  have hranges : RangesAre s.m.avmf a := by
    rw [← havmf, hres, (pagerUnmap_allocator _ _).1]
    exact ⟨rfl, rfl⟩
  have hunmap : avmfFree s.m b.virt = pagerUnmap { s.m with avmf := a } b.virt := by
    rw [← havmf, hres, (pagerUnmap_allocator _ _).1]
  have hreach := h.reach.of_avmf hranges
  obtain ⟨flags, hmapped⟩ := hagrees.blocks b hb
  have hkept : ∀ n, TablePage { s.m with avmf := a } n →
      ¬ SameLeaf { s.m with avmf := a } b.virt n := by
    intro n hn hsame
    obtain ⟨k, hk, hkey⟩ := hmapped.sameLeaf (hagrees.placed b hb).pos hsame
    exact h.spared b hb n hn k hk hkey
  have hfaults := hreach.unmap_faults hagrees.tables hlog hagrees.mapped b.virt
  have hafter := hreach.unmap hagrees.tables hlog hagrees.mapped hkept
  rw [← hunmap] at hfaults hafter
  refine ⟨hfaults, hafter, fun b' hb' => ?_⟩
  have hregs : SameRegs s.m (avmfFree s.m b.virt) :=
    (sameRegs_with s.m a s.m.mem s.m.tableLog s.m.touched s.m.faults).trans hun.regs
  exact (h.spared b' (List.mem_filter.mp hb').1).of_sameRegs hregs

end Runs

/-! ## After `pager_init` -/

section Window

variable {top base size : Nat} {W H : Nat → Prop} {m : Machine}

/-- A window leaves the pages above 4 GiB alone. -/
theorem InitTables.outside (h : InitTables top W H m) (hend : base + size ≤ 2 ^ 32)
    (hsmall : ∀ k, 4096 * k < size → ¬ H (base / 4096 + k))
    (hlog : TablesGranted (pagerMapRange m base base size (pagePresent ||| pageRw)))
    {n : Nat} (hn : 2 ^ 20 ≤ n % 2 ^ 36) :
    walkPage (pagerMapRange m base base size (pagePresent ||| pageRw)).mem m.root n
      = walkPage m.mem m.root n := by
  have hmapped := pagerMapRange_mapped (h.args hend) h.ok (h.small _ _ hend hsmall) hlog
  refine hmapped.outside n (fun k _ hk hkey => ?_)
  omega

/-- The three windows leave the direct map alone. -/
theorem mapIdentity_outside (h : InitTables top (fun _ => False) (fun _ => False) m)
    (hlog : TablesGranted (mapIdentity m)) {n : Nat} (hn : 2 ^ 20 ≤ n % 2 ^ 36) :
    walkPage (mapIdentity m).mem m.root n = walkPage m.mem m.root n := by
  rw [mapIdentity_eq] at hlog ⊢
  have hlog2 := hlog.of_mono (fun x hx => pagerMapRange_log_mono _ _ _ _ _ hx)
  have hlog1 := hlog2.of_mono (fun x hx => pagerMapRange_log_mono _ _ _ _ _ hx)
  have hcode := h.code hlog1
  have hstack := hcode.stack hlog2
  have h1 := h.outside (by decide) (fun k _ hc => hc) hlog1 hn
  have h2 := hcode.outside (by decide) stack_not_code hlog2 hn
  have h3 := hstack.outside (by decide) data_not_code hlog hn
  have hr1 := (sameRegs_pagerMapRange m 0xFF000000 0xFF000000 0x00FFFFFF
    (pagePresent ||| pageRw)).root
  have hr2 := (sameRegs_pagerMapRange (pagerMapRange m 0xFF000000 0xFF000000 0x00FFFFFF
    (pagePresent ||| pageRw)) 0x0 0x0 0x80000 (pagePresent ||| pageRw)).root
  rw [hr1] at h2 hr2
  rw [hr2] at h3
  exact h3.trans (h2.trans h1)

end Window

/-- The first page of the supply becomes the PML4. -/
theorem allocPml4_first {retries g n : Nat} {m m' : Machine} (hpml4 : m.firmwarePml4 = 0)
    (hoff : m.pagerReady = false) (hsupply : Supply m.avmf g n) (hn : 0 < n)
    (hres : allocPml4 retries m = some m') (hlog : TablesGranted m') :
    m'.firmwarePml4 = g * pageSize := by
  cases retries with
  | zero =>
      unfold allocPml4 at hres
      rw [if_pos hpml4] at hres
      cases hres
  | succ retries =>
      simp only [allocPml4] at hres
      rw [if_pos hpml4] at hres
      have htakes := hsupply.takes Nat.one_pos hn
      have hptr := allocPageTable_ptr hoff
      have hpos := hsupply.pos
      have hphys : TablesGranted (allocPageTable m).m →
          (allocPageTable m).phys = g * 4096 := by
        intro hgranted
        have hlast : ∀ x, x ∈ m.tableLog ++ [x] :=
          fun x => List.mem_append_right _ List.mem_cons_self
        rcases allocPageTable_cases m with ⟨-, h⟩ | ⟨-, -, h⟩ | ⟨-, tbl, -, -, h⟩
        · rw [h] at hgranted
          exact absurd rfl (hgranted 0 (hlast 0)).1
        · rw [h] at hgranted
          exact absurd rfl (hgranted 0 (hlast 0)).1
        · rw [h]
          show (avmfAllocPhysContiguous m.avmf (4096 * 1)).1 = g * 4096
          rw [htakes]
      have hkeep : ∀ r : TableAlloc,
          allocPml4 retries { r.m with firmwarePml4 := r.tbl } = some m' → TablesGranted r.m :=
        fun r hr => hlog.of_mono (fun x hx => allocPml4_keeps (P := fun _ log => x ∈ log)
          allocPageTable_log_mono (m := { r.m with firmwarePml4 := r.tbl }) hx hr)
      have hpage := hphys (hkeep _ hres)
      generalize allocPageTable m = r at hres hptr hpage
      rw [hpage] at hptr
      rw [allocPml4_done (m := { r.m with firmwarePml4 := r.tbl })
        (show r.tbl ≠ 0 by rw [hptr]; omega)] at hres
      rw [← Option.some.inj hres]
      exact hptr

section Init

variable {mem : Nat → Fin 512 → Nat} {e820 : List E820Entry} {bits retries : Nat} {m : Machine}

theorem pagerInit_pml4 {g n : Nat}
    (hsupply : Supply (initAvmf (bootMachine mem) e820 bits).avmf g n) (hn : 0 < n)
    (hres : pagerInit (bootMachine mem) e820 bits retries = some m) (hlog : TablesGranted m) :
    m.firmwarePml4 = g * pageSize := by
  obtain ⟨m₁, hpml4, rfl⟩ := buildTables_some (m := initAvmf (bootMachine mem) e820 bits) rfl hres
  have hlog1 : TablesGranted m₁ := (hlog.of_loaded.of_mono (fun x hx =>
    mapIdentity_log_mono _ hx)).of_mono (fun x hx => mapDirect_log_mono _ _ _ hx)
  have hregs := (sameRegs_mapDirect e820 0 m₁).trans (sameRegs_mapIdentity _)
  rw [loaded_firmwarePml4, hregs.firmwarePml4]
  exact allocPml4_first rfl rfl hsupply hn hpml4 hlog1

/-- `pager_init` leaves its tables within reach where the direct map takes in
    all the RAM and the PML4 lies in a window. -/
theorem pagerInit_withinReach (hmap : E820Ok e820 bits (2 ^ 45)) (hlen : ∀ e ∈ e820, 0 < e.len)
    (hbits : 32 ≤ bits ∧ bits ≤ 45)
    (hres : pagerInit (bootMachine mem) e820 bits retries = some m) (hlog : TablesGranted m)
    (hram : RamBelow e820 (4096 * directPages e820 (2 ^ bits)))
    (hpml4 : InWindow m.firmwarePml4) : WithinReach m := by
  have hdone := pagerInit_done hmap (by decide) (by omega) hres hlog
  have hlimits := pagerInit_limits hram hres
  have hlogged : LoggedInRange m.avmf m.tableLog :=
    buildTables_keeps LoggedInRange.table
      (show (initAvmf (bootMachine mem) e820 bits).pagerReady = false from rfl)
      (fun x hx => absurd hx List.not_mem_nil) hres
  have hne := hdone.tables.ok.pml4_ne hlog
  have hcr3 : m.cr3 ≠ 0 := by
    rw [hdone.loaded]
    exact hne
  have hframe := hdone.pml4
  obtain ⟨m₁, hpml4', hm⟩ := buildTables_some (m := initAvmf (bootMachine mem) e820 bits) rfl hres
  have hready : m.pagerReady = true := by
    rw [hm]
    exact loaded_pagerReady _
  -- the direct map, through the windows
  have hdirect : ∀ p, p / 4096 < directPages e820 (2 ^ bits) → p < 2 ^ 47 →
      (hwWalk m.mem m.root (aosDirectMapBase + p)).map Prod.fst = some p := by
    rw [hm] at hlog ⊢
    have hlog3 := hlog.of_loaded
    have hlog2 := hlog3.of_mono (fun x hx => mapIdentity_log_mono _ hx)
    have hlog1 := hlog2.of_mono (fun x hx => mapDirect_log_mono _ _ _ hx)
    obtain ⟨hempty, -, hbits1⟩ := initPml4 hpml4' hlog1
    obtain ⟨last, hle, hmapped⟩ := mapDirect_mapped hmap (by decide) hbits1
      (fun e _ => Nat.zero_le _) (Nat.zero_le _) (hempty.directMapped (by omega)) hlog2
    have hbits2 := (sameRegs_mapDirect e820 0 m₁).cpuPhysBits.trans hbits1
    have hloop : directMapLoop mem e820 bits retries = some (mapDirect e820 0 m₁) := by
      unfold directMapLoop
      rw [hpml4']
      rfl
    have hcovered := directMapLoop_covered hmap hlen hbits hloop hlog2
    have hregs := sameRegs_mapIdentity (mapDirect e820 0 m₁)
    intro p hp hlt
    have hold := hcovered.identity p hp
    rw [loaded_mem, loaded_root, hregs.root]
    unfold hwWalk at hold ⊢
    rw [mapIdentity_outside (hmapped.initTables hle (by omega)) hlog3]
    · exact hold
    · simp only [aosDirectMapBase, pageSize]
      omega
  refine ⟨Or.inr hdone.root, hready, hframe, ?_, ?_, hlogged⟩
  · have hreach := (pml4_reached_iff hdone).mpr hpml4
    have hcan : Canonical m.firmwarePml4 := by
      left
      unfold InWindow at hpml4
      omega
    unfold Machine.Reaches Machine.physical
    rw [if_pos hcan, if_neg hcr3, hreach, hdone.loaded]
    exact congrArg some hframe
  · intro i f hin hf
    have hupper := hin.upper
    have hle := hlimits i
    unfold Avmf.endPage at hupper
    simp only [pageShift, Nat.shiftRight_eq_div_pow] at hupper
    simp only [bitmapSize] at hf
    have hwalk := hdirect (f * pageSize) (by simp only [pageSize]; omega)
      (by simp only [pageSize]; omega)
    unfold Machine.Reaches
    rw [tableFrame_physToVirt m (show f < bitmapSize from hf)]
    unfold pagerPhysToVirt Machine.physical Machine.translate
    rw [if_pos hready, add64_of_lt (by simp only [pageSize, aosDirectMapBase]; omega),
      Nat.add_comm, hdone.root, if_neg hcr3, hwalk, if_pos]
    right
    simp only [pageSize, aosDirectMapBase]
    omega

end Init

end Pfi
