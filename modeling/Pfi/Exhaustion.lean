import Pfi.Supply

/-! # When page tables run out

    `alloc_page_table` looks at the virtual address it obtained and at the
    table pointer, not at the physical address.  Once `pager_ready` is set the
    pointer to physical page 0 is the start of the direct map, not `NULL`, so
    a physical allocation that fails looks like a table at page 0: the page
    is zeroed, linked into the tree, and used as the next table.
    `pager_map` looks at no result either and returns the PML4.

    The descent reads one entry a level.  Below the first absent entry every
    table is missing, so the call asks for `lacking` tables, and none is
    refused exactly when the allocator still serves that many pages
    (`pagerMap_intact_iff`). -/

namespace Pfi

open Words RadixTable

/-! ## The allocator's pages -/

/-- `avmf_alloc_phys_contiguous` serves the pages of `n` page tables in a
    row. -/
def Avmf.Serves (a : Avmf) : Nat → Prop
  | 0 => True
  | n + 1 => (avmfAllocPhysContiguous a pageSize).1 ≠ 0 ∧ (tableAvmf a).Serves n

instance decidableServes : (a : Avmf) → (n : Nat) → Decidable (a.Serves n)
  | _, 0 => isTrue trivial
  | a, n + 1 =>
      have : Decidable ((tableAvmf a).Serves n) := decidableServes (tableAvmf a) n
      inferInstanceAs (Decidable ((avmfAllocPhysContiguous a pageSize).1 ≠ 0 ∧ _))

/-- `alloc_page_table` succeeds: there is a page, which the bitmap covers, and
    a virtual address for it. -/
def Avmf.GrantsTable (a : Avmf) : Prop :=
  (avmfAllocPhysContiguous a pageSize).1 ≠ 0 ∧
    (avmfAllocPhysContiguous a pageSize).1 < bitmapSize * pageSize ∧
    (avmfAllocVirt (avmfAllocPhysContiguous a pageSize).2 pageSize .sensitive).1 ≠ 0

instance decidableGrantsTable (a : Avmf) : Decidable a.GrantsTable :=
  inferInstanceAs (Decidable (_ ∧ _ ∧ _))

/-- It succeeds `n` times in a row. -/
def Avmf.Grants (a : Avmf) : Nat → Prop
  | 0 => True
  | n + 1 => a.GrantsTable ∧ (tableAvmf a).Grants n

instance decidableGrants : (a : Avmf) → (n : Nat) → Decidable (a.Grants n)
  | _, 0 => isTrue trivial
  | a, n + 1 =>
      have : Decidable ((tableAvmf a).Grants n) := decidableGrants (tableAvmf a) n
      inferInstanceAs (Decidable (a.GrantsTable ∧ _))

/-- A table is granted exactly when the log says so. -/
theorem allocPageTable_granted_iff {m : Machine} (h : TablesGranted m) :
    TablesGranted (allocPageTable m).m ↔ m.avmf.GrantsTable := by
  have hnone : ∀ {m' : Machine}, m'.tableLog = m.tableLog ++ [0] → ¬ TablesGranted m' := by
    intro m' hlog hc
    unfold TablesGranted at hc
    rw [hlog] at hc
    exact (hc 0 (List.mem_append_right _ List.mem_cons_self)).1 rfl
  rcases allocPageTable_cases m with ⟨hv, hres⟩ | ⟨-, hptr, hres⟩ | ⟨hv, t, -, -, hres⟩
  · rw [hres]
    exact iff_of_false (hnone rfl) (fun hc => hc.2.2 hv)
  · generalize tableAvmf m.avmf = a at hres
    rw [hres]
    refine iff_of_false (hnone rfl) (fun hc => ?_)
    obtain ⟨hpos, hlt, -⟩ := hc
    simp only [bitmapSize, pageSize] at hlt
    unfold pagerPhysToVirt at hptr
    split at hptr
    · simp only [pageSize] at hptr
      rw [add64_of_lt (by simp only [aosDirectMapBase]; omega)] at hptr
      simp only [aosDirectMapBase] at hptr
      omega
    · exact hpos hptr
  · generalize tableAvmf m.avmf = a at hres
    rw [hres]
    constructor
    · intro hlog
      obtain ⟨hpos, hlt⟩ := hlog _ (List.mem_append_right _ List.mem_cons_self)
      exact ⟨hpos, hlt, hv⟩
    · rintro ⟨hpos, hlt, -⟩ x hx
      rcases List.mem_append.mp hx with hx | hx
      · exact h x hx
      · rw [List.mem_singleton.mp hx]
        exact ⟨hpos, hlt⟩

/-- What is left of the allocator then. -/
theorem Avmf.GrantsTable.avmf {m : Machine} (h : m.avmf.GrantsTable) :
    (allocPageTable m).m.avmf = tableAvmf m.avmf := by
  rcases allocPageTable_cases m with ⟨hv, -⟩ | ⟨-, -, hres⟩ | ⟨-, t, -, -, hres⟩
  · exact absurd hv h.2.2
  · rw [hres]
  · generalize tableAvmf m.avmf = a at hres ⊢
    rw [hres]
    rfl

/-- The allocator has RAM that the bitmap covers, and virtual addresses for
    `n` more tables. -/
structure TableRoom (a : Avmf) (n : Nat) : Prop where
  ranges : ∀ i, a.avmfLimit i ≤ bitmapSize * pageSize
  heap : 0 < a.heap .sensitive ∧ a.heap .sensitive + 4096 * n < 2 ^ 64

/-- A page of RAM that the bitmap covers. -/
theorem allocPhys_lt {a : Avmf} (h : ∀ i, a.avmfLimit i ≤ bitmapSize * pageSize) :
    (avmfAllocPhysContiguous a pageSize).1 < bitmapSize * pageSize := by
  rcases avmfAllocPhysContiguous_cases a pageSize with hp | ⟨i, s, k, hk, hpos, -, hin, -, hp⟩
  · rw [hp]
    exact Nat.mul_pos (by decide) (by decide)
  · rw [hp]
    have hlimit := h i
    have hupper := hin.upper
    unfold Avmf.endPage at hupper
    simp only [bitmapSize, pageSize, pageShift, Nat.shiftRight_eq_div_pow] at hlimit hupper ⊢
    omega

theorem TableRoom.page_lt {a : Avmf} {n : Nat} (h : TableRoom a n) :
    (avmfAllocPhysContiguous a pageSize).1 < bitmapSize * pageSize :=
  allocPhys_lt h.ranges

/-- The virtual address of the next table. -/
theorem TableRoom.virt {a : Avmf} {n : Nat} (h : TableRoom a (n + 1)) :
    (avmfAllocVirt (avmfAllocPhysContiguous a pageSize).2 pageSize .sensitive).1
        = a.heap .sensitive ∧
      (tableAvmf a).heap .sensitive = a.heap .sensitive + 4096 := by
  have hheap := h.heap.2
  have hlt : a.heap .sensitive + 4096 < 2 ^ 64 := Nat.lt_of_le_of_lt (by omega) hheap
  have hend : a.heap .sensitive + 4096 ≤ heapEnd .sensitive := Nat.le_sub_one_of_lt hlt
  have hsame := (sameRegions_allocPhys a pageSize).heap
  obtain ⟨hvirt, hnext⟩ := avmfAllocVirt_served (a := (avmfAllocPhysContiguous a pageSize).2)
    pageSize (show MemoryAllocType.sensitive ≠ .unknown by decide)
    (by rw [align4k_pageSize, hsame]; exact hlt) (by rw [align4k_pageSize, hsame]; exact hend)
  rw [hsame] at hvirt
  refine ⟨hvirt, ?_⟩
  unfold tableAvmf
  dsimp only
  rw [avmfAllocRegion_heap, hnext, if_pos rfl, align4k_pageSize, hsame]

theorem TableRoom.next {a : Avmf} {n : Nat} (h : TableRoom a (n + 1)) :
    TableRoom (tableAvmf a) n := by
  constructor
  · intro i
    have hphys : (avmfAllocPhysContiguous a pageSize).2.avmfLimit = a.avmfLimit := by
      rcases avmfAllocPhysContiguous_cases a pageSize with hp | ⟨j, s, k, -, -, -, -, -, hp⟩
      · rw [hp]
      · rw [hp]
    rw [(tableAvmf_bitmap a).2.1, hphys]
    exact h.ranges i
  · have hheap := h.heap
    rw [h.virt.2]
    omega

theorem TableRoom.le {a : Avmf} {n n' : Nat} (h : TableRoom a n) (hle : n' ≤ n) :
    TableRoom a n' := by
  have hheap := h.heap
  exact ⟨h.ranges, hheap.1, by omega⟩

/-- With that room only the pages can run out. -/
theorem TableRoom.grants_iff {n : Nat} :
    ∀ {a : Avmf}, TableRoom a n → (a.Grants n ↔ a.Serves n) := by
  induction n with
  | zero =>
      intro a _
      exact Iff.rfl
  | succ n ih =>
      intro a h
      have hvirt := h.virt.1
      have hpos := h.heap.1
      have htable : a.GrantsTable ↔ (avmfAllocPhysContiguous a pageSize).1 ≠ 0 := by
        constructor
        · rintro ⟨hphys, -, -⟩
          exact hphys
        · intro hphys
          exact ⟨hphys, h.page_lt, by omega⟩
      exact and_congr htable (ih h.next)

/-- The tables of RAM that the bitmap covers are in the bitmap, or refused. -/
theorem allocPageTable_bounded {m : Machine}
    (h : (∀ i, m.avmf.avmfLimit i ≤ bitmapSize * pageSize) ∧
      ∀ x ∈ m.tableLog, x < bitmapSize * pageSize) :
    (∀ i, (allocPageTable m).m.avmf.avmfLimit i ≤ bitmapSize * pageSize) ∧
      ∀ x ∈ (allocPageTable m).m.tableLog, x < bitmapSize * pageSize := by
  have hlimit := (allocPageTable_ranges (m := m) ⟨rfl, rfl⟩).limit
  have hzero : 0 < bitmapSize * pageSize := Nat.mul_pos (by decide) (by decide)
  refine ⟨fun i => by rw [hlimit]; exact h.1 i, fun x hx => ?_⟩
  have hcases : x ∈ m.tableLog ∨ x = 0 ∨ x = (avmfAllocPhysContiguous m.avmf pageSize).1 := by
    rcases allocPageTable_cases m with ⟨-, hres⟩ | ⟨-, -, hres⟩ | ⟨-, t, -, -, hres⟩
    · rw [hres] at hx
      exact (List.mem_append.mp hx).imp_right (fun h0 => Or.inl (List.mem_singleton.mp h0))
    · rw [hres] at hx
      exact (List.mem_append.mp hx).imp_right (fun h0 => Or.inl (List.mem_singleton.mp h0))
    · rw [hres] at hx
      exact (List.mem_append.mp hx).imp_right (fun h0 => Or.inr (List.mem_singleton.mp h0))
  rcases hcases with hx | rfl | rfl
  · exact h.2 x hx
  · exact hzero
  · exact allocPhys_lt h.1

/-! ## The descent of `pager_map` -/

/-- The entries that the descent reads. -/
def tablePath (virt flags : Nat) : List (Fin 512) :=
  if flags &&& pageHuge ≠ 0 then pdPath virt else ptPath virt

/-- The tables that are missing along a path from the table in frame `f`. -/
def lacking (mem : Nat → Fin 512 → Nat) : Nat → List (Fin 512) → Nat
  | _, [] => 0
  | f, i :: p =>
      if mem f i % 2 = 0 then p.length + 1 else lacking mem (mem f i % 2 ^ 52 / 4096) p

theorem lacking_le (mem : Nat → Fin 512 → Nat) (f : Nat) (p : List (Fin 512)) :
    lacking mem f p ≤ p.length := by
  induction p generalizing f with
  | nil => exact Nat.le_refl 0
  | cons i p ih =>
      unfold lacking
      split
      · exact Nat.le_refl _
      · exact Nat.le_succ_of_le (ih _)

theorem tablePath_length_le {virt flags : Nat} : (tablePath virt flags).length ≤ 3 := by
  unfold tablePath
  split
  · exact Nat.le_succ 2
  · exact Nat.le_refl 3

/-- The descent along a path. -/
def descend (m : Machine) (tbl : Nat) : List (Fin 512) → Nat × Machine
  | [] => (tbl, m)
  | i :: p => descend (nextTable m tbl i).2 (nextTable m tbl i).1 p

theorem descend_log_mono {p : List (Fin 512)} :
    ∀ {m : Machine} {tbl x : Nat}, x ∈ m.tableLog → x ∈ (descend m tbl p).2.tableLog := by
  induction p with
  | nil =>
      intro m tbl x hx
      exact hx
  | cons i p ih =>
      intro m tbl x hx
      exact ih (nextTable_log_mono m tbl i hx)

/-- An accepted call logs what its descent logs, and returns the PML4. -/
theorem pagerMap_descend {m : Machine} {virt phys flags : Nat}
    (hacc : exceedsCpu m phys = false) :
    (pagerMap m virt phys flags).1 = m.firmwarePml4 ∧
      (pagerMap m virt phys flags).2.tableLog
        = (descend m m.firmwarePml4 (tablePath virt flags)).2.tableLog := by
  have hno : ¬ exceedsCpu m phys = true := by
    rw [hacc]
    exact Bool.false_ne_true
  unfold pagerMap tablePath
  rw [if_neg hno]
  dsimp only
  by_cases hhuge : flags &&& pageHuge ≠ 0
  · rw [if_pos hhuge, if_pos hhuge]
    exact ⟨rfl, rfl⟩
  · rw [if_neg hhuge, if_neg hhuge]
    exact ⟨rfl, rfl⟩

/-- In an empty table everything is missing. -/
theorem lacking_empty {mem : Nat → Fin 512 → Nat} {f : Nat} (h : ∀ i, mem f i = 0)
    (p : List (Fin 512)) : lacking mem f p = p.length := by
  cases p with
  | nil => rfl
  | cons i p =>
      unfold lacking
      rw [h i, if_pos (Nat.zero_mod 2)]
      rfl

section Descent

variable {m : Machine} {tbl : Nat} {i : Fin 512} {q : List (Fin 512)}

/-- Such a step is granted its table exactly when the allocator grants one. -/
theorem nextTable_granted_iff (h : TablesGranted m) (he : m.mem (tableFrame tbl) i % 2 = 0) :
    TablesGranted (nextTable m tbl i).2 ↔ m.avmf.GrantsTable := by
  have htouch : TablesGranted (m.touch tbl) := h
  rw [(nextTable_of_absent he).2, tablesGranted_setEntry]
  exact allocPageTable_granted_iff htouch

/-- A table that the descent obtained is empty. -/
theorem nextTable_absent_empty (hok : TablesOk m)
    (hp : tableAt x86Kind m.mem 3 m.root q = some (tableFrame tbl))
    (he : m.mem (tableFrame tbl) i % 2 = 0) (hlog : TablesGranted (nextTable m tbl i).2) :
    ∀ j, (nextTable m tbl i).2.mem (tableFrame (nextTable m tbl i).1) j = 0 := by
  obtain ⟨htbl, hres⟩ := nextTable_of_absent he
  rw [hres, tablesGranted_setEntry] at hlog
  obtain ⟨g, hg⟩ := allocPageTable_obtained hlog
  -- the new table is not the one that links it, which is marked
  have hne : g ≠ tableFrame tbl := by
    intro hc
    have hfree : bitmapTest m.avmf.avmfBitmap g = 0 := hg.wasFree
    rw [hc, (hok.owned q _ hp).2.1] at hfree
    exact absurd hfree Nat.one_ne_zero
  intro j
  rw [htbl, hres, hg.frame, setEntry_mem, store_of_ne_table hne, hg.mem]
  exact if_pos rfl

/-- Above the page tables a present entry is a link, and it is followed. -/
theorem nextTable_frame {m : Machine} {tbl : Nat} {i : Fin 512} {q : List (Fin 512)}
    (hok : TablesOk m) (htable : tableAt x86Kind m.mem 3 m.root q = some (tableFrame tbl))
    (hodd : m.mem (tableFrame tbl) i % 2 = 1) (hlen : q.length + 1 < 3) :
    tableFrame (nextTable m tbl i).1 = m.mem (tableFrame tbl) i % 2 ^ 52 / 4096 := by
  have hlink : ∃ g, g < bitmapSize ∧ m.mem (tableFrame tbl) i = linkEntry g := by
    rcases hok.entries q _ i htable (by omega) hodd with ⟨hl, -⟩ | hlink
    · omega
    · exact hlink
  obtain ⟨g, hg, hentry⟩ := hlink
  obtain ⟨htbl, -⟩ := nextTable_of_present (show m.mem (tableFrame tbl) i % 2 ≠ 0 by omega)
  rw [htbl, hentry, linkEntry_frame hg, tableFrame_physToVirt m hg]
  simp only [bitmapSize] at hg
  unfold linkEntry
  omega

/-- The tables that the descent asks for are granted exactly when the
    allocator grants as many as are missing. -/
theorem descend_granted_iff {p : List (Fin 512)} :
    ∀ {m : Machine} {tbl : Nat} {q : List (Fin 512)}, TablesOk m → TablesGranted m →
      tableAt x86Kind m.mem 3 m.root q = some (tableFrame tbl) → q.length + p.length ≤ 3 →
      (TablesGranted (descend m tbl p).2
        ↔ m.avmf.Grants (lacking m.mem (tableFrame tbl) p)) := by
  induction p with
  | nil =>
      intro m tbl q _ hgranted _ _
      exact iff_of_true hgranted trivial
  | cons i p ih =>
      intro m tbl q hok hgranted htable hlen
      simp only [List.length_cons] at hlen
      have hq : q.length < 3 := by omega
      unfold lacking descend
      by_cases he : m.mem (tableFrame tbl) i % 2 = 0
      · -- the entry is absent, and with it all that is below
        rw [if_pos he]
        by_cases hgrants : m.avmf.GrantsTable
        · have hgranted' := (nextTable_granted_iff hgranted he).mpr hgrants
          have havmf : (nextTable m tbl i).2.avmf = tableAvmf m.avmf := by
            rw [(nextTable_of_absent he).2, setEntry_avmf]
            exact Avmf.GrantsTable.avmf (m := m.touch tbl) hgrants
          have hreached := nextTable_absent hok htable hq he hgranted'
          have hempty := nextTable_absent_empty hok htable he hgranted'
          have htable' := hreached.table
          rw [← hreached.regs.root] at htable'
          have hnext := ih hreached.ok hgranted' htable'
            (by rw [List.length_append, List.length_singleton]; omega)
          rw [lacking_empty hempty, havmf] at hnext
          rw [hnext]
          exact (and_iff_right hgrants).symm
        · refine iff_of_false ?_ (fun hc => hgrants hc.1)
          intro hc
          exact hgrants ((nextTable_granted_iff hgranted he).mp
            (TablesGranted.of_mono hc (fun x hx => descend_log_mono hx)))
      · -- the entry is present: it is followed, and nothing is taken
        rw [if_neg he]
        have hodd : m.mem (tableFrame tbl) i % 2 = 1 := by omega
        obtain ⟨-, hsame⟩ := nextTable_of_present he
        cases p with
        | nil =>
            show TablesGranted (nextTable m tbl i).2 ↔ True
            rw [hsame, iff_true]
            exact hgranted
        | cons j p =>
            simp only [List.length_cons] at hlen
            have hreached := nextTable_present hok htable hq hodd (fun hc => by omega)
            have hframe := nextTable_frame hok htable hodd (by omega)
            have htable' := hreached.table
            rw [← hreached.regs.root] at htable'
            have hgranted' : TablesGranted (nextTable m tbl i).2 := by
              rw [hsame]
              exact hgranted
            have hnext := ih hreached.ok hgranted' htable'
              (by rw [List.length_append, List.length_singleton, List.length_cons]; omega)
            rw [hframe, hsame] at hnext
            rw [hsame]
            exact hnext

end Descent

/-! ## What a refused table does to the call -/

/-- A state that the pager keeps once it is ready: the tables are a tree of
    pages obtained from the allocator, which has virtual addresses left for
    the tables of one call. -/
structure PagerState (m : Machine) : Prop where
  ready : m.pagerReady = true
  tables : TablesOk m
  granted : TablesGranted m
  room : TableRoom m.avmf 3

/-- `avmf_alloc_phys_contiguous` has returned `0` for a table of the call. -/
def TableRefused (r : Nat × Machine) : Prop := 0 ∈ r.2.tableLog

/-- The call returns `NULL`, stores no link to a table it did not obtain,
    leaves page 0 alone, and changes no translation. -/
structure Intact (m : Machine) (r : Nat × Machine) : Prop where
  null : r.1 = 0
  links : ∀ f i g, r.2.mem f i ≠ m.mem f i → r.2.mem f i = linkEntry g →
    g ≠ 0 ∧ g * 4096 ∈ r.2.tableLog
  pageZero : ∀ i, r.2.mem 0 i = m.mem 0 i
  translations : ∀ a, r.2.translate a = m.translate a

section Call

variable {m : Machine} {virt phys flags : Nat}

/-- The tables of an accepted call are granted exactly when the allocator
    grants as many as are missing on the path of the address. -/
theorem pagerMap_granted_iff (hok : TablesOk m) (hgranted : TablesGranted m)
    (hacc : exceedsCpu m phys = false) :
    TablesGranted (pagerMap m virt phys flags).2
      ↔ m.avmf.Grants (lacking m.mem m.root (tablePath virt flags)) := by
  have hdescend := descend_granted_iff (p := tablePath virt flags) hok hgranted
    (tableAt_nil 3 m.root) (by rw [List.length_nil, Nat.zero_add]; exact tablePath_length_le)
  refine Iff.trans ?_ hdescend
  unfold TablesGranted
  rw [(pagerMap_descend hacc).2]

theorem pagerMap_refused_iff (h : PagerState m) (hacc : exceedsCpu m phys = false) :
    TableRefused (pagerMap m virt phys flags)
      ↔ ¬ m.avmf.Serves (lacking m.mem m.root (tablePath virt flags)) := by
  have hroom := h.room.le (Nat.le_trans (lacking_le m.mem m.root (tablePath virt flags))
    tablePath_length_le)
  have hbound : (∀ i, (pagerMap m virt phys flags).2.avmf.avmfLimit i ≤ bitmapSize * pageSize) ∧
      ∀ x ∈ (pagerMap m virt phys flags).2.tableLog, x < bitmapSize * pageSize := pagerMap_keeps
    (P := fun a log => (∀ i, a.avmfLimit i ≤ bitmapSize * pageSize) ∧
      ∀ x ∈ log, x < bitmapSize * pageSize)
    (fun m hm => allocPageTable_bounded hm) ⟨h.room.ranges, fun x hx => (h.granted x hx).2⟩
  rw [← hroom.grants_iff, ← pagerMap_granted_iff h.tables h.granted hacc]
  unfold TableRefused
  constructor
  · intro h0 hgranted
    exact (hgranted 0 h0).1 rfl
  · intro hno
    by_contra h0
    refine hno (fun x hx => ⟨?_, hbound.2 x hx⟩)
    rintro rfl
    exact h0 hx

/-- A call whose tables run out leaves everything as it was only if it asks
    for none that is refused: its physical address is out of range, or the
    allocator still has the pages. -/
theorem pagerMap_intact_iff (h : PagerState m) :
    (TableRefused (pagerMap m virt phys flags) → Intact m (pagerMap m virt phys flags)) ↔
      exceedsCpu m phys = true ∨ m.avmf.Serves (lacking m.mem m.root (tablePath virt flags)) := by
  cases hacc : exceedsCpu m phys with
  | true =>
      refine iff_of_true ?_ (Or.inl rfl)
      intro hrefused
      rw [pagerMap_rejected hacc] at hrefused
      exact absurd rfl (h.granted 0 hrefused).1
  | false =>
      have hrefused : TableRefused (pagerMap m virt phys flags) ↔ _ :=
        pagerMap_refused_iff h hacc
      constructor
      · intro hintact
        right
        by_contra hc
        -- the PML4 is returned all the same
        have hnull := (hintact (hrefused.mpr hc)).null
        rw [(pagerMap_descend hacc).1] at hnull
        exact h.tables.pml4_ne h.granted hnull
      · rintro (hc | hserves) hr
        · cases hc
        · exact absurd hserves (hrefused.mp hr)

end Call

/-- An empty PML4 in page 16 and an allocator without RAM; page 0 holds
    data. -/
def exhaustedMachine : Machine :=
  { avmf := { avmfBitmap := fun w => if w = 0 then 2 ^ 16 else 0 }
    mem := fun f _ => if f = 0 then 42 else 0
    firmwarePml4 := aosDirectMapBase + 0x10000
    mappedPml4 := aosDirectMapBase + 0x10000
    pagerReady := true
    cpuPhysBits := 36
    cr3 := 0x10000
    tableLog := [0x10000] }

theorem exhaustedMachine_state : PagerState exhaustedMachine := by
  have hempty : EmptyPml4 exhaustedMachine :=
    ⟨fun _ => rfl, by decide, by decide, by decide, fun _ hf => by cases hf⟩
  exact ⟨rfl, hempty.tablesOk, by decide, fun _ => Nat.zero_le _, by decide⟩

/-- A physical address beyond the processor's is refused before any table. -/
theorem pagerMap_intact_rejected :
    exceedsCpu exhaustedMachine 0x1000000000 = true ∧
      (TableRefused (pagerMap exhaustedMachine 0x8000000000 0x1000000000 3) →
        Intact exhaustedMachine (pagerMap exhaustedMachine 0x8000000000 0x1000000000 3)) := by
  have hacc : exceedsCpu exhaustedMachine 0x1000000000 = true := by decide
  exact ⟨hacc, (pagerMap_intact_iff exhaustedMachine_state).mpr (Or.inl hacc)⟩

/-- A 2 MiB call without a page left returns the PML4, links page 0 as a
    table, overwrites what page 0 held, and gives the address a
    translation. -/
theorem pageZero_becomes_table :
    let r := pagerMap exhaustedMachine 0x8000000000 0x200000 0x83
    PagerState exhaustedMachine ∧ TableRefused r ∧ r.1 = exhaustedMachine.firmwarePml4 ∧
      r.2.mem exhaustedMachine.root 1 = linkEntry 0 ∧
      r.2.mem 0 5 ≠ exhaustedMachine.mem 0 5 ∧
      r.2.translate 0x8000000000 ≠ exhaustedMachine.translate 0x8000000000 ∧
      ¬ Intact exhaustedMachine r := by
  intro r
  have hreturned : r.1 = exhaustedMachine.firmwarePml4 := by decide +kernel
  have hrefused : TableRefused r := by
    show 0 ∈ r.2.tableLog
    decide +kernel
  have hlink : r.2.mem exhaustedMachine.root 1 = linkEntry 0 := by decide +kernel
  have hpage : r.2.mem 0 5 ≠ exhaustedMachine.mem 0 5 := by decide +kernel
  have hwalk : r.2.translate 0x8000000000 ≠ exhaustedMachine.translate 0x8000000000 := by
    decide +kernel
  refine ⟨exhaustedMachine_state, hrefused, hreturned, hlink, hpage, hwalk, ?_⟩
  intro hintact
  exact hpage (hintact.pageZero 5)

end Pfi
