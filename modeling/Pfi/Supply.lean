import Pfi.PagerInit

/-! # Enough memory for the page tables

    When `pager_init` succeeds.  `Supply` says that the next `n` pages the
    search finds are the free pages from `g` on; each allocation takes the
    next of them.  `Stocked` counts the supply by the page-table log, so every
    mapping keeps it, and as long as the log stays within the stock every
    table is granted.  A range call logs at most three tables for each 2 MiB
    slot it meets (`pagerMapRange_count`), which bounds the log of
    `pager_init` (`pagerInit_stocked`). -/

namespace Pfi

open Words RadixTable Run

/-! ## Free pages ahead -/

/-- The search of the first range stands at page `g`, with `n` more pages to
    give and one to spare, and the sensitive heap has addresses for them. -/
structure Supply (a : Avmf) (g n : Nat) : Prop where
  nonempty : a.avmfBase 0 < a.avmfLimit 0
  start : a.startPage 0 ≤ g
  scan : a.scanStart 0 = g
  room : g + n < a.endPage 0
  pos : 0 < g
  inBitmap : a.endPage 0 ≤ bitmapSize
  free : ∀ q, g ≤ q → q < a.endPage 0 → bitmapTest a.avmfBitmap q = 0
  heap : 0 < a.heap .sensitive ∧ a.heap .sensitive + 4096 * n < 2 ^ 64

/-- Less is supplied too. -/
theorem Supply.le {a : Avmf} {g n n' : Nat} (h : Supply a g n) (hle : n' ≤ n) :
    Supply a g n' := by
  have hroom := h.room
  have hheap := h.heap
  exact ⟨h.nonempty, h.start, h.scan, by omega, h.pos, h.inBitmap, h.free, by omega⟩

/-- The supply sees the ranges, the bitmap, the hint and the sensitive
    heap. -/
theorem Supply.of_eq {a a' : Avmf} {g n : Nat} (h : Supply a g n)
    (hbase : a'.avmfBase = a.avmfBase) (hlimit : a'.avmfLimit = a.avmfLimit)
    (hbits : a'.avmfBitmap = a.avmfBitmap) (hlast : a'.lastAllocPage = a.lastAllocPage)
    (hheap : 0 < a'.heap .sensitive ∧ a'.heap .sensitive + 4096 * n < 2 ^ 64) :
    Supply a' g n := by
  have hstart : a'.startPage 0 = a.startPage 0 := by
    unfold Avmf.startPage
    rw [hbase]
  have hend : a'.endPage 0 = a.endPage 0 := by
    unfold Avmf.endPage
    rw [hlimit]
  refine ⟨by rw [hbase, hlimit]; exact h.nonempty, by rw [hstart]; exact h.start, ?_,
    by rw [hend]; exact h.room, h.pos, by rw [hend]; exact h.inBitmap, ?_, hheap⟩
  · unfold Avmf.scanStart
    rw [hstart, hend, hlast]
    exact h.scan
  · intro q h1 h2
    rw [hbits]
    exact h.free q h1 (by rw [← hend]; exact h2)

section Take

variable {a : Avmf} {g n k : Nat}

/-- The pages taken are the next ones. -/
theorem Supply.takes (h : Supply a g n) (hk : 0 < k) (hkn : k ≤ n) :
    avmfAllocPhysContiguous a (4096 * k)
      = (g * 4096,
          { a with
            avmfBitmap := bitmapSetRun a.avmfBitmap g k
            lastAllocPage := g + k }) := by
  have hroom := h.room
  have hin := h.inBitmap
  have hround : align4k (4096 * k) / pageSize = k := by
    have hsmall : 4096 * k + 4095 < 2 ^ 64 := by
      simp only [bitmapSize] at hin
      omega
    rw [align4k_of_lt hsmall]
    simp only [pageSize]
    omega
  have hreach : a.Reaches 0 k g :=
    ⟨h.nonempty, Nat.le_of_eq h.scan, by omega, fun j hj => h.free (g + j) (by omega) (by omega)⟩
  have hsearch : searchRanges a k (List.range 128) = some g := by
    refine (searchRanges_eq_some hk).mpr ⟨0, by decide, hreach, ?_, ?_⟩
    · intro s' h'
      rw [← h.scan]
      exact h'.fits.lower
    · intro i' hi'
      exact absurd hi' (Nat.not_lt_zero i')
  have hshift : g <<< pageShift = g * 4096 := Nat.shiftLeft_eq g 12
  unfold avmfAllocPhysContiguous
  rw [hround]
  dsimp only
  rw [if_neg (by omega), hsearch, ← hshift]

/-- The supply after pages were taken. -/
theorem Supply.rest (h : Supply a g n) (hkn : k ≤ n) :
    Supply { a with avmfBitmap := bitmapSetRun a.avmfBitmap g k, lastAllocPage := g + k }
      (g + k) (n - k) := by
  have hroom := h.room
  have hstart := h.start
  have hpos := h.pos
  have hheap := h.heap
  have hst : Avmf.startPage { a with
      avmfBitmap := bitmapSetRun a.avmfBitmap g k, lastAllocPage := g + k } 0 = a.startPage 0 := rfl
  have hen : Avmf.endPage { a with
      avmfBitmap := bitmapSetRun a.avmfBitmap g k, lastAllocPage := g + k } 0 = a.endPage 0 := rfl
  refine ⟨h.nonempty, by rw [hst]; omega, ?_, by rw [hen]; omega, by omega, h.inBitmap, ?_, ?_⟩
  · unfold Avmf.scanStart
    rw [hst, hen]
    exact if_pos ⟨by show a.startPage 0 ≤ g + k; omega, by show g + k < a.endPage 0; omega⟩
  · intro q h1 h2
    rw [hen] at h2
    show bitmapTest (bitmapSetRun a.avmfBitmap g k) q = 0
    rw [bitmapTest_setRun, if_neg (by omega)]
    exact h.free q (by omega) h2
  · show 0 < a.heap .sensitive ∧ a.heap .sensitive + 4096 * (n - k) < 2 ^ 64
    omega

end Take

/-- A virtual request that fits is served. -/
theorem avmfAllocVirt_served {a : Avmf} (size : Nat) {type : MemoryAllocType}
    (ht : type ≠ .unknown) (hsum : a.heap type + align4k size < 2 ^ 64)
    (hfits : a.heap type + align4k size ≤ heapEnd type) :
    (avmfAllocVirt a size type).1 = a.heap type ∧
      ∀ t, (avmfAllocVirt a size type).2.heap t
        = if t = type then a.heap t + align4k size else a.heap t := by
  unfold avmfAllocVirt
  rw [if_neg ht]
  dsimp only
  rw [add64_of_lt hsum, if_neg (by omega)]
  refine ⟨rfl, fun t => ?_⟩
  show (if t = type then add64 (a.heap t) (align4k size) else a.heap t) = _
  by_cases htt : t = type
  · rw [if_pos htt, if_pos htt, htt, add64_of_lt hsum]
  · rw [if_neg htt, if_neg htt]

/-- A header is recorded at most. -/
theorem avmfAllocRegion_index (a : Avmf) (virt phys size flags : Nat) :
    (avmfAllocRegion a virt phys size flags).2.headerIndex ≤ a.headerIndex + 1 ∧
      (avmfAllocRegion a virt phys size flags).2.lastAllocPage = a.lastAllocPage := by
  unfold avmfAllocRegion
  by_cases hfull : avmfStaticSize ≤ a.headerIndex
  · rw [if_pos hfull]
    exact ⟨Nat.le_succ _, rfl⟩
  · rw [if_neg hfull]
    exact ⟨Nat.le_of_eq List.length_append, rfl⟩

/-! ## Stock for a log -/

/-- As long as the log has at most `N` entries, all of them are granted, no
    sum has wrapped, and the rest of the `N` pages is supplied. -/
def Stocked (N : Nat) (a : Avmf) (log : List Nat) : Prop :=
  log.length ≤ N → (∀ x ∈ log, x ≠ 0 ∧ x < bitmapSize * pageSize) ∧
    a.wrapped = false ∧ ∃ g, Supply a g (N - log.length)

theorem avmfAllocVirt_index (a : Avmf) (size : Nat) (type : MemoryAllocType) :
    (avmfAllocVirt a size type).2.headerIndex = a.headerIndex ∧
      (avmfAllocVirt a size type).2.lastAllocPage = a.lastAllocPage := by
  refine ⟨congrArg List.length (avmfAllocVirt_headers a size type), ?_⟩
  unfold avmfAllocVirt
  dsimp only
  split
  · rfl
  · split
    · rfl
    · rfl

/-- A request leaves the heaps of other types alone. -/
theorem avmfAllocVirt_heap_ne (a : Avmf) (size : Nat) {t type : MemoryAllocType}
    (ht : t ≠ type) : (avmfAllocVirt a size type).2.heap t = a.heap t := by
  unfold avmfAllocVirt
  dsimp only
  split
  · rfl
  · split
    · rfl
    · exact if_neg ht

/-- The pages from `g` on and a sensitive address are taken for a table. -/
theorem tableAvmf_supply {a : Avmf} {g n : Nat} (h : Supply a g n) (hn : 0 < n)
    (hw : a.wrapped = false) :
    Supply (tableAvmf a) (g + 1) (n - 1) ∧ (tableAvmf a).wrapped = false := by
  have hsens : MemoryAllocType.sensitive ≠ .unknown := by decide
  have hheap := h.heap
  have htakes := h.takes (k := 1) Nat.one_pos hn
  have hrest := h.rest (k := 1) hn
  obtain ⟨hb, hl, hbase⟩ := tableAvmf_bitmap a
  rw [show pageSize = 4096 * 1 from rfl, htakes] at hb hl hbase
  have hvirt := avmfAllocVirt_served (a := (avmfAllocPhysContiguous a pageSize).2)
    pageSize hsens (by
      rw [align4k_pageSize, (sameRegions_allocPhys a pageSize).heap]
      omega) (by
      rw [align4k_pageSize, (sameRegions_allocPhys a pageSize).heap]
      simp only [heapEnd]
      omega)
  have hnowrap := (avmfAllocVirt_nowrap (a := (avmfAllocPhysContiguous a pageSize).2)
    pageSize hsens ((sameRegions_allocPhys a pageSize).wrapped.trans hw)
    (by decide) (by
      rw [align4k_pageSize, (sameRegions_allocPhys a pageSize).heap]
      omega)).1
  have htlast : (tableAvmf a).lastAllocPage = g + 1 := by
    unfold tableAvmf
    dsimp only
    rw [(avmfAllocRegion_index _ _ _ _ _).2, (avmfAllocVirt_index _ _ _).2,
      show pageSize = 4096 * 1 from rfl, htakes]
  have htheap : (tableAvmf a).heap .sensitive = a.heap .sensitive + 4096 := by
    unfold tableAvmf
    dsimp only
    rw [avmfAllocRegion_heap, hvirt.2, if_pos rfl, align4k_pageSize,
      (sameRegions_allocPhys a pageSize).heap]
  refine ⟨hrest.of_eq hbase hl hb htlast (by rw [htheap]; omega), ?_⟩
  unfold tableAvmf
  dsimp only
  rw [avmfAllocRegion_wrapped]
  exact hnowrap

/-- A page-table allocation takes from the stock. -/
theorem allocPageTable_stocked {N : Nat} (m : Machine) (h : Stocked N m.avmf m.tableLog) :
    Stocked N (allocPageTable m).m.avmf (allocPageTable m).m.tableLog := by
  intro hlen
  obtain ⟨x, hlog⟩ := allocPageTable_log m
  have hlength : (allocPageTable m).m.tableLog.length = m.tableLog.length + 1 := by
    rw [hlog]
    exact List.length_append
  obtain ⟨hgranted, hw, g, hg⟩ := h (by omega)
  obtain ⟨hsupply, hnowrap⟩ := tableAvmf_supply hg (by omega) hw
  have htakes := hg.takes (k := 1) Nat.one_pos (by omega)
  have hpos := hg.pos
  have hroom := hg.room
  have hin := hg.inBitmap
  -- the page has a pointer, and an address is found for it
  have hptr : pagerPhysToVirt m (g * 4096) ≠ 0 := by
    unfold pagerPhysToVirt
    split
    · rw [add64_of_lt (by simp only [bitmapSize] at hin; simp only [aosDirectMapBase]; omega)]
      simp only [aosDirectMapBase]
      omega
    · omega
  have hvirt : (avmfAllocVirt (avmfAllocPhysContiguous m.avmf pageSize).2 pageSize
      .sensitive).1 ≠ 0 := by
    have hheap := hg.heap
    have hserved := (avmfAllocVirt_served (a := (avmfAllocPhysContiguous m.avmf pageSize).2)
      pageSize (show MemoryAllocType.sensitive ≠ .unknown by decide) (by
        rw [align4k_pageSize, (sameRegions_allocPhys m.avmf pageSize).heap]
        omega) (by
        rw [align4k_pageSize, (sameRegions_allocPhys m.avmf pageSize).heap]
        simp only [heapEnd]
        omega)).1
    rw [hserved, (sameRegions_allocPhys m.avmf pageSize).heap]
    omega
  have hphys : (avmfAllocPhysContiguous m.avmf pageSize).1 = g * 4096 := by
    rw [show pageSize = 4096 * 1 from rfl, htakes]
  rw [hlength]
  -- so only the exit with a table is left
  rcases allocPageTable_cases m with ⟨h0, -⟩ | ⟨-, h0, -⟩ | ⟨-, tbl, -, -, hres⟩
  · exact absurd h0 hvirt
  · rw [hphys] at h0
    exact absurd h0 hptr
  · rw [hphys] at hres
    generalize tableAvmf m.avmf = a at hres hsupply hnowrap
    rw [hres]
    refine ⟨?_, hnowrap, g + 1, ?_⟩
    · intro y hy
      rcases List.mem_append.mp hy with hy | hy
      · exact hgranted y hy
      · rw [List.mem_singleton.mp hy]
        simp only [bitmapSize, pageSize] at hin ⊢
        omega
    · rw [show N - (m.tableLog.length + 1) = N - m.tableLog.length - 1 by omega]
      exact hsupply

/-- A smaller stock. -/
theorem Stocked.le {a : Avmf} {log : List Nat} {N N' : Nat} (h : Stocked N a log)
    (hle : N' ≤ N) : Stocked N' a log := by
  intro hlen
  obtain ⟨hgranted, hw, g, hg⟩ := h (by omega)
  exact ⟨hgranted, hw, g, hg.le (by omega)⟩

theorem pagerMap_stocked {N : Nat} {m : Machine} (virt phys flags : Nat)
    (h : Stocked N m.avmf m.tableLog) :
    Stocked N (pagerMap m virt phys flags).2.avmf (pagerMap m virt phys flags).2.tableLog :=
  pagerMap_keeps allocPageTable_stocked h

theorem pagerMapRange_stocked {N : Nat} {m : Machine} (virt phys size flags : Nat)
    (h : Stocked N m.avmf m.tableLog) :
    Stocked N (pagerMapRange m virt phys size flags).avmf
      (pagerMapRange m virt phys size flags).tableLog :=
  pagerMapRange_keeps allocPageTable_stocked h

/-- A page-table allocation records at most the header that its log entry
    stands for. -/
theorem allocPageTable_index {m : Machine} {c d : Nat}
    (h : m.avmf.headerIndex + d ≤ m.tableLog.length + c) :
    (allocPageTable m).m.avmf.headerIndex + d ≤ (allocPageTable m).m.tableLog.length + c := by
  obtain ⟨x, hlog⟩ := allocPageTable_log m
  have hlength : (allocPageTable m).m.tableLog.length = m.tableLog.length + 1 := by
    rw [hlog]
    exact List.length_append
  have hpindex : (avmfAllocPhysContiguous m.avmf pageSize).2.headerIndex = m.avmf.headerIndex :=
    congrArg List.length (sameRegions_allocPhys m.avmf pageSize).headers
  have hvindex := (avmfAllocVirt_index (avmfAllocPhysContiguous m.avmf pageSize).2 pageSize
    .sensitive).1
  rw [hlength]
  rcases allocPageTable_allocator (m := m) rfl rfl with ⟨-, havmf, -⟩ | ⟨-, havmf, -⟩
  · rw [havmf]
    omega
  · rw [havmf]
    have hrindex := (avmfAllocRegion_index
      (avmfAllocVirt (avmfAllocPhysContiguous m.avmf pageSize).2 pageSize .sensitive).2
      (avmfAllocVirt (avmfAllocPhysContiguous m.avmf pageSize).2 pageSize .sensitive).1
      (avmfAllocPhysContiguous m.avmf pageSize).1 pageSize
      (avmfFlagPresent ||| avmfFlagWriteable)).1
    unfold tableAvmf
    dsimp only
    omega

/-- It leaves the other heaps alone. -/
theorem allocPageTable_heap {m : Machine} {t : MemoryAllocType} (ht : t ≠ .sensitive) {x : Nat}
    (h : m.avmf.heap t = x) : (allocPageTable m).m.avmf.heap t = x := by
  have hvirt : (avmfAllocVirt (avmfAllocPhysContiguous m.avmf pageSize).2 pageSize
      .sensitive).2.heap t = x := by
    rw [avmfAllocVirt_heap_ne _ _ ht, (sameRegions_allocPhys m.avmf pageSize).heap]
    exact h
  rcases allocPageTable_allocator (m := m) rfl rfl with ⟨-, havmf, -⟩ | ⟨-, havmf, -⟩
  · rw [havmf]
    exact hvirt
  · rw [havmf]
    unfold tableAvmf
    dsimp only
    rw [avmfAllocRegion_heap]
    exact hvirt

/-! ## How many tables a mapping takes -/

theorem nextTable_count (m : Machine) (tbl : Nat) (i : Fin 512) :
    (nextTable m tbl i).2.tableLog.length ≤ m.tableLog.length + 1 := by
  by_cases he : m.mem (tableFrame tbl) i % 2 = 0
  · obtain ⟨x, hlog⟩ := allocPageTable_log (m.touch tbl)
    rw [(nextTable_of_absent he).2, setEntry_tableLog, hlog, touch_tableLog]
    exact Nat.le_of_eq List.length_append
  · rw [(nextTable_of_present he).2]
    exact Nat.le_succ _

theorem pageDirectory_count (m : Machine) (virt : Nat) :
    (pageDirectory m virt).2.tableLog.length ≤ m.tableLog.length + 2 :=
  Nat.le_trans (nextTable_count _ _ _) (Nat.succ_le_succ (nextTable_count _ _ _))

theorem pagerMap_count (m : Machine) (virt phys flags : Nat) :
    (pagerMap m virt phys flags).2.tableLog.length ≤ m.tableLog.length + 3 := by
  have hpd := pageDirectory_count m virt
  unfold pagerMap
  by_cases hrej : exceedsCpu m phys = true
  · rw [if_pos hrej]
    exact Nat.le_add_right _ 3
  · rw [if_neg hrej]
    dsimp only
    split
    · rw [setEntry_tableLog]
      omega
    · rw [setEntry_tableLog]
      exact Nat.le_trans (nextTable_count _ _ _) (Nat.succ_le_succ hpd)

/-- The 2 MiB slots that the pages of a range from page `k` on meet. -/
def slotsLeft (virt size k : Nat) : Nat :=
  if 4096 * k < size then
    (virt / 4096 + (size - 1) / 4096) / 512 + 1 - (virt / 4096 + k) / 512
  else 0

/-- Addresses of one slot have one page table. -/
theorem HasPageTable.same_slot {m : Machine} {virt virt' : Nat} (h : HasPageTable m virt)
    (hslot : virt' / 4096 / 512 % 2 ^ 27 = virt / 4096 / 512 % 2 ^ 27) :
    HasPageTable m virt' := by
  have hpath : ptPath virt' = ptPath virt := by
    unfold ptPath pdPath
    rw [tableIndex_eq, tableIndex_eq, tableIndex_eq, tableIndex_eq, tableIndex_eq,
      tableIndex_eq]
    show [_, _, _] = [_, _, _]
    rw [List.cons.injEq, List.cons.injEq, List.cons.injEq, ofNat512_inj, ofNat512_inj,
      ofNat512_inj]
    exact ⟨by omega, by omega, by omega, rfl⟩
  unfold HasPageTable
  rw [hpath]
  exact h

section Count

variable {m : Machine} {virt phys size flags : Nat}

/-- What holds when the loop stands at page `k` with `N` tables to take: at
    the start of a slot three are left for it; inside a slot the first page
    has taken them, and its page table is there. -/
structure RangeBudget (m : Machine) (virt phys size flags N k : Nat) : Prop where
  args : RangeArgs m virt phys size flags
  ok : TablesOk m
  small : ∀ k', k ≤ k' → 4096 * k' < size → hugeAt m.mem m.root (virt / 4096 + k') = false
  stock : Stocked N m.avmf m.tableLog
  le : m.tableLog.length ≤ N
  room : m.tableLog.length + 3 * slotsLeft virt size k ≤ N ∨
    ((virt / 4096 + k) % 512 ≠ 0 ∧ HasPageTable m (virt + 4096 * k) ∧
      m.tableLog.length + 3 * slotsLeft virt size k ≤ N + 3)

theorem slotsLeft_of_lt {virt size k : Nat} (hk : 4096 * k < size) :
    slotsLeft virt size k
      = (virt / 4096 + (size - 1) / 4096) / 512 + 1 - (virt / 4096 + k) / 512 := if_pos hk

/-- Behind a slot, or the last page of one, there is a slot less. -/
theorem slotsLeft_next {virt size k k' : Nat} (hk : 4096 * k < size)
    (hnext : size ≤ 4096 * k' ∨ (virt / 4096 + k) / 512 + 1 ≤ (virt / 4096 + k') / 512) :
    slotsLeft virt size k' + 1 ≤ slotsLeft virt size k := by
  rw [slotsLeft_of_lt hk]
  unfold slotsLeft
  split
  · omega
  · omega

variable {N k : Nat}

/-- A turn that maps a slot by a 2 MiB leaf. -/
theorem RangeBudget.slot (h : RangeBudget m virt phys size flags N k) (hk : 4096 * k < size)
    (hstart : (virt / 4096 + k) % 512 = 0) :
    RangeBudget (pagerMap m (virt + 4096 * k) (phys + 4096 * k) (flags ||| pageHuge)).2
      virt phys size flags N (k + 512) := by
  have hargs := h.args
  have hword := hargs.physWord
  have hpage : (virt + 4096 * k) / 4096 = virt / 4096 + k := by omega
  have hregs := sameRegs_pagerMap m (virt + 4096 * k) (phys + 4096 * k) (flags ||| pageHuge)
  have hcount := pagerMap_count m (virt + 4096 * k) (phys + 4096 * k) (flags ||| pageHuge)
  have hstock := pagerMap_stocked (virt + 4096 * k) (phys + 4096 * k) (flags ||| pageHuge) h.stock
  have hfewer := @slotsLeft_next virt size k (k + 512) hk (Or.inr (by omega))
  have hroom : m.tableLog.length + 3 * slotsLeft virt size k ≤ N :=
    h.room.resolve_right (fun hc => hc.1 hstart)
  have hle : (pagerMap m (virt + 4096 * k) (phys + 4096 * k)
      (flags ||| pageHuge)).2.tableLog.length ≤ N := by omega
  obtain ⟨hok, hwalk⟩ := pagerMap_huge h.ok (hargs.accepted hk) (by omega) (or_huge_bit flags)
    (hstock hle).1
  rw [hpage] at hwalk
  refine ⟨hargs.of_sameRegs hregs, hok, ?_, hstock, hle, Or.inl (by omega)⟩
  intro k' hk' hlt
  rw [hregs.root]
  exact small_after_slot hargs hstart hwalk h.small hk' hlt

/-- A turn that maps a page: the slot's three tables are taken with its first
    page. -/
theorem RangeBudget.page (h : RangeBudget m virt phys size flags N k) (hk : 4096 * k < size) :
    RangeBudget (pagerMap m (virt + 4096 * k) (phys + 4096 * k) flags).2
      virt phys size flags N (k + 1) := by
  have hargs := h.args
  have hword := hargs.physWord
  have hpage : (virt + 4096 * k) / 4096 = virt / 4096 + k := by omega
  have hregs := sameRegs_pagerMap m (virt + 4096 * k) (phys + 4096 * k) flags
  have hstock := pagerMap_stocked (virt + 4096 * k) (phys + 4096 * k) flags h.stock
  have hleft : 1 ≤ slotsLeft virt size k := by
    rw [slotsLeft_of_lt hk]
    omega
  have hcount : (pagerMap m (virt + 4096 * k) (phys + 4096 * k) flags).2.tableLog.length
      + 3 * slotsLeft virt size k ≤ N + 3 := by
    rcases h.room with hroom | ⟨-, htable, hroom⟩
    · have hthree := pagerMap_count m (virt + 4096 * k) (phys + 4096 * k) flags
      omega
    · rw [(pagerMap_no_table h.ok (hargs.accepted hk) hargs.small htable).2]
      exact hroom
  have hle : (pagerMap m (virt + 4096 * k) (phys + 4096 * k) flags).2.tableLog.length ≤ N := by
    omega
  have hfirst := h.small k (Nat.le_refl k) hk
  rw [← hpage] at hfirst
  obtain ⟨hok, hwalk⟩ := pagerMap_page h.ok (hargs.accepted hk) (by omega) hargs.small hfirst
    (hstock hle).1
  have htable := pagerMap_page_table h.ok (hargs.accepted hk) hargs.small hfirst (hstock hle).1
  rw [hpage] at hwalk
  refine ⟨hargs.of_sameRegs hregs, hok, ?_, hstock, hle, ?_⟩
  · intro k' hk' hlt
    rw [hregs.root]
    exact small_after_page hargs hwalk h.small hk' hlt
  · by_cases hnext : (virt / 4096 + (k + 1)) % 512 = 0 ∨ size ≤ 4096 * (k + 1)
    · left
      have hfewer := @slotsLeft_next virt size k (k + 1) hk
        (hnext.symm.imp_right (fun hc => by omega))
      omega
    · right
      refine ⟨by omega, htable.same_slot (by omega), ?_⟩
      have hsame : slotsLeft virt size (k + 1) = slotsLeft virt size k := by
        rw [slotsLeft_of_lt hk, slotsLeft_of_lt (by omega)]
        omega
      rw [hsame]
      exact hcount

/-- The loop takes three tables a slot at most.  The induction is on the turns
    left. -/
theorem pagerMapRangeLoop_count (fuel : Nat) (h : RangeBudget m virt phys size flags N k)
    (hfront : RangeHuge virt phys size k → (virt / 4096 + k) % 512 = 0) :
    (pagerMapRangeLoop virt phys size flags fuel m (4096 * k)).tableLog.length ≤ N := by
  induction fuel generalizing m k with
  | zero => exact h.le
  | succ fuel ih =>
      by_cases hk : 4096 * k < size
      · rw [pagerMapRangeLoop_step h.args hfront hk]
        by_cases hr : RangeHuge virt phys size k
        · rw [if_pos hr]
          have hstart := hfront hr
          exact ih (h.slot hk hstart) (fun _ => by omega)
        · rw [if_neg hr]
          exact ih (h.page hk) (rangeHuge_next hr)
      · simp only [pagerMapRangeLoop]
        rw [if_neg hk]
        exact h.le

/-- A range call takes three tables a slot at most. -/
theorem pagerMapRange_count {N : Nat} (hargs : RangeArgs m virt phys size flags)
    (hok : TablesOk m)
    (hsmall : ∀ k, 4096 * k < size → hugeAt m.mem m.root (virt / 4096 + k) = false)
    (hstock : Stocked N m.avmf m.tableLog)
    (hroom : m.tableLog.length + 3 * slotsLeft virt size 0 ≤ N) :
    (pagerMapRange m virt phys size flags).tableLog.length
        ≤ m.tableLog.length + 3 * slotsLeft virt size 0 ∧
      TablesGranted (pagerMapRange m virt phys size flags) := by
  have hstart : RangeBudget m virt phys size flags (m.tableLog.length + 3 * slotsLeft virt size 0)
      0 := ⟨hargs, hok, fun k _ hk => hsmall k hk, hstock.le hroom, Nat.le_add_right _ _,
    Or.inl (Nat.le_refl _)⟩
  have hcount := pagerMapRangeLoop_count (size / pageSize + 1) hstart (fun hr => by
    have hstarts := hr.starts
    omega)
  refine ⟨hcount, (pagerMapRange_stocked _ _ _ _ hstock ?_).1⟩
  exact Nat.le_trans hcount hroom

end Count

/-! ## How many tables `pager_init` takes -/

/-- The 2 MiB slots that the direct map meets, entry by entry. -/
def directSlots : List E820Entry → (last : Nat) → Nat
  | [], _ => 0
  | e :: es, last =>
      if e.len < 1 then directSlots es last
      else slotsLeft (aosDirectMapBase + last) (e.base + e.len - last) 0
        + directSlots es (e.base + e.len)

/-- Enough tables for `pager_init`: the PML4, and three for each slot of the
    direct map and of the windows. -/
def tablesNeeded (e820 : List E820Entry) : Nat := 1 + 3 * (directSlots e820 0 + 11)

theorem mapDirect_count {e820 : List E820Entry} {bits top last N : Nat} {m : Machine}
    (hmap : E820Ok e820 bits top) (htop : top ≤ 2 ^ 47) (hbits : m.cpuPhysBits = bits)
    (hlast : ∀ e ∈ e820, last ≤ e.base) (h : DirectMapped last m)
    (hstock : Stocked N m.avmf m.tableLog)
    (hroom : m.tableLog.length + 3 * directSlots e820 last ≤ N) :
    (mapDirect e820 last m).tableLog.length ≤ m.tableLog.length + 3 * directSlots e820 last := by
  induction e820 generalizing last m with
  | nil => exact Nat.le_add_right _ _
  | cons e es ih =>
      have hsorted := List.pairwise_cons.mp hmap.sorted
      have htail : E820Ok es bits top :=
        ⟨hsorted.2, fun e' he' => hmap.words e' (List.mem_cons_of_mem e he'),
          fun e' he' => hmap.direct e' (List.mem_cons_of_mem e he')⟩
      have hbase := hlast e List.mem_cons_self
      have hword := hmap.words e List.mem_cons_self
      simp only [directSlots] at hroom ⊢
      by_cases hlen : e.len < 1
      · rw [if_pos hlen] at hroom ⊢
        rw [mapDirect_skip es hlen]
        exact ih htail hbits (fun e' he' => hlast e' (List.mem_cons_of_mem e he')) h hstock hroom
      · rw [if_neg hlen] at hroom ⊢
        rw [mapDirect_cons es hbase hword (Nat.le_of_not_lt hlen) h.bits]
        by_cases hexceeds : 2 ^ m.cpuPhysBits ≤ e.base + e.len
        · rw [if_pos hexceeds]
          exact Nat.le_add_right _ _
        · rw [if_neg hexceeds]
          have hend := hmap.direct e List.mem_cons_self (by rw [← hbits]; omega)
          rw [add64_of_lt (by simp only [aosDirectMapBase]; omega)]
          have hargs := directArgs (pagePresent ||| pageRw ||| pagePcd) h.bits
            (by omega : e.base + e.len ≤ 2 ^ 47) (by omega) (by omega : last ≤ e.base + e.len)
            (by decide)
          have hregs := sameRegs_pagerMapRange m (aosDirectMapBase + last) last
            (e.base + e.len - last) (pagePresent ||| pageRw ||| pagePcd)
          obtain ⟨hcount, hgranted⟩ := pagerMapRange_count hargs h.ok (h.small (by omega))
            hstock (by omega)
          have hrest := ih htail (hregs.cpuPhysBits.trans hbits) (fun e' he' => hsorted.1 e' he')
            (h.step (by omega) (by omega) (by omega) (by decide) hgranted)
            (pagerMapRange_stocked _ _ _ _ hstock) (by omega)
          omega

theorem mapIdentity_count {top N : Nat} {m : Machine}
    (h : InitTables top (fun _ => False) (fun _ => False) m)
    (hstock : Stocked N m.avmf m.tableLog) (hroom : m.tableLog.length + 33 ≤ N) :
    (mapIdentity m).tableLog.length ≤ m.tableLog.length + 33 := by
  have hslots : slotsLeft 0xFF000000 0x00FFFFFF 0 = 8 ∧ slotsLeft 0x0 0x80000 0 = 1 ∧
      slotsLeft 0x100000 0x200000 0 = 2 := by decide
  rw [mapIdentity_eq]
  obtain ⟨hcount1, hgranted1⟩ := pagerMapRange_count (h.args (by decide)) h.ok
    (h.small 0xFF000000 0x00FFFFFF (by decide) (fun k _ hc => hc)) hstock
    (by omega)
  have h1 := h.code hgranted1
  have hstock1 := pagerMapRange_stocked 0xFF000000 0xFF000000 0x00FFFFFF
    (pagePresent ||| pageRw) hstock
  generalize pagerMapRange m 0xFF000000 0xFF000000 0x00FFFFFF _ = m1 at hcount1 h1 hstock1 ⊢
  obtain ⟨hcount2, hgranted2⟩ := pagerMapRange_count (h1.args (by decide)) h1.ok
    (h1.small 0x0 0x80000 (by decide) stack_not_code) hstock1 (by omega)
  have h2 := h1.stack hgranted2
  have hstock2 := pagerMapRange_stocked 0x0 0x0 0x80000 (pagePresent ||| pageRw)
    hstock1
  generalize pagerMapRange m1 0x0 0x0 0x80000 _ = m2 at hcount2 h2 hstock2 ⊢
  have hcount3 := (pagerMapRange_count (h2.args (by decide)) h2.ok
    (h2.small 0x100000 0x200000 (by decide) data_not_code) hstock2
    (by omega)).1
  omega

/-- The PML4 is allocated at the first attempt. -/
theorem allocPml4_succeeds {retries N : Nat} {m : Machine} (hretries : 0 < retries)
    (hpml4 : m.firmwarePml4 = 0) (hoff : m.pagerReady = false) (hlog : m.tableLog = [])
    (hstock : Stocked N m.avmf m.tableLog) (hN : 0 < N) :
    ∃ m', allocPml4 retries m = some m' ∧ m'.tableLog.length = 1 ∧
      Stocked N m'.avmf m'.tableLog := by
  have hstock' := allocPageTable_stocked m hstock
  have hptr := allocPageTable_ptr hoff
  obtain ⟨x, hx⟩ := allocPageTable_log m
  rw [hlog, List.nil_append] at hx
  have hlength : (allocPageTable m).m.tableLog.length = 1 := by
    rw [hx]
    rfl
  obtain ⟨g, hg⟩ := allocPageTable_obtained (hstock' (by omega)).1
  cases retries with
  | zero => omega
  | succ retries =>
      simp only [allocPml4]
      rw [if_pos hpml4]
      generalize allocPageTable m = r at hstock' hptr hlength hg ⊢
      have hne : r.tbl ≠ 0 := by
        have h1 := hg.nonzero
        have h2 := hg.phys
        omega
      exact ⟨_, allocPml4_done (m := { r.m with firmwarePml4 := r.tbl }) hne, hlength, hstock'⟩

section Init

variable {mem : Nat → Fin 512 → Nat} {e820 : List E820Entry} {bits retries top g N : Nat}

/-- With enough pages in the first range, `pager_init` returns with every
    table granted and the rest of the pages still supplied. -/
theorem pagerInit_succeeds (mem : Nat → Fin 512 → Nat) (retries : Nat)
    (hmap : E820Ok e820 bits top) (htop : top ≤ 2 ^ 47) (hbits : 32 ≤ bits ∧ bits ≤ 52)
    (hretries : 0 < retries)
    (hsupply : Supply (initAvmf (bootMachine mem) e820 bits).avmf g N)
    (hN : tablesNeeded e820 ≤ N) :
    ∃ m, pagerInit (bootMachine mem) e820 bits retries = some m ∧
      m.tableLog.length ≤ tablesNeeded e820 ∧ Stocked N m.avmf m.tableLog := by
  have hstock0 : Stocked N (initAvmf (bootMachine mem) e820 bits).avmf
      (initAvmf (bootMachine mem) e820 bits).tableLog :=
    fun _ => ⟨fun x hx => absurd hx List.not_mem_nil, rfl, g, hsupply⟩
  unfold tablesNeeded at hN ⊢
  obtain ⟨m₁, hpml4, hlen1, hstock1⟩ := allocPml4_succeeds hretries
    (m := initAvmf (bootMachine mem) e820 bits) rfl rfl rfl hstock0 (by omega)
  obtain ⟨hempty, -, hbits1⟩ := initPml4 hpml4 (hstock1 (by omega)).1
  have hdirect0 := hempty.directMapped (by omega)
  have hcount2 := mapDirect_count hmap htop hbits1 (fun e _ => Nat.zero_le _) hdirect0 hstock1
    (by omega)
  have hstock2 := mapDirect_keeps allocPageTable_stocked e820 0 hstock1
  obtain ⟨last, hle, hdirect⟩ := mapDirect_mapped hmap htop hbits1 (fun e _ => Nat.zero_le _)
    (Nat.zero_le top) hdirect0 (hstock2 (by omega)).1
  have hbits2 := (sameRegs_mapDirect e820 0 m₁).cpuPhysBits.trans hbits1
  have hcount3 := mapIdentity_count (hdirect.initTables hle (by omega)) hstock2 (by omega)
  have hstock3 := mapIdentity_keeps allocPageTable_stocked hstock2
  have hoff : (mapIdentity (mapDirect e820 0 m₁)).pagerReady = false := by
    rw [(sameRegs_mapIdentity _).pagerReady, (sameRegs_mapDirect _ _ _).pagerReady,
      (allocPml4_regs hpml4).1]
    rfl
  have hload := loadTables_off hoff
  refine ⟨(mapIdentity (mapDirect e820 0 m₁)).loaded, ?_, ?_, ?_⟩
  · unfold pagerInit buildTables
    rw [hpml4, Option.map_some, hload]
  · rw [loaded_tableLog]
    omega
  · rw [loaded_avmf, loaded_tableLog]
    exact hstock3

end Init

/-- Before any page is taken, the free pages of the first range are supplied
    from its start on. -/
theorem supply_init {mem : Nat → Fin 512 → Nat} {e820 : List E820Entry} {bits g e N : Nat}
    (hlen : 0 < (ramRanges e820).length ∧ (ramRanges e820).length ≤ 128)
    (hfirst : (ramRanges e820).getD 0 (0, 0) = (4096 * g, 4096 * e)) (hpos : 0 < g)
    (hroom : g + N < e) (hbitmap : e ≤ bitmapSize) :
    Supply (initAvmf (bootMachine mem) e820 bits).avmf g N := by
  have hent : (if (ramRanges e820).length % 256 ≤ 128 then (ramRanges e820).length % 256
      else 128) = (ramRanges e820).length := by
    rw [Nat.mod_eq_of_lt (by omega), if_pos hlen.2]
  have hbase : (initAvmf (bootMachine mem) e820 bits).avmf.avmfBase 0 = 4096 * g := by
    unfold initAvmf avmfInit
    dsimp only
    rw [hent, if_pos hlen.1, hfirst]
  have hlimit : (initAvmf (bootMachine mem) e820 bits).avmf.avmfLimit 0 = 4096 * e := by
    unfold initAvmf avmfInit
    dsimp only
    rw [hent, if_pos hlen.1, hfirst]
  have hheap : (initAvmf (bootMachine mem) e820 bits).avmf.heap .sensitive
      = aosSensitiveSpaceBase := rfl
  have hlast : (initAvmf (bootMachine mem) e820 bits).avmf.lastAllocPage = 0 := rfl
  have hbits : ∀ w, (initAvmf (bootMachine mem) e820 bits).avmf.avmfBitmap w = 0 := by
    intro w
    unfold initAvmf avmfInit
    dsimp only
    split
    · rfl
    · rfl
  generalize (initAvmf (bootMachine mem) e820 bits).avmf = a at hbase hlimit hheap hlast hbits ⊢
  simp only [bitmapSize] at hbitmap
  have hstart : a.startPage 0 = g := by
    unfold Avmf.startPage
    rw [hbase, align4k_of_lt (by omega), Nat.shiftRight_eq_div_pow]
    simp only [pageShift]
    omega
  have hend : a.endPage 0 = e := by
    unfold Avmf.endPage
    rw [hlimit, Nat.shiftRight_eq_div_pow]
    simp only [pageShift]
    omega
  refine ⟨by rw [hbase, hlimit]; omega, by rw [hstart], ?_, by rw [hend]; exact hroom, hpos,
    by rw [hend]; exact hbitmap, ?_, ?_⟩
  · unfold Avmf.scanStart
    rw [hstart, hend, hlast, if_neg (by omega)]
  · intro q _ _
    rw [bitmapTest_eq, hbits, Nat.zero_testBit]
    rfl
  · rw [hheap]
    simp only [aosSensitiveSpaceBase]
    omega

end Pfi
