import Pfi.Regions

/-! # Ownership of physical pages

    A run of `avmf_alloc` and `avmf_free` with the ghost list of live blocks.
    `Owned` is the joint invariant of bitmap, page-table log, regions and live
    blocks: every page of a live block and every page table is marked in the
    bitmap, no page is in two of them, and each live block is recorded by a
    header.  A page-table allocation keeps it, so every mapping does, whatever
    memory holds; an allocation takes pages that were free and a free clears
    exactly the pages of its block. -/

namespace Pfi

open Words

/-! ## Blocks and their pages -/

/-- A live result of `avmf_alloc`: its address, physical address and
    page-rounded size. -/
structure Block where
  virt : Nat
  phys : Nat
  size : Nat
deriving Repr, DecidableEq

/-- `q` is a physical page of the block. -/
def Block.Page (b : Block) (q : Nat) : Prop :=
  b.phys / 4096 ≤ q ∧ q < b.phys / 4096 + b.size / 4096

instance (b : Block) (q : Nat) : Decidable (b.Page q) := inferInstanceAs (Decidable (_ ∧ _))

/-- No page belongs to both blocks. -/
def Block.PagesApart (b b' : Block) : Prop := ∀ q, b.Page q → ¬ b'.Page q

instance : Std.Symm Block.PagesApart := ⟨fun _ _ h q hq' hq => h q hq hq'⟩

/-- The page is marked in the bitmap and lies in a configured range. -/
structure Taken (a : Avmf) (q : Nat) : Prop where
  bit : bitmapTest a.avmfBitmap q = 1
  range : ∃ i, i < 128 ∧ a.InRange i q 1

/-- Marked pages: those of the live blocks and of the page tables, all
    different. -/
structure PagesOk (a : Avmf) (log : List Nat) (live : List Block) : Prop where
  aligned : ∀ b ∈ live, b.phys % 4096 = 0 ∧ b.size % 4096 = 0
  blocks : ∀ b ∈ live, ∀ q, b.Page q → Taken a q
  tables : ∀ x ∈ log, x ≠ 0 → x % 4096 = 0 ∧ Taken a (x / 4096)
  apart : live.Pairwise Block.PagesApart
  fresh : ∀ b ∈ live, ∀ x ∈ log, x ≠ 0 → ¬ b.Page (x / 4096)

/-- A run of pages just taken: marked, and in no live block or table. -/
structure RunTaken (a : Avmf) (log : List Nat) (live : List Block) (phys n : Nat) : Prop where
  aligned : phys % 4096 = 0
  taken : ∀ q, phys / 4096 ≤ q → q < phys / 4096 + n → Taken a q
  blocks : ∀ q, phys / 4096 ≤ q → q < phys / 4096 + n → ∀ b ∈ live, ¬ b.Page q
  tables : ∀ q, phys / 4096 ≤ q → q < phys / 4096 + n → ∀ x ∈ log, x ≠ 0 → x / 4096 ≠ q

section Pages

variable {a a' : Avmf} {log : List Nat} {live : List Block}

theorem Taken.of_eq {q : Nat} (h : Taken a q) (hbits : a'.avmfBitmap = a.avmfBitmap)
    (hlimit : a'.avmfLimit = a.avmfLimit) (hbase : a'.avmfBase = a.avmfBase) : Taken a' q := by
  obtain ⟨i, hi, hin⟩ := h.range
  refine ⟨by rw [hbits]; exact h.bit, i, hi, ?_⟩
  obtain ⟨h1, h2, h3⟩ := hin
  unfold Avmf.startPage at h2
  unfold Avmf.endPage at h3
  refine ⟨?_, ?_, ?_⟩
  · rw [hbase, hlimit]; exact h1
  · unfold Avmf.startPage
    rw [hbase]; exact h2
  · unfold Avmf.endPage
    rw [hlimit]; exact h3

theorem PagesOk.of_eq (h : PagesOk a log live) (hbits : a'.avmfBitmap = a.avmfBitmap)
    (hlimit : a'.avmfLimit = a.avmfLimit) (hbase : a'.avmfBase = a.avmfBase) :
    PagesOk a' log live :=
  ⟨h.aligned, fun b hb q hq => (h.blocks b hb q hq).of_eq hbits hlimit hbase,
    fun x hx h0 => ⟨(h.tables x hx h0).1, (h.tables x hx h0).2.of_eq hbits hlimit hbase⟩,
    h.apart, h.fresh⟩

theorem RunTaken.of_eq {phys n : Nat} (h : RunTaken a log live phys n)
    (hbits : a'.avmfBitmap = a.avmfBitmap) (hlimit : a'.avmfLimit = a.avmfLimit)
    (hbase : a'.avmfBase = a.avmfBase) : RunTaken a' log live phys n :=
  ⟨h.aligned, fun q h1 h2 => (h.taken q h1 h2).of_eq hbits hlimit hbase, h.blocks, h.tables⟩

/-- `avmf_alloc_phys_contiguous` marks a run that was free. -/
theorem PagesOk.allocPhys (h : PagesOk a log live) (size : Nat) :
    PagesOk (avmfAllocPhysContiguous a size).2 log live ∧
      ((avmfAllocPhysContiguous a size).1 ≠ 0 →
        RunTaken (avmfAllocPhysContiguous a size).2 log live
          (avmfAllocPhysContiguous a size).1 (align4k size / 4096)) := by
  rcases avmfAllocPhysContiguous_cases a size with hres | ⟨i, s, n, hn, -, hi, hin, hfree, hres⟩
  · rw [hres]
    exact ⟨h, fun h0 => absurd rfl h0⟩
  · rw [hres]
    have hbit : ∀ q, bitmapTest (bitmapSetRun a.avmfBitmap s n) q
        = if s ≤ q ∧ q < s + n then 1 else bitmapTest a.avmfBitmap q :=
      bitmapTest_setRun a.avmfBitmap s n
    -- the pages of the run were free, so none of them was taken
    have hnew : ∀ q, s ≤ q → q < s + n → ¬ Taken a q := by
      intro q h1 h2 ht
      have h0 := hfree (q - s) (by omega)
      rw [show s + (q - s) = q by omega] at h0
      have := ht.bit
      omega
    have hkeep : ∀ q, Taken a q → Taken { a with
        avmfBitmap := bitmapSetRun a.avmfBitmap s n, lastAllocPage := s + n } q := by
      intro q ht
      obtain ⟨j, hj, hr⟩ := ht.range
      refine ⟨?_, j, hj, hr.1, hr.2, hr.3⟩
      show bitmapTest (bitmapSetRun a.avmfBitmap s n) q = 1
      rw [hbit]
      by_cases hq : s ≤ q ∧ q < s + n
      · rw [if_pos hq]
      · rw [if_neg hq]; exact ht.bit
    have hs : s * 4096 / 4096 = s := Nat.mul_div_cancel s (by decide)
    refine ⟨⟨h.aligned, fun b hb q hq => hkeep q (h.blocks b hb q hq),
      fun x hx h0 => ⟨(h.tables x hx h0).1, hkeep _ (h.tables x hx h0).2⟩, h.apart, h.fresh⟩,
      fun _ => ⟨Nat.mul_mod_left s 4096, ?_, ?_, ?_⟩⟩
    · intro q h1 h2
      rw [hs] at h1 h2
      refine ⟨?_, i, hi, hin.1, ?_, ?_⟩
      · show bitmapTest (bitmapSetRun a.avmfBitmap s n) q = 1
        rw [hbit, if_pos (by omega)]
      · exact Nat.le_trans hin.lower h1
      · have hup : s + n ≤ a.endPage i := hin.upper
        show q + 1 ≤ a.endPage i
        omega
    · intro q h1 h2 b hb hq
      rw [hs] at h1 h2
      exact hnew q h1 (by omega) (h.blocks b hb q hq)
    · intro q h1 h2 x hx h0 hxq
      rw [hs] at h1 h2
      have ht := (h.tables x hx h0).2
      rw [hxq] at ht
      exact hnew q h1 (by omega) ht

/-- A failed page-table allocation. -/
theorem PagesOk.log_zero (h : PagesOk a log live) : PagesOk a (log ++ [0]) live := by
  refine ⟨h.aligned, h.blocks, ?_, h.apart, ?_⟩
  · intro x hx h0
    rcases List.mem_append.mp hx with hx | hx
    · exact h.tables x hx h0
    · exact absurd (List.mem_singleton.mp hx) h0
  · intro b hb x hx h0
    rcases List.mem_append.mp hx with hx | hx
    · exact h.fresh b hb x hx h0
    · exact absurd (List.mem_singleton.mp hx) h0

/-- A page that becomes a page table. -/
theorem PagesOk.log_page (h : PagesOk a log live) {phys : Nat}
    (hrun : RunTaken a log live phys 1) : PagesOk a (log ++ [phys]) live := by
  refine ⟨h.aligned, h.blocks, ?_, h.apart, ?_⟩
  · intro x hx h0
    rcases List.mem_append.mp hx with hx | hx
    · exact h.tables x hx h0
    · rw [List.mem_singleton.mp hx]
      exact ⟨hrun.aligned, hrun.taken _ (Nat.le_refl _) (Nat.lt_succ_self _)⟩
  · intro b hb x hx h0
    rcases List.mem_append.mp hx with hx | hx
    · exact h.fresh b hb x hx h0
    · rw [List.mem_singleton.mp hx]
      exact hrun.blocks _ (Nat.le_refl _) (Nat.lt_succ_self _) b hb

/-- A run that becomes a block. -/
theorem PagesOk.cons (h : PagesOk a log live) {b : Block} (hsize : b.size % 4096 = 0)
    (hrun : RunTaken a log live b.phys (b.size / 4096)) : PagesOk a log (b :: live) := by
  refine ⟨?_, ?_, h.tables, ?_, ?_⟩
  · intro b' hb'
    rcases List.mem_cons.mp hb' with rfl | hb'
    · exact ⟨hrun.aligned, hsize⟩
    · exact h.aligned b' hb'
  · intro b' hb' q hq
    rcases List.mem_cons.mp hb' with rfl | hb'
    · exact hrun.taken q hq.1 hq.2
    · exact h.blocks b' hb' q hq
  · exact List.pairwise_cons.mpr
      ⟨fun b' hb' q hq hq' => hrun.blocks q hq.1 hq.2 b' hb' hq', h.apart⟩
  · intro b' hb' x hx h0
    rcases List.mem_cons.mp hb' with rfl | hb'
    · exact fun hq => hrun.tables _ hq.1 hq.2 x hx h0 rfl
    · exact h.fresh b' hb' x hx h0

/-- Releasing exactly the pages of a block. -/
theorem PagesOk.release (h : PagesOk a log live) {b : Block} (hb : b ∈ live) {rest : List Block}
    (hrest : List.Sublist rest live) (hne : ∀ b' ∈ rest, b' ≠ b) :
    PagesOk
      { a with
        avmfBitmap := bitmapClearRun a.avmfBitmap (b.phys / pageSize) (b.size / pageSize) }
      log rest := by
  have hkeep : ∀ q, Taken a q → ¬ b.Page q → Taken
      { a with
        avmfBitmap := bitmapClearRun a.avmfBitmap (b.phys / pageSize) (b.size / pageSize) }
      q := by
    intro q ht hq
    obtain ⟨j, hj, hr⟩ := ht.range
    refine ⟨?_, j, hj, hr.1, hr.2, hr.3⟩
    show bitmapTest (bitmapClearRun a.avmfBitmap _ _) q = 1
    rw [bitmapTest_clearRun]
    exact (if_neg hq).trans ht.bit
  refine ⟨fun b' hb' => h.aligned b' (hrest.subset hb'), ?_, ?_, h.apart.sublist hrest,
    fun b' hb' => h.fresh b' (hrest.subset hb')⟩
  · intro b' hb' q hq
    have hmem := hrest.subset hb'
    exact hkeep q (h.blocks b' hmem q hq) (h.apart.forall hmem hb (hne b' hb') q hq)
  · intro x hx h0
    exact ⟨(h.tables x hx h0).1, hkeep _ (h.tables x hx h0).2 (h.fresh b hb x hx h0)⟩

end Pages

/-! ## The joint invariant -/

structure Owned (a : Avmf) (log : List Nat) (live : List Block) : Prop where
  regions : RegionsOk a
  pages : PagesOk a log live
  recorded : ∀ b ∈ live, ∃ h ∈ a.staticHeaders,
    h.virtAddr = b.virt ∧ h.physAddr = b.phys ∧ h.size = b.size

/-- What the search for physical pages leaves alone. -/
structure SameRegions (a a' : Avmf) : Prop where
  heap : a'.heap = a.heap
  headers : a'.staticHeaders = a.staticHeaders
  head : a'.avmfHead = a.avmfHead
  last : a'.lastFound = a.lastFound
  wrapped : a'.wrapped = a.wrapped

theorem sameRegions_allocPhys (a : Avmf) (size : Nat) :
    SameRegions a (avmfAllocPhysContiguous a size).2 := by
  rcases avmfAllocPhysContiguous_cases a size with hres | ⟨i, s, n, -, -, -, -, -, hres⟩
  · rw [hres]; exact ⟨rfl, rfl, rfl, rfl, rfl⟩
  · rw [hres]; exact ⟨rfl, rfl, rfl, rfl, rfl⟩

theorem RegionsOk.of_same {a a' : Avmf} (h : RegionsOk a) (hs : SameRegions a a') :
    RegionsOk a' :=
  h.of_eq hs.heap hs.headers hs.head (by rw [hs.last]; exact h.cached)

theorem avmfAllocVirt_headers (a : Avmf) (size : Nat) (t : MemoryAllocType) :
    (avmfAllocVirt a size t).2.staticHeaders = a.staticHeaders := by
  unfold avmfAllocVirt
  dsimp only
  split
  · rfl
  · split
    · rfl
    · rfl

theorem avmfAllocVirt_head (a : Avmf) (size : Nat) (t : MemoryAllocType) :
    (avmfAllocVirt a size t).2.avmfHead = a.avmfHead := by
  unfold avmfAllocVirt
  dsimp only
  split
  · rfl
  · split
    · rfl
    · rfl

theorem avmfAllocRegion_wrapped (a : Avmf) (virt phys size flags : Nat) :
    (avmfAllocRegion a virt phys size flags).2.wrapped = a.wrapped := by
  unfold avmfAllocRegion
  dsimp only
  split
  · rfl
  · rfl

theorem avmfAllocRegion_mono {a : Avmf} {virt phys size flags : Nat} {h : AvmfHeader}
    (hh : h ∈ a.staticHeaders) :
    h ∈ (avmfAllocRegion a virt phys size flags).2.staticHeaders := by
  unfold avmfAllocRegion
  dsimp only
  split
  · exact hh
  · exact List.mem_append_left _ hh

/-- A region that is recorded is on the list with its own data. -/
theorem avmfAllocRegion_recorded {a : Avmf} (virt phys flags : Nat) {size : Nat}
    (hsize : align4k size = size) (hok : (avmfAllocRegion a virt phys size flags).1 ≠ 0) :
    ∃ h ∈ (avmfAllocRegion a virt phys size flags).2.staticHeaders,
      h.virtAddr = virt ∧ h.physAddr = phys ∧ h.size = size := by
  unfold avmfAllocRegion at hok ⊢
  by_cases hfull : avmfStaticSize ≤ a.headerIndex
  · rw [if_pos hfull] at hok
    exact absurd rfl hok
  · rw [if_neg hfull]
    exact ⟨_, List.mem_append_right _ List.mem_cons_self, rfl, rfl, hsize⟩

/-! ## Page-table allocations and mappings -/

/-- The page and then the virtual address that `alloc_page_table` takes. -/
theorem tableVirt_owned {m : Machine} {live : List Block} {p : Nat × Avmf}
    (h : m.avmf.wrapped = false → Owned m.avmf m.tableLog live)
    (hp : avmfAllocPhysContiguous m.avmf pageSize = p)
    (hv : (avmfAllocVirt p.2 pageSize .sensitive).2.wrapped = false) :
    Owned (avmfAllocVirt p.2 pageSize .sensitive).2 m.tableLog live ∧
      (p.1 ≠ 0 → RunTaken (avmfAllocVirt p.2 pageSize .sensitive).2 m.tableLog live p.1 1) ∧
      ((avmfAllocVirt p.2 pageSize .sensitive).1 ≠ 0 →
        RangeTaken (avmfAllocVirt p.2 pageSize .sensitive).2 .sensitive
          (avmfAllocVirt p.2 pageSize .sensitive).1 4096) := by
  have hsens : MemoryAllocType.sensitive ≠ .unknown := by decide
  have hpsame := sameRegions_allocPhys m.avmf pageSize
  rw [hp] at hpsame
  obtain ⟨hb1, hb2, hb3⟩ := avmfAllocVirt_bitmap p.2 pageSize .sensitive
  have hheaders := avmfAllocVirt_headers p.2 pageSize .sensitive
  have hwp : p.2.wrapped = false := by
    obtain ⟨w, hnowrap, hc⟩ := avmfAllocVirt_cases p.2 pageSize hsens
    rcases hc with ⟨-, hc⟩ | ⟨-, hc⟩
    · rw [hc] at hv; exact (hnowrap hv).1
    · rw [hc] at hv; exact (hnowrap hv).1
  have hown := h (by rw [← hpsame.wrapped]; exact hwp)
  obtain ⟨hpages, hrun⟩ := hown.pages.allocPhys pageSize
  rw [hp] at hpages hrun
  have hregions := hown.regions.of_same hpsame
  obtain ⟨-, -, hvregions, hrange⟩ := avmfAllocVirt_regions hregions pageSize hsens hv
  rw [align4k_pageSize] at hrange hrun
  refine ⟨⟨hvregions, hpages.of_eq hb1 hb2 hb3, ?_⟩, fun h0 => (hrun h0).of_eq hb1 hb2 hb3,
    fun h0 => (hrange h0).2⟩
  intro b hb
  rw [hheaders, hpsame.headers]
  exact hown.recorded b hb

/-- The allocator state of `alloc_page_table` when a virtual address is
    found, with the page taken before. -/
theorem tableAvmf_owned {m : Machine} {live : List Block} {p : Nat × Avmf}
    (h : m.avmf.wrapped = false → Owned m.avmf m.tableLog live)
    (hp : avmfAllocPhysContiguous m.avmf pageSize = p)
    (hw : (tableAvmf m.avmf).wrapped = false)
    (hv0 : (avmfAllocVirt p.2 pageSize .sensitive).1 ≠ 0) :
    Owned (tableAvmf m.avmf) m.tableLog live ∧
      (p.1 ≠ 0 → RunTaken (tableAvmf m.avmf) m.tableLog live p.1 1) := by
  unfold tableAvmf at hw ⊢
  rw [hp] at hw ⊢
  dsimp only at hw ⊢
  rw [avmfAllocRegion_wrapped] at hw
  obtain ⟨hown, hrun, hrange⟩ := tableVirt_owned h hp hw
  obtain ⟨hb1, hb2, hb3⟩ := avmfAllocRegion_bitmap
    (avmfAllocVirt p.2 pageSize .sensitive).2 (avmfAllocVirt p.2 pageSize .sensitive).1 p.1
    pageSize (avmfFlagPresent ||| avmfFlagWriteable)
  refine ⟨⟨?_, hown.pages.of_eq hb1 hb2 hb3, ?_⟩, fun h0 => (hrun h0).of_eq hb1 hb2 hb3⟩
  · exact avmfAllocRegion_regions hown.regions (by decide) _ _ (by decide) (by decide) (by decide)
      (hrange hv0)
  · intro b hb
    obtain ⟨hd, hmem, heq⟩ := hown.recorded b hb
    exact ⟨hd, avmfAllocRegion_mono hmem, heq⟩

/-- A page table keeps ownership, and its page is in the log. -/
theorem allocPageTable_owned {m : Machine} {live : List Block}
    (h : m.avmf.wrapped = false → Owned m.avmf m.tableLog live)
    (hw : (allocPageTable m).m.avmf.wrapped = false) :
    Owned (allocPageTable m).m.avmf (allocPageTable m).m.tableLog live := by
  generalize hp : avmfAllocPhysContiguous m.avmf pageSize = p
  rcases allocPageTable_allocator hp rfl with ⟨-, havmf, hlog⟩ | ⟨hv0, havmf, hlog | hlog⟩
  · rw [havmf] at hw ⊢
    rw [hlog]
    obtain ⟨hown, -, -⟩ := tableVirt_owned h hp hw
    exact ⟨hown.regions, hown.pages.log_zero, hown.recorded⟩
  · rw [havmf] at hw ⊢
    rw [hlog]
    obtain ⟨hown, -⟩ := tableAvmf_owned h hp hw hv0
    exact ⟨hown.regions, hown.pages.log_zero, hown.recorded⟩
  · rw [havmf] at hw ⊢
    rw [hlog]
    obtain ⟨hown, hrun⟩ := tableAvmf_owned h hp hw hv0
    refine ⟨hown.regions, ?_, hown.recorded⟩
    by_cases h0 : p.1 = 0
    · rw [h0]
      exact hown.pages.log_zero
    · exact hown.pages.log_page (hrun h0)

/-- Whatever memory holds, a mapping keeps ownership. -/
theorem pagerMapRange_owned {m : Machine} {virt phys size flags : Nat} {live : List Block}
    (h : m.avmf.wrapped = false → Owned m.avmf m.tableLog live) :
    (pagerMapRange m virt phys size flags).avmf.wrapped = false →
      Owned (pagerMapRange m virt phys size flags).avmf
        (pagerMapRange m virt phys size flags).tableLog live :=
  pagerMapRange_keeps (P := fun a log => a.wrapped = false → Owned a log live)
    (fun _ hm hw => allocPageTable_owned hm hw) h

/-! ## `avmf_alloc` -/

/-- The exits of `avmf_alloc`. -/
theorem avmfAlloc_cases {m : Machine} {size flags : Nat} {type : MemoryAllocType}
    {v p r : Nat × Avmf} (hv : avmfAllocVirt m.avmf size type = v)
    (hp : avmfAllocPhysContiguous v.2 (align4k size) = p)
    (hr : avmfAllocRegion p.2 v.1 p.1 (align4k size) flags = r) :
    (v.1 = 0 ∧ avmfAlloc m size type flags = ⟨0, none, { m with avmf := v.2 }⟩) ∨
    (v.1 ≠ 0 ∧ p.1 = 0 ∧ avmfAlloc m size type flags = ⟨0, none, { m with avmf := p.2 }⟩) ∨
    (v.1 ≠ 0 ∧ p.1 ≠ 0 ∧ r.1 = 0 ∧
      avmfAlloc m size type flags = ⟨0, none, { m with avmf := r.2 }⟩) ∨
    (v.1 ≠ 0 ∧ p.1 ≠ 0 ∧ r.1 ≠ 0 ∧ avmfAlloc m size type flags
      = ⟨v.1, some p.1,
          pagerMapRange { m with avmf := r.2 } v.1 p.1 (align4k size) flags⟩) := by
  unfold avmfAlloc
  rw [hv]
  dsimp only
  rw [hp, hr]
  by_cases hv0 : v.1 = 0
  · left
    exact ⟨hv0, if_pos hv0⟩
  · right
    rw [if_neg hv0]
    by_cases hp0 : p.1 = 0
    · left
      exact ⟨hv0, hp0, if_pos hp0⟩
    · right
      rw [if_neg hp0]
      by_cases hr0 : r.1 = 0
      · left
        exact ⟨hv0, hp0, hr0, if_pos hr0⟩
      · right
        exact ⟨hv0, hp0, hr0, if_neg hr0⟩

/-- The block that a successful `avmf_alloc` made. -/
def AllocResult.block (r : AllocResult) (size : Nat) : Block :=
  ⟨r.virt, r.physOut.getD 0, align4k size⟩

/-- The live blocks after an allocation. -/
def AllocResult.live (r : AllocResult) (size : Nat) (live : List Block) : List Block :=
  if r.virt = 0 then live else r.block size :: live

section Alloc

variable {m : Machine} {live : List Block} {size flags : Nat} {type : MemoryAllocType}

/-- The allocator when `avmf_alloc` has taken addresses and pages: the pages
    are free of blocks and tables, the addresses free of headers. -/
theorem avmfAlloc_taken (ht : type ≠ .unknown)
    (h : m.avmf.wrapped = false → Owned m.avmf m.tableLog live) {v p : Nat × Avmf}
    (hv : avmfAllocVirt m.avmf size type = v)
    (hp : avmfAllocPhysContiguous v.2 (align4k size) = p) (hw : p.2.wrapped = false) :
    Owned m.avmf m.tableLog live ∧ size + 4095 < 2 ^ 64 ∧
      Owned v.2 m.tableLog live ∧ Owned p.2 m.tableLog live ∧
      (v.1 ≠ 0 → v.1 = m.avmf.heap type ∧ RangeTaken p.2 type v.1 (align4k size)) ∧
      (p.1 ≠ 0 → RunTaken p.2 m.tableLog live p.1 (align4k size / 4096)) := by
  have hpsame := sameRegions_allocPhys v.2 (align4k size)
  rw [hp] at hpsame
  have hwv : v.2.wrapped = false := by
    rw [← hpsame.wrapped]; exact hw
  have hheaders := avmfAllocVirt_headers m.avmf size type
  obtain ⟨hb1, hb2, hb3⟩ := avmfAllocVirt_bitmap m.avmf size type
  have hown : Owned m.avmf m.tableLog live := by
    apply h
    obtain ⟨w, hnowrap, hc⟩ := avmfAllocVirt_cases m.avmf size ht
    rcases hc with ⟨-, hc⟩ | ⟨-, hc⟩
    · rw [← hv, hc] at hwv; exact (hnowrap hwv).1
    · rw [← hv, hc] at hwv; exact (hnowrap hwv).1
  obtain ⟨-, hword, hregions, hrange⟩ := avmfAllocVirt_regions hown.regions size ht
    (by rw [hv]; exact hwv)
  rw [hv] at hheaders hb1 hb2 hb3 hregions hrange
  have hvpages := hown.pages.of_eq hb1 hb2 hb3
  obtain ⟨hpages, hrun⟩ := hvpages.allocPhys (align4k size)
  rw [hp, align4k_align4k] at hrun
  rw [hp] at hpages
  have hvown : Owned v.2 m.tableLog live :=
    ⟨hregions, hvpages, by rw [hheaders]; exact hown.recorded⟩
  have hpown : Owned p.2 m.tableLog live :=
    ⟨hregions.of_same hpsame, hpages, by rw [hpsame.headers]; exact hvown.recorded⟩
  refine ⟨hown, hword, hvown, hpown, ?_, hrun⟩
  intro hv0
  obtain ⟨heq, hr⟩ := hrange hv0
  refine ⟨heq, hr.base, ?_, hr.aligned, ?_⟩
  · rw [hpsame.heap]; exact hr.top
  · rw [hpsame.headers]; exact hr.apart

/-- Pages are given for a size only. -/
theorem allocPhys_size {a : Avmf} (h : (avmfAllocPhysContiguous a (align4k size)).1 ≠ 0) :
    0 < align4k size := by
  rcases avmfAllocPhysContiguous_cases a (align4k size) with hc | ⟨i, s, n, hn, hpos, -, -, -, -⟩
  · rw [hc] at h
    exact absurd rfl h
  · rw [align4k_align4k] at hn
    omega

/-- An allocation keeps ownership; the new block is live before it is
    mapped. -/
theorem avmfAlloc_owned (ht : type ≠ .unknown)
    (h : m.avmf.wrapped = false → Owned m.avmf m.tableLog live)
    (hw : (avmfAlloc m size type flags).m.avmf.wrapped = false) :
    Owned (avmfAlloc m size type flags).m.avmf (avmfAlloc m size type flags).m.tableLog
      ((avmfAlloc m size type flags).live size live) := by
  generalize hv : avmfAllocVirt m.avmf size type = v
  generalize hp : avmfAllocPhysContiguous v.2 (align4k size) = p
  generalize hr : avmfAllocRegion p.2 v.1 p.1 (align4k size) flags = r
  have hpsame := sameRegions_allocPhys v.2 (align4k size)
  rw [hp] at hpsame
  have hrw : r.2.wrapped = p.2.wrapped := by
    rw [← hr]; exact avmfAllocRegion_wrapped _ _ _ _ _
  have htaken := avmfAlloc_taken ht h hv hp
  have hmod := align4k_mod size
  have hregion : r.2.wrapped = false → v.1 ≠ 0 → p.1 ≠ 0 → RegionsOk r.2 ∧
      ∀ live', PagesOk p.2 m.tableLog live' → PagesOk r.2 m.tableLog live' := by
    intro hw' hv0 hp0
    obtain ⟨-, -, -, hpown, hrange, -⟩ := htaken (by rw [← hrw]; exact hw')
    have hregions := avmfAllocRegion_regions hpown.regions ht p.1 flags
      hmod (allocPhys_size (by rw [hp]; exact hp0)) (align4k_lt size) (hrange hv0).2
    obtain ⟨hb1, hb2, hb3⟩ := avmfAllocRegion_bitmap p.2 v.1 p.1 (align4k size) flags
    rw [hr] at hregions hb1 hb2 hb3
    exact ⟨hregions, fun live' hpages => hpages.of_eq hb1 hb2 hb3⟩
  have hmono : ∀ hd ∈ p.2.staticHeaders, hd ∈ r.2.staticHeaders := by
    intro hd hmem
    rw [← hr]; exact avmfAllocRegion_mono hmem
  rcases avmfAlloc_cases hv hp hr with ⟨-, hres⟩ | ⟨-, -, hres⟩ | ⟨hv0, hp0, -, hres⟩ |
      ⟨hv0, hp0, hr0, hres⟩
  · rw [hres] at hw ⊢
    exact (htaken (by rw [hpsame.wrapped]; exact hw)).2.2.1
  · rw [hres] at hw ⊢
    exact (htaken hw).2.2.2.1
  · rw [hres] at hw ⊢
    obtain ⟨hregions, hpages⟩ := hregion hw hv0 hp0
    obtain ⟨-, -, -, hpown, -⟩ := htaken (by rw [← hrw]; exact hw)
    refine ⟨hregions, hpages _ hpown.pages, ?_⟩
    intro b hb
    obtain ⟨hd, hmem, heq⟩ := hpown.recorded b hb
    exact ⟨hd, hmono hd hmem, heq⟩
  · rw [hres] at hw ⊢
    unfold AllocResult.live AllocResult.block
    rw [if_neg hv0]
    -- the block is live before its pages are mapped, so that no table takes them
    refine pagerMapRange_owned (m := { m with avmf := r.2 }) ?_ hw
    intro hw'
    obtain ⟨hregions, hpages⟩ := hregion hw' hv0 hp0
    obtain ⟨-, -, -, hpown, -, hrun⟩ := htaken (by rw [← hrw]; exact hw')
    refine ⟨hregions, hpages _ (hpown.pages.cons hmod (hrun hp0)), ?_⟩
    intro b hb
    rcases List.mem_cons.mp hb with rfl | hb
    · have hrec := avmfAllocRegion_recorded (a := p.2) v.1 p.1 flags
        (align4k_align4k size) (by rw [hr]; exact hr0)
      rw [hr] at hrec
      exact hrec
    · obtain ⟨hd, hmem, heq⟩ := hpown.recorded b hb
      exact ⟨hd, hmono hd hmem, heq⟩

end Alloc

/-! ## `avmf_free` -/

/-- `avmf_free` of a live block clears the pages of the block and unmaps its
    address. -/
theorem avmfFree_live {m : Machine} {live : List Block} (h : Owned m.avmf m.tableLog live)
    {b : Block} (hb : b ∈ live) :
    ∃ j, j < m.avmf.headerIndex ∧ avmfFree m b.virt
      = pagerUnmap
          { m with
            avmf :=
              { m.avmf with
                lastFound := some j
                avmfBitmap := bitmapClearRun m.avmf.avmfBitmap (b.phys / pageSize)
                  (b.size / pageSize) } }
          b.virt := by
  obtain ⟨hd, hmem, hvirt, hphys, hsize⟩ := h.recorded b hb
  have hpos := (h.regions.sized hd hmem).1
  obtain ⟨j, hj, hhd, hfind⟩ := avmfFind_of_mem h.regions hmem (v := b.virt)
    ⟨Nat.le_of_eq hvirt, by omega⟩
  refine ⟨j, hj, ?_⟩
  unfold avmfFree
  rw [hfind]
  dsimp only
  have hsame : Avmf.header { m.avmf with lastFound := some j } j = hd := hhd
  rw [hsame, hphys, hsize]

/-- A free of a live block keeps ownership of the others. -/
theorem avmfFree_owned {m : Machine} {live : List Block} (h : Owned m.avmf m.tableLog live)
    {b : Block} (hb : b ∈ live) :
    Owned (avmfFree m b.virt).avmf (avmfFree m b.virt).tableLog
      (live.filter (fun b' => decide (b'.virt ≠ b.virt))) := by
  obtain ⟨j, hj, hres⟩ := avmfFree_live h hb
  rw [hres, (pagerUnmap_allocator _ _).1, (pagerUnmap_allocator _ _).2]
  have hne : ∀ b' ∈ live.filter (fun b' => decide (b'.virt ≠ b.virt)), b' ≠ b := by
    intro b' hb' heq
    have := (List.mem_filter.mp hb').2
    rw [decide_eq_true_eq, heq] at this
    exact this rfl
  refine ⟨?_, ?_, fun b' hb' => h.recorded b' (List.mem_filter.mp hb').1⟩
  · refine h.regions.of_eq rfl rfl rfl ?_
    intro i hi
    rw [← Option.some.inj hi]
    exact hj
  · exact (h.pages.release hb List.filter_sublist hne).of_eq rfl rfl rfl

/-- A free leaves the heaps, the ranges and the page-table log alone. -/
theorem avmfFree_allocator (m : Machine) (virt : Nat) :
    (avmfFree m virt).avmf.wrapped = m.avmf.wrapped ∧
      (avmfFree m virt).avmf.heap = m.avmf.heap ∧
      (avmfFree m virt).avmf.avmfBase = m.avmf.avmfBase ∧
      (avmfFree m virt).avmf.avmfLimit = m.avmf.avmfLimit ∧
      (avmfFree m virt).tableLog = m.tableLog := by
  unfold avmfFree
  rcases avmfFind_cases m.avmf virt with ⟨j, hfind, -, -⟩ | ⟨hfind, -⟩
  · rw [hfind]
    dsimp only
    rw [(pagerUnmap_allocator _ _).1, (pagerUnmap_allocator _ _).2]
    exact ⟨rfl, rfl, rfl, rfl, rfl⟩
  · rw [hfind]
    exact ⟨rfl, rfl, rfl, rfl, rfl⟩

end Pfi
