import Pfi.AvmfRuns

/-! # Which bits are accessed

    `bitmap_set`, `bitmap_clear` and `bitmap_test` do not check their argument.
    Each operation is given the list of the page indices that it passes to
    them.  The search tests the pages of the ranges, so the indices stay below
    `BITMAP_SIZE` in every run exactly when every range of at least one page
    ends there (`bitmap_safe_iff`): `avmf_init` takes any limits, and a request
    that nothing serves tests every page.

    The indices of a release are those of a recorded region, which are those
    of the allocation that recorded it (`IndicesOk`). -/

namespace Pfi

open Words FirstFit Run

/-! ## The indices of each operation -/

/-- The pages that the inner scan tests. -/
def scanTests (b : Nat → Nat) (pagesNeeded : Nat) : (n p runLen : Nat) → List Nat
  | 0, _, _ => []
  | n + 1, p, runLen =>
      p :: (if bitmapTest b p = 0 then
          if pagesNeeded ≤ runLen + 1 then [] else scanTests b pagesNeeded n (p + 1) (runLen + 1)
        else scanTests b pagesNeeded n (p + 1) 0)

/-- The pages that the loop over the ranges tests. -/
def searchTests (a : Avmf) (pagesNeeded : Nat) : List Nat → List Nat
  | [] => []
  | i :: is =>
      if a.avmfLimit i ≤ a.avmfBase i then searchTests a pagesNeeded is
      else if a.endPage i ≤ a.startPage i then searchTests a pagesNeeded is
      else
        scanTests a.avmfBitmap pagesNeeded (a.endPage i - a.scanStart i) (a.scanStart i) 0 ++
          match scanRun a.avmfBitmap pagesNeeded (a.endPage i - a.scanStart i)
              (a.scanStart i) 0 0 with
          | some _ => []
          | none => searchTests a pagesNeeded is

/-- The indices of `avmf_alloc_phys_contiguous`: the pages tested, then the
    pages marked. -/
def physIndices (a : Avmf) (size : Nat) : List Nat :=
  let pagesNeeded := align4k size / pageSize
  if pagesNeeded = 0 then []
  else
    searchTests a pagesNeeded (List.range 128) ++
      match searchRanges a pagesNeeded (List.range 128) with
      | some runStart => List.range' runStart pagesNeeded
      | none => []

/-- The indices of `n` calls of `alloc_page_table` in a row. -/
def tableIndices (a : Avmf) : Nat → List Nat
  | 0 => []
  | n + 1 => physIndices a pageSize ++ tableIndices (afterTable a) n

/-- The pages that the loop of `avmf_free` and `avmf_free_phys` clears. -/
def freeIndices (a : Avmf) (virt : Nat) : List Nat :=
  match (avmfFind a virt).1 with
  | none => []
  | some j => List.range' ((a.header j).physAddr / pageSize) ((a.header j).size / pageSize)

/-- The indices of `avmf_alloc`: those of its own search, and of the page
    tables that its mapping allocates, which the log counts. -/
def allocIndices (m : Machine) (size : Nat) (type : MemoryAllocType) (flags : Nat) : List Nat :=
  let v := avmfAllocVirt m.avmf size type
  if v.1 = 0 then []
  else
    let p := avmfAllocPhysContiguous v.2 (align4k size)
    let r := avmfAllocRegion p.2 v.1 p.1 (align4k size) flags
    let m' := pagerMapRange { m with avmf := r.2 } v.1 p.1 (align4k size) flags
    physIndices v.2 (align4k size) ++
      if p.1 = 0 ∨ r.1 = 0 then []
      else tableIndices r.2 (m'.tableLog.length - m.tableLog.length)

/-- The page indices that an operation passes to the bitmap functions. -/
def bitmapIndices (m : Machine) : AvmfOp → List Nat
  | .allocPhys size => physIndices m.avmf size
  | .alloc size type flags => allocIndices m size type flags
  | .free virt => freeIndices m.avmf virt
  | .freePhys virt => freeIndices m.avmf virt

/-- All of them are indices of the bitmap. -/
def BitmapSafe (m : Machine) (op : AvmfOp) : Prop := ∀ p ∈ bitmapIndices m op, p < bitmapSize

instance (m : Machine) (op : AvmfOp) : Decidable (BitmapSafe m op) :=
  inferInstanceAs (Decidable (∀ p ∈ _, p < bitmapSize))

/-! ## The pages of the search -/

section Search

variable {b : Nat → Nat} {need : Nat}

/-- A scan tests pages of its range only. -/
theorem scanTests_mem {n p runLen q : Nat} (h : q ∈ scanTests b need n p runLen) :
    p ≤ q ∧ q < p + n := by
  induction n generalizing p runLen with
  | zero => cases h
  | succ n ih =>
      unfold scanTests at h
      rcases List.mem_cons.mp h with rfl | h
      · omega
      · have hrest : p + 1 ≤ q ∧ q < p + 1 + n := by
          by_cases hp : bitmapTest b p = 0
          · rw [if_pos hp] at h
            by_cases hdone : need ≤ runLen + 1
            · rw [if_pos hdone] at h
              cases h
            · rw [if_neg hdone] at h
              exact ih h
          · rw [if_neg hp] at h
            exact ih h
        omega

/-- A scan that finds nothing tests every page. -/
theorem scanTests_all {n p runStart runLen q : Nat}
    (hnone : scanRun b need n p runStart runLen = none) (hq : p ≤ q) (hlt : q < p + n) :
    q ∈ scanTests b need n p runLen := by
  induction n generalizing p runStart runLen with
  | zero => omega
  | succ n ih =>
      unfold scanRun at hnone
      unfold scanTests
      by_cases hpq : q = p
      · rw [hpq]
        exact List.mem_cons_self
      · refine List.mem_cons_of_mem p ?_
        by_cases hp : bitmapTest b p = 0
        · rw [if_pos hp] at hnone ⊢
          by_cases hdone : need ≤ runLen + 1
          · rw [if_pos hdone] at hnone
            cases hnone
          · rw [if_neg hdone] at hnone ⊢
            exact ih hnone (by omega) (by omega)
        · rw [if_neg hp] at hnone ⊢
          exact ih hnone (by omega) (by omega)

end Search

/-- Every range of at least one page ends within the bitmap. -/
def Avmf.RangesFit (a : Avmf) : Prop :=
  ∀ i, a.avmfBase i < a.avmfLimit i → a.startPage i < a.endPage i → a.endPage i ≤ bitmapSize

section Fit

variable {a : Avmf}

/-- Where the ranges end within the bitmap, so do the tests of a search. -/
theorem searchTests_lt (h : a.RangesFit) (need : Nat) {is : List Nat} {q : Nat}
    (hq : q ∈ searchTests a need is) : q < bitmapSize := by
  induction is with
  | nil => cases hq
  | cons i is ih =>
      unfold searchTests at hq
      by_cases hempty : a.avmfLimit i ≤ a.avmfBase i
      · rw [if_pos hempty] at hq
        exact ih hq
      · rw [if_neg hempty] at hq
        by_cases hpages : a.endPage i ≤ a.startPage i
        · rw [if_pos hpages] at hq
          exact ih hq
        · rw [if_neg hpages] at hq
          rcases List.mem_append.mp hq with hq | hq
          · have hend := h i (Nat.lt_of_not_le hempty) (Nat.lt_of_not_le hpages)
            have hstart := scanStart_le_endPage (Nat.lt_of_not_le hpages)
            have := scanTests_mem hq
            omega
          · split at hq
            · cases hq
            · exact ih hq

/-- A range that holds a run ends within the bitmap. -/
theorem Avmf.RangesFit.inRange (h : a.RangesFit) {i s n : Nat} (hin : a.InRange i s n)
    (hn : 0 < n) : s + n ≤ bitmapSize := by
  have hlower := hin.lower
  have hupper := hin.upper
  exact Nat.le_trans hupper (h i hin.nonempty (by omega))

/-- So do the pages that it marks. -/
theorem physIndices_lt (h : a.RangesFit) (size : Nat) {q : Nat} (hq : q ∈ physIndices a size) :
    q < bitmapSize := by
  unfold physIndices at hq
  dsimp only at hq
  by_cases h0 : align4k size / pageSize = 0
  · rw [if_pos h0] at hq
    cases hq
  · rw [if_neg h0] at hq
    rcases List.mem_append.mp hq with hq | hq
    · exact searchTests_lt h _ hq
    · have hn := Nat.pos_of_ne_zero h0
      cases hsearch : searchRanges a (align4k size / pageSize) (List.range 128) with
      | none =>
          rw [hsearch] at hq
          cases hq
      | some s =>
          rw [hsearch] at hq
          obtain ⟨i, -, htakes⟩ := (searchRanges_eq_some hn).mp hsearch
          have hend := h.inRange htakes.reaches.inRange hn
          have := List.mem_range'_1.mp hq
          omega

end Fit

/-! ## What every operation keeps -/

/-- The ranges end within the bitmap, and so does every recorded region. -/
structure IndicesOk (a : Avmf) : Prop where
  ranges : a.RangesFit
  headers : ∀ h ∈ a.staticHeaders, h.physAddr / 4096 + h.size / 4096 ≤ bitmapSize

section Keeps

variable {a a' : Avmf}

/-- Ranges that stay, and no new region. -/
theorem IndicesOk.of_eq (h : IndicesOk a) (hbase : a'.avmfBase = a.avmfBase)
    (hlimit : a'.avmfLimit = a.avmfLimit)
    (hheaders : ∀ hd ∈ a'.staticHeaders, hd ∈ a.staticHeaders) : IndicesOk a' := by
  refine ⟨?_, fun hd hmem => h.headers hd (hheaders hd hmem)⟩
  intro i
  unfold Avmf.startPage Avmf.endPage
  rw [hbase, hlimit]
  exact h.ranges i

/-- What the physical search gives ends within the bitmap. -/
theorem IndicesOk.allocPhys (h : IndicesOk a) (size : Nat) :
    IndicesOk (avmfAllocPhysContiguous a size).2 ∧
      ((avmfAllocPhysContiguous a size).1 ≠ 0 →
        (avmfAllocPhysContiguous a size).1 / 4096 + align4k size / 4096 ≤ bitmapSize) := by
  rcases avmfAllocPhysContiguous_cases a size with hres | ⟨i, s, n, hn, hpos, -, hin, -, hres⟩
  · rw [hres]
    exact ⟨h, fun h0 => absurd rfl h0⟩
  · rw [hres]
    refine ⟨h.of_eq rfl rfl (fun hd hmem => hmem), fun _ => ?_⟩
    rw [Nat.mul_div_cancel s (by decide), ← hn]
    exact h.ranges.inRange hin hpos

/-- A virtual address is no page of the bitmap. -/
theorem IndicesOk.allocVirt (h : IndicesOk a) (size : Nat) (type : MemoryAllocType) :
    IndicesOk (avmfAllocVirt a size type).2 := by
  obtain ⟨-, hlimit, hbase⟩ := avmfAllocVirt_bitmap a size type
  refine h.of_eq hbase hlimit (fun hd hmem => ?_)
  rw [avmfAllocVirt_headers] at hmem
  exact hmem

/-- A region that ends within the bitmap may be recorded. -/
theorem IndicesOk.allocRegion (h : IndicesOk a) (virt flags : Nat) {phys size : Nat}
    (hfits : phys / 4096 + align4k size / 4096 ≤ bitmapSize) :
    IndicesOk (avmfAllocRegion a virt phys size flags).2 := by
  unfold avmfAllocRegion
  by_cases hfull : avmfStaticSize ≤ a.headerIndex
  · rw [if_pos hfull]
    exact h
  · rw [if_neg hfull]
    refine ⟨(@IndicesOk.of_eq a { a with staticHeaders := [] } h rfl rfl
      (fun hd hmem => absurd hmem List.not_mem_nil)).ranges, ?_⟩
    intro hd hmem
    rcases List.mem_append.mp hmem with hold | hnew
    · exact h.headers hd hold
    · rw [List.mem_singleton.mp hnew]
      exact hfits

/-- A release changes the bitmap only. -/
theorem IndicesOk.freePhys (h : IndicesOk a) (virt : Nat) : IndicesOk (avmfFreePhys a virt) := by
  unfold avmfFreePhys
  rcases avmfFind_cases a virt with ⟨j, hfind, -, -⟩ | ⟨hfind, -⟩
  · rw [hfind]
    exact h.of_eq rfl rfl (fun hd hmem => hmem)
  · rw [hfind]
    exact h

/-- A release clears pages of a recorded region, so pages of the bitmap. -/
theorem freeIndices_lt (h : IndicesOk a) (virt : Nat) {q : Nat} (hq : q ∈ freeIndices a virt) :
    q < bitmapSize := by
  unfold freeIndices at hq
  cases hfind : (avmfFind a virt).1 with
  | none =>
      rw [hfind] at hq
      cases hq
  | some j =>
      rw [hfind] at hq
      have hmem := List.mem_range'_1.mp hq
      simp only [pageSize] at hmem
      by_cases hj : j < a.headerIndex
      · have := h.headers _ (header_mem hj)
        omega
      · -- beyond the headers there is only the empty one
        have hnone : a.header j = default := by
          unfold Avmf.header
          exact List.getD_eq_default _ _ (Nat.le_of_not_lt hj)
        rw [hnone] at hmem
        have hsize : (default : AvmfHeader).size = 0 := rfl
        rw [hsize] at hmem
        omega

end Keeps

/-- Every operation of the allocator keeps the invariant. -/
theorem indicesOk_invariant :
    AllocInvariant IndicesOk (fun phys size => phys / 4096 + size / 4096 ≤ bitmapSize) :=
  ⟨fun _ size h => h.allocPhys size, by decide, fun _ size type h => h.allocVirt size type,
    fun _ virt _ _ flags h hfits => h.allocRegion virt flags hfits,
    fun _ virt h => h.freePhys virt⟩

/-- Page tables are pages that a search gave. -/
theorem tableIndices_lt {a : Avmf} (h : IndicesOk a) {n q : Nat} (hq : q ∈ tableIndices a n) :
    q < bitmapSize := by
  induction n generalizing a with
  | zero => cases hq
  | succ n ih =>
      rcases List.mem_append.mp hq with hq | hq
      · exact physIndices_lt h.ranges pageSize hq
      · exact ih (indicesOk_invariant.grow.afterTable h) hq

/-! ## Runs -/

section Operations

variable {m : Machine} (h : IndicesOk m.avmf)

include h

/-- An allocation and the tables of its mapping stay within the bitmap. -/
theorem allocIndices_lt {size : Nat} {type : MemoryAllocType} {flags q : Nat}
    (hq : q ∈ allocIndices m size type flags) : q < bitmapSize := by
  generalize hv : avmfAllocVirt m.avmf size type = v
  generalize hp : avmfAllocPhysContiguous v.2 (align4k size) = p
  generalize hr : avmfAllocRegion p.2 v.1 p.1 (align4k size) flags = r
  obtain ⟨hvirt, -, hregion⟩ := indicesOk_invariant.grow.stages h hv hp hr
  unfold allocIndices at hq
  dsimp only at hq
  rw [hv, hp, hr] at hq
  by_cases hv0 : v.1 = 0
  · rw [if_pos hv0] at hq
    cases hq
  · rw [if_neg hv0] at hq
    rcases List.mem_append.mp hq with hq | hq
    · exact physIndices_lt hvirt.ranges _ hq
    · by_cases hend : p.1 = 0 ∨ r.1 = 0
      · rw [if_pos hend] at hq
        cases hq
      · rw [if_neg hend] at hq
        exact tableIndices_lt (hregion (fun hc => hend (Or.inl hc))) hq

/-- Every operation accesses bits of the bitmap only. -/
theorem IndicesOk.safe (op : AvmfOp) : BitmapSafe m op := by
  cases op with
  | allocPhys size => exact fun q hq => physIndices_lt h.ranges size hq
  | alloc size type flags => exact fun q hq => allocIndices_lt h hq
  | free virt => exact fun q hq => freeIndices_lt h virt hq
  | freePhys virt => exact fun q hq => freeIndices_lt h virt hq

/-- In a run every operation accesses bits of the bitmap only. -/
theorem IndicesOk.run (ops : List AvmfOp) : Along avmfStep BitmapSafe m ops := by
  induction ops generalizing m with
  | nil => trivial
  | cons op ops ih => exact ⟨h.safe op, ih (indicesOk_invariant.step h op)⟩

end Operations

/-! ## A request that nothing serves -/

section Huge

variable {a : Avmf}

/-- A search for more pages than the bitmap has either tests the last page of
    a range, or takes a run that ends beyond the bitmap. -/
theorem searchTests_reaches {need i : Nat} {is : List Nat} (hi : i ∈ is)
    (hnonempty : a.avmfBase i < a.avmfLimit i) (hpages : a.startPage i < a.endPage i)
    (hbeyond : bitmapSize < a.endPage i) :
    (∃ q ∈ searchTests a need is, bitmapSize ≤ q) ∨ ∃ s, searchRanges a need is = some s := by
  induction is with
  | nil => cases hi
  | cons j is ih =>
      unfold searchTests searchRanges
      rcases List.mem_cons.mp hi with rfl | hi
      · rw [if_neg (Nat.not_le_of_lt hnonempty), if_neg (Nat.not_le_of_lt hpages),
          if_neg (Nat.not_le_of_lt hnonempty), if_neg (Nat.not_le_of_lt hpages)]
        have hstart := scanStart_le_endPage hpages
        cases hscan : scanRun a.avmfBitmap need (a.endPage i - a.scanStart i)
            (a.scanStart i) 0 0 with
        | some s => exact Or.inr ⟨s, rfl⟩
        | none =>
            left
            by_cases hlast : a.scanStart i ≤ a.endPage i - 1
            · refine ⟨a.endPage i - 1, List.mem_append_left _ ?_, by omega⟩
              exact scanTests_all hscan hlast (by omega)
            · -- the hint lies in the range only below its end
              exfalso
              unfold Avmf.scanStart at hlast
              split at hlast
              · omega
              · omega
      · by_cases hempty : a.avmfLimit j ≤ a.avmfBase j
        · rw [if_pos hempty, if_pos hempty]
          exact ih hi
        · rw [if_neg hempty, if_neg hempty]
          by_cases hj : a.endPage j ≤ a.startPage j
          · rw [if_pos hj, if_pos hj]
            exact ih hi
          · rw [if_neg hj, if_neg hj]
            cases hscan : scanRun a.avmfBitmap need (a.endPage j - a.scanStart j)
                (a.scanStart j) 0 0 with
            | some s => exact Or.inr ⟨s, rfl⟩
            | none =>
                rcases ih hi with ⟨q, hq, hle⟩ | hfound
                · exact Or.inl ⟨q, List.mem_append_right _ hq, hle⟩
                · exact Or.inr hfound

/-- The largest request. -/
theorem physIndices_huge {i : Nat} (hi : i < 128) (hnonempty : a.avmfBase i < a.avmfLimit i)
    (hpages : a.startPage i < a.endPage i) (hbeyond : bitmapSize < a.endPage i) :
    ∃ q ∈ physIndices a (2 ^ 64 - 4096), bitmapSize ≤ q := by
  have hneed : align4k (2 ^ 64 - 4096) / pageSize = 2 ^ 52 - 1 := by decide
  unfold physIndices
  dsimp only
  rw [hneed, if_neg (by decide)]
  rcases @searchTests_reaches a (2 ^ 52 - 1) i (List.range 128) (List.mem_range.mpr hi) hnonempty
    hpages hbeyond with ⟨q, hq, hle⟩ | ⟨s, hs⟩
  · exact ⟨q, List.mem_append_left _ hq, hle⟩
  · refine ⟨s + bitmapSize, List.mem_append_right _ ?_, Nat.le_add_left _ _⟩
    rw [hs]
    exact List.mem_range'_1.mpr ⟨Nat.le_add_right _ _, Nat.add_lt_add_left (by decide) s⟩

end Huge

section Start

variable {basePhys limitPhys : Nat → Nat} {entries i : Nat}

/-- The first 128 ranges are taken over. -/
theorem avmfInit_range (a : Avmf) (hi : i < entries % 256) (hi128 : i < 128) :
    (avmfInit a basePhys limitPhys entries).avmfBase i = basePhys i ∧
      (avmfInit a basePhys limitPhys entries).avmfLimit i = limitPhys i := by
  have hin : i < if entries % 256 ≤ 128 then entries % 256 else 128 := by
    split
    · exact hi
    · exact hi128
  exact ⟨if_pos hin, if_pos hin⟩

/-- The other entries stay as they were. -/
theorem avmfInit_rest (a : Avmf) (hi : ¬ (i < entries % 256 ∧ i < 128)) :
    (avmfInit a basePhys limitPhys entries).avmfBase i = a.avmfBase i ∧
      (avmfInit a basePhys limitPhys entries).avmfLimit i = a.avmfLimit i := by
  have hout : ¬ i < if entries % 256 ≤ 128 then entries % 256 else 128 := by
    split
    · omega
    · omega
  exact ⟨if_neg hout, if_neg hout⟩

/-- The first page of a range. -/
theorem startPage_eq {a : Avmf} {x : Nat} (h : a.avmfBase i = x) :
    a.startPage i = align4k x / 4096 := by
  unfold Avmf.startPage
  rw [h]
  exact Nat.shiftRight_eq_div_pow _ 12

/-- The page at which a range ends. -/
theorem endPage_eq {a : Avmf} {x : Nat} (h : a.avmfLimit i = x) : a.endPage i = x / 4096 := by
  unfold Avmf.endPage
  rw [h]
  exact Nat.shiftRight_eq_div_pow _ 12

end Start

/-- After `avmf_init` on a fresh module, every run of operations accesses bits
    of the bitmap only, exactly when every given range of at least one page
    ends within the bitmap. -/
theorem bitmap_safe_iff (m : Machine) (basePhys limitPhys : Nat → Nat) (entries : Nat) :
    (∀ ops, Along avmfStep BitmapSafe
        { m with avmf := avmfInit Avmf.boot basePhys limitPhys entries } ops) ↔
      ∀ i, i < entries % 256 → i < 128 → basePhys i < limitPhys i →
        align4k (basePhys i) / 4096 < limitPhys i / 4096 → limitPhys i / 4096 ≤ bitmapSize := by
  constructor
  · intro hsafe i hi hi128 hlt hpages
    by_contra hbeyond
    obtain ⟨hbase, hlimit⟩ := @avmfInit_range basePhys limitPhys entries i Avmf.boot hi hi128
    have hphys : ∀ size, ∀ q ∈ physIndices (avmfInit Avmf.boot basePhys limitPhys entries) size,
        q < bitmapSize := fun size => (hsafe [.allocPhys size]).1
    generalize avmfInit Avmf.boot basePhys limitPhys entries = a at hbase hlimit hphys
    obtain ⟨q, hq, hle⟩ := @physIndices_huge a i hi128 (by rw [hbase, hlimit]; exact hlt)
      (by rw [startPage_eq hbase, endPage_eq hlimit]; exact hpages)
      (by rw [endPage_eq hlimit]; omega)
    exact absurd (hphys _ q hq) (Nat.not_lt_of_le hle)
  · intro hfit ops
    refine IndicesOk.run ⟨?_, fun hd hmem => absurd hmem List.not_mem_nil⟩ ops
    intro i hnonempty hpages
    dsimp only at hnonempty hpages ⊢
    by_cases hi : i < entries % 256 ∧ i < 128
    · obtain ⟨hbase, hlimit⟩ :=
        @avmfInit_range basePhys limitPhys entries i Avmf.boot hi.1 hi.2
      rw [startPage_eq hbase, endPage_eq hlimit] at hpages
      rw [hbase, hlimit] at hnonempty
      rw [endPage_eq hlimit]
      exact hfit i hi.1 hi.2 hnonempty hpages
    · rw [(avmfInit_rest Avmf.boot hi).2] at hnonempty
      exact absurd hnonempty (Nat.not_lt_zero _)

/-- One GiB of RAM, and a request for all 64-bit addresses. -/
theorem bitmap_overrun :
    ¬ ∀ ops, Along avmfStep BitmapSafe
      { avmf := avmfInit Avmf.boot (fun _ => 0x100000) (fun _ => 0x40000000) 1 } ops := by
  intro hsafe
  have hphys : ∀ size, ∀ q ∈ physIndices
      (avmfInit Avmf.boot (fun _ => 0x100000) (fun _ => 0x40000000) 1) size, q < bitmapSize :=
    fun size => (hsafe [.allocPhys size]).1
  obtain ⟨q, hq, hle⟩ := @physIndices_huge
    (avmfInit Avmf.boot (fun _ => 0x100000) (fun _ => 0x40000000) 1) 0 (by decide) (by decide)
    (by decide) (by decide)
  exact absurd (hphys _ q hq) (Nat.not_lt_of_le hle)

end Pfi
