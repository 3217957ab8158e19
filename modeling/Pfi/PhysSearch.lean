import Pfi.StaleRegions

/-! # What the physical search misses

    `avmf_alloc_phys_contiguous` scans each range from the next-fit hint on, if
    the hint lies in the range, and from its start otherwise.  Free pages
    before the hint are not looked at, so a run that lies there, or that the
    hint cuts, is missed.  The address of the run is also the result of the
    function, so a run at page 0 is taken and reported as a failure.

    These are the only two ways to fail with a run at hand
    (`physSearch_exact_iff`). -/

namespace Pfi

open Words FirstFit Run

section Search

variable {a : Avmf} {n : Nat}

/-- A configured range holds `n` free pages in a row. -/
def Avmf.HasRun (a : Avmf) (n : Nat) : Prop :=
  ∃ i s, i < 128 ∧ a.InRange i s n ∧ RunAt (fun p => bitmapTest a.avmfBitmap p = 0) s n

/-- `avmf_alloc_phys_contiguous` returns 0 exactly when it is asked for no
    page or for more than are free in a row, and changes nothing then. -/
structure SearchExact (a : Avmf) (size : Nat) : Prop where
  fails : (avmfAllocPhysContiguous a size).1 = 0 ↔
    align4k size / pageSize = 0 ∨ ¬ a.HasRun (align4k size / pageSize)
  bitmap : (avmfAllocPhysContiguous a size).1 = 0 →
    (avmfAllocPhysContiguous a size).2.avmfBitmap = a.avmfBitmap
  hint : (avmfAllocPhysContiguous a size).1 = 0 →
    (avmfAllocPhysContiguous a size).2.lastAllocPage = a.lastAllocPage

/-- If there is a run at all, there is one from where the scan of its range
    starts; and the run that the search comes to first is not at page 0. -/
structure Avmf.Searchable (a : Avmf) (n : Nat) : Prop where
  ahead : a.HasRun n → ∃ i s, i < 128 ∧ a.Reaches i n s
  nonzero : ∀ i, i < 128 → ¬ a.Takes i n 0

/-- The search takes one run. -/
theorem Avmf.Takes.unique {i i' s s' : Nat} (h : a.Takes i n s) (h' : a.Takes i' n s') :
    s = s' := by
  rcases Nat.lt_trichotomy i i' with hlt | rfl | hlt
  · exact absurd h.reaches (h'.skips i hlt s)
  · exact Nat.le_antisymm (h.least s' h'.reaches) (h'.least s h.reaches)
  · exact absurd h'.reaches (h.skips i' hlt s')

/-- What a request of at least one page does. -/
theorem avmfAllocPhys_of_takes {size i s : Nat} (hn : 0 < align4k size / pageSize) (hi : i < 128)
    (h : a.Takes i (align4k size / pageSize) s) :
    avmfAllocPhysContiguous a size
      = (s * 4096,
          { a with
            avmfBitmap := bitmapSetRun a.avmfBitmap s (align4k size / pageSize)
            lastAllocPage := s + align4k size / pageSize }) := by
  have hshift : s <<< pageShift = s * 4096 := Nat.shiftLeft_eq s 12
  unfold avmfAllocPhysContiguous
  dsimp only
  rw [if_neg (Nat.ne_of_gt hn), (searchRanges_eq_some hn).mpr ⟨i, hi, h⟩, ← hshift]

/-- A search either takes a run, or no range has one from where its scan
    starts. -/
theorem avmfAllocPhys_search (a : Avmf) {size : Nat} (hn : 0 < align4k size / pageSize) :
    (∃ i s, i < 128 ∧ a.Takes i (align4k size / pageSize) s) ∨
      (avmfAllocPhysContiguous a size = (0, a) ∧
        ∀ i, i < 128 → ∀ s, ¬ a.Reaches i (align4k size / pageSize) s) := by
  cases hsearch : searchRanges a (align4k size / pageSize) (List.range 128) with
  | some s =>
      obtain ⟨i, hi, h⟩ := (searchRanges_eq_some hn).mp hsearch
      exact Or.inl ⟨i, s, hi, h⟩
  | none =>
      right
      refine ⟨?_, searchRanges_eq_none hn hsearch⟩
      unfold avmfAllocPhysContiguous
      dsimp only
      rw [if_neg (Nat.ne_of_gt hn), hsearch]

/-- The search is exact when no page is asked for, or when a run lies ahead
    unless there is none, and none is taken at page 0. -/
theorem physSearch_exact_iff (a : Avmf) (size : Nat) :
    SearchExact a size ↔
      align4k size / pageSize = 0 ∨ a.Searchable (align4k size / pageSize) := by
  by_cases h0 : align4k size / pageSize = 0
  · have hres : avmfAllocPhysContiguous a size = (0, a) := by
      unfold avmfAllocPhysContiguous
      dsimp only
      rw [if_pos h0]
    refine iff_of_true ⟨?_, ?_, ?_⟩ (Or.inl h0)
    · rw [hres]
      exact iff_of_true rfl (Or.inl h0)
    · rw [hres]
      exact fun _ => rfl
    · rw [hres]
      exact fun _ => rfl
  · have hn := Nat.pos_of_ne_zero h0
    rw [or_iff_right h0]
    rcases avmfAllocPhys_search a hn with ⟨i, s, hi, htakes⟩ | ⟨hres, hnone⟩
    · -- a run is taken: the result is 0 only for a run at page 0
      have hres := avmfAllocPhys_of_takes hn hi htakes
      have hrun : a.HasRun (align4k size / pageSize) :=
        ⟨i, s, hi, htakes.reaches.inRange, htakes.reaches.fits.run⟩
      constructor
      · intro hexact
        refine ⟨fun _ => ⟨i, s, hi, htakes.reaches⟩, ?_⟩
        intro i' _ hzero
        have hfails := hexact.fails
        rw [hres, htakes.unique hzero, or_iff_right h0] at hfails
        exact hfails.mp rfl hrun
      · intro hok
        have hs : s * 4096 ≠ 0 := by
          intro hc
          rw [show s = 0 by omega] at htakes
          exact hok.nonzero i hi htakes
        refine ⟨?_, ?_, ?_⟩
        · rw [hres, or_iff_right h0]
          exact iff_of_false hs (fun hc => hc hrun)
        · rw [hres]
          exact fun hc => absurd hc hs
        · rw [hres]
          exact fun hc => absurd hc hs
    · -- nothing is found: the result is right only if there is no run
      have hfails : (avmfAllocPhysContiguous a size).1 = 0 := by rw [hres]
      constructor
      · intro hexact
        have hno : ¬ a.HasRun (align4k size / pageSize) :=
          (hexact.fails.mp hfails).resolve_left h0
        exact ⟨fun hc => absurd hc hno, fun i hi h => hnone i hi 0 h.reaches⟩
      · intro hok
        refine ⟨?_, ?_, ?_⟩
        · refine iff_of_true hfails (Or.inr ?_)
          intro hrun
          obtain ⟨i, s, hi, h⟩ := hok.ahead hrun
          exact hnone i hi s h
        · rw [hres]
          exact fun _ => rfl
        · rw [hres]
          exact fun _ => rfl

end Search

/-- Eight pages of RAM from 0x10000, when `avmf_init` returns. -/
def eightPages : Machine :=
  { avmf := avmfInit Avmf.boot (fun _ => 0x10000) (fun _ => 0x18000) 1
    firmwarePml4 := 0x5000
    mappedPml4 := 0x5000
    cpuPhysBits := 36 }

/-- A block of three pages is freed behind the hint and not found again; and
    on RAM that begins at page 0 the first page is taken and reported as a
    failure. -/
theorem free_run_missed :
    ¬ SearchExact (exec memStep eightPages [.alloc 0x3000 .user 3, .free 0x1000]).avmf 0x3000 ∧
      ¬ SearchExact (avmfInit Avmf.boot (fun _ => 0) (fun _ => 0x4000) 1) 0x1000 := by
  constructor
  · intro hexact
    have hres : (avmfAllocPhysContiguous
        (exec memStep eightPages [.alloc 0x3000 .user 3, .free 0x1000]).avmf 0x3000).1 = 0 := by
      decide +kernel
    have hno := (hexact.fails.mp hres).resolve_left (by decide)
    refine hno ⟨0, 0x10, by decide, ⟨by decide +kernel, by decide +kernel, by decide +kernel⟩, ?_⟩
    have hrun : ∀ j, j < 3 → bitmapTest (exec memStep eightPages
        [.alloc 0x3000 .user 3, .free 0x1000]).avmf.avmfBitmap (0x10 + j) = 0 := by
      decide +kernel
    exact hrun
  · intro hexact
    have hhint := hexact.hint (by decide +kernel)
    have hmoved : (avmfAllocPhysContiguous
        (avmfInit Avmf.boot (fun _ => 0) (fun _ => 0x4000) 1) 0x1000).2.lastAllocPage ≠
        (avmfInit Avmf.boot (fun _ => 0) (fun _ => 0x4000) 1).lastAllocPage := by
      decide +kernel
    exact hmoved hhint

end Pfi
