import Pfi.Avmf
import Pfi.FirstFit
import Mathlib.Tactic.IntervalCases

/-! # What the allocator primitives do

    One specification for each primitive of `Pfi.Avmf`, in page numbers and
    plain arithmetic, so that later proofs never unfold the code:

    * `bitmapTest_setRun`, `bitmapTest_clearRun` — the bitmap loops;
    * `searchRanges_eq_some` — the search takes the first run of free pages;
    * `avmfAllocPhysContiguous_cases` — a physical request fails and changes
      nothing, or takes a run of free pages inside a configured range;
    * `avmfAllocVirt_cases` — a virtual request is refused, or advances its
      heap;
    * `avmfFind_cases` — a lookup returns a header that contains the address,
      or no listed header does. -/

namespace Pfi

open Words FirstFit

/-! ## Rounding -/

/-- `align4k` rounds up on 64 bits. -/
theorem align4k_eq (v : Nat) : align4k v = (v + 4095) % 2 ^ 64 / 4096 * 4096 := by
  unfold align4k
  exact and_not64_mask (k := 12) (by decide) (add64_lt v (pageSize - 1))

/-- It rounds up if the sum does not wrap. -/
theorem align4k_of_lt {v : Nat} (h : v + 4095 < 2 ^ 64) :
    align4k v = (v + 4095) / 4096 * 4096 := by
  rw [align4k_eq, Nat.mod_eq_of_lt h]

/-- What comes out is a multiple of the page size. -/
theorem align4k_mod (v : Nat) : align4k v % 4096 = 0 := by
  rw [align4k_eq]
  exact Nat.mul_mod_left _ _

/-- What comes out is a word. -/
theorem align4k_lt (v : Nat) : align4k v < 2 ^ 64 := by
  rw [align4k_eq]
  omega

/-- Rounding a rounded size again changes nothing. -/
theorem align4k_align4k (v : Nat) : align4k (align4k v) = align4k v := by
  have hmod := align4k_mod v
  have hlt := align4k_lt v
  rw [align4k_eq (align4k v)]
  omega

/-- Without wrap, rounding does not lose bytes. -/
theorem le_align4k {v : Nat} (h : v + 4095 < 2 ^ 64) : v ≤ align4k v := by
  rw [align4k_of_lt h]
  omega

/-- A size that is not zero takes a page at least. -/
theorem align4k_pos {v : Nat} (h : v + 4095 < 2 ^ 64) (hv : 0 < v) : 0 < align4k v := by
  rw [align4k_of_lt h]
  omega

/-! ## The bitmap -/

/-- A bit of the bitmap is one of the word that holds it. -/
theorem bitmapTest_eq (b : Nat → Nat) (p : Nat) :
    bitmapTest b p = ((b (p / 64)).testBit (p % 64)).toNat := by
  have h63 : p &&& 63 = p % 64 := and_mask p 6
  have hbit : b (p / 2 ^ 6) / 2 ^ (p % 64) % 2 < 2 := Nat.mod_lt _ (by decide)
  unfold bitmapTest
  rw [h63, and_one, Nat.shiftRight_eq_div_pow, Nat.shiftRight_eq_div_pow,
    Nat.testBit_eq_decide_div_mod_eq]
  show _ = (decide (b (p / 2 ^ 6) / 2 ^ (p % 64) % 2 = 1)).toNat
  generalize b (p / 2 ^ 6) / 2 ^ (p % 64) % 2 = r at hbit
  interval_cases r <;> rfl

/-- Two pages have the same word and the same bit only if they are equal. -/
theorem page_eq_of_word_bit {p q : Nat} (hw : q / 64 = p / 64)
    (hb : q % 64 = p % 64) : q = p := by
  omega

/-- Setting a bit changes this bit only. -/
theorem bitmapTest_set (b : Nat → Nat) (p q : Nat) :
    bitmapTest (bitmapSet b p) q = if q = p then 1 else bitmapTest b q := by
  have h63 : p &&& 63 = p % 64 := and_mask p 6
  have hsh : p >>> 6 = p / 64 := Nat.shiftRight_eq_div_pow p 6
  rw [bitmapTest_eq, bitmapTest_eq]
  unfold bitmapSet
  rw [h63, hsh, Nat.one_shiftLeft]
  by_cases hw : q / 64 = p / 64
  · rw [if_pos hw, Nat.testBit_or, Nat.testBit_two_pow]
    by_cases hb : p % 64 = q % 64
    · rw [if_pos (page_eq_of_word_bit hw hb.symm)]
      simp [hb]
    · have hne : q ≠ p := by omega
      rw [if_neg hne]
      simp [hb]
  · have hne : q ≠ p := by
      intro h
      exact hw (by rw [h])
    rw [if_neg hw, if_neg hne]

/-- Clearing a bit changes this bit only. -/
theorem bitmapTest_clear (b : Nat → Nat) (p q : Nat) :
    bitmapTest (bitmapClear b p) q = if q = p then 0 else bitmapTest b q := by
  have h63 : p &&& 63 = p % 64 := and_mask p 6
  have hsh : p >>> 6 = p / 64 := Nat.shiftRight_eq_div_pow p 6
  rw [bitmapTest_eq, bitmapTest_eq]
  unfold bitmapClear not64
  rw [h63, hsh, Nat.one_shiftLeft]
  have hp64 : p % 64 < 64 := Nat.mod_lt _ (by decide)
  have hq64 : q % 64 < 64 := Nat.mod_lt _ (by decide)
  have hpow : 2 ^ (p % 64) < 2 ^ 64 := Nat.pow_lt_pow_right (by decide) hp64
  have hmask : (2 ^ 64 - 1 - 2 ^ (p % 64)).testBit (q % 64)
      = !decide (p % 64 = q % 64) := by
    have he : 2 ^ 64 - 1 - 2 ^ (p % 64) = 2 ^ 64 - (2 ^ (p % 64) + 1) := by omega
    rw [he, Nat.testBit_two_pow_sub_succ hpow, Nat.testBit_two_pow]
    simp [hq64]
  by_cases hw : q / 64 = p / 64
  · rw [if_pos hw, Nat.testBit_and, hmask]
    by_cases hb : p % 64 = q % 64
    · rw [if_pos (page_eq_of_word_bit hw hb.symm)]
      simp [hb]
    · have hne : q ≠ p := by omega
      rw [if_neg hne]
      simp [hb]
  · have hne : q ≠ p := by
      intro h
      exact hw (by rw [h])
    rw [if_neg hw, if_neg hne]

/-- Setting a run changes the bits of the run only. -/
theorem bitmapTest_setRun (b : Nat → Nat) (start n q : Nat) :
    bitmapTest (bitmapSetRun b start n) q
      = if start ≤ q ∧ q < start + n then 1 else bitmapTest b q := by
  induction n with
  | zero =>
      have hno : ¬ (start ≤ q ∧ q < start + 0) := by omega
      rw [if_neg hno]
      rfl
  | succ n ih =>
      show bitmapTest (bitmapSet (bitmapSetRun b start n) (start + n)) q = _
      rw [bitmapTest_set, ih]
      by_cases hq : q = start + n
      · have hin : start ≤ q ∧ q < start + (n + 1) := by omega
        rw [if_pos hq, if_pos hin]
      · rw [if_neg hq]
        by_cases hin : start ≤ q ∧ q < start + n
        · rw [if_pos hin, if_pos (by omega)]
        · rw [if_neg hin, if_neg (by omega)]

/-- Clearing a run changes the bits of the run only. -/
theorem bitmapTest_clearRun (b : Nat → Nat) (start n q : Nat) :
    bitmapTest (bitmapClearRun b start n) q
      = if start ≤ q ∧ q < start + n then 0 else bitmapTest b q := by
  induction n with
  | zero =>
      have hno : ¬ (start ≤ q ∧ q < start + 0) := by omega
      rw [if_neg hno]
      rfl
  | succ n ih =>
      show bitmapTest (bitmapClear (bitmapClearRun b start n) (start + n)) q = _
      rw [bitmapTest_clear, ih]
      by_cases hq : q = start + n
      · have hin : start ≤ q ∧ q < start + (n + 1) := by omega
        rw [if_pos hq, if_pos hin]
      · rw [if_neg hq]
        by_cases hin : start ≤ q ∧ q < start + n
        · rw [if_pos hin, if_pos (by omega)]
        · rw [if_neg hin, if_neg (by omega)]

/-! ## The search for physical pages -/

/-- The scan is the general one over the free pages. -/
theorem scanRun_eq (b : Nat → Nat) (need n p runStart runLen : Nat) :
    scanRun b need n p runStart runLen
      = FirstFit.scan (fun p => bitmapTest b p = 0) need n p runStart runLen := by
  induction n generalizing p runStart runLen with
  | zero => rfl
  | succ n ih =>
      unfold scanRun FirstFit.scan
      dsimp only
      rw [ih, ih]

/-- The scan of a range starts in it. -/
theorem startPage_le_scanStart (a : Avmf) (i : Nat) :
    a.startPage i ≤ a.scanStart i := by
  unfold Avmf.scanStart
  by_cases h : a.startPage i ≤ a.lastAllocPage ∧ a.lastAllocPage < a.endPage i
  · rw [if_pos h]; exact h.1
  · rw [if_neg h]

/-- The hint is used only if it lies in the range. -/
theorem scanStart_le_endPage {a : Avmf} {i : Nat} (h : a.startPage i < a.endPage i) :
    a.scanStart i ≤ a.endPage i := by
  unfold Avmf.scanStart
  by_cases hin : a.startPage i ≤ a.lastAllocPage ∧ a.lastAllocPage < a.endPage i
  · rw [if_pos hin]; omega
  · rw [if_neg hin]; omega

/-- A run of pages lies in configured range `i`. -/
structure Avmf.InRange (a : Avmf) (i start n : Nat) : Prop where
  nonempty : a.avmfBase i < a.avmfLimit i
  lower : a.startPage i ≤ start
  upper : start + n ≤ a.endPage i

/-- The search of range `i` finds a run at `s`, if it comes to the range: the
    run lies between the page where the scan starts and the end of the
    range. -/
structure Avmf.Reaches (a : Avmf) (i need s : Nat) : Prop where
  nonempty : a.avmfBase i < a.avmfLimit i
  fits : Fits (fun p => bitmapTest a.avmfBitmap p = 0) (a.scanStart i) (a.endPage i) need s

/-- What the scan reaches lies in the range. -/
theorem Avmf.Reaches.inRange {a : Avmf} {i need s : Nat} (h : a.Reaches i need s) :
    a.InRange i s need :=
  ⟨h.nonempty, Nat.le_trans (startPage_le_scanStart a i) h.fits.lower, h.fits.upper⟩

/-- The search takes the first run of the first range in which it finds
    one. -/
structure Avmf.Takes (a : Avmf) (i need s : Nat) : Prop where
  reaches : a.Reaches i need s
  least : ∀ s', a.Reaches i need s' → s ≤ s'
  skips : ∀ i', i' < i → ∀ s', ¬ a.Reaches i' need s'

/-- The same of the `n` ranges from `k` on. -/
def Avmf.TakesFrom (a : Avmf) (need k n s : Nat) : Prop :=
  ∃ i, k ≤ i ∧ i < k + n ∧ a.Reaches i need s ∧ (∀ s', a.Reaches i need s' → s ≤ s') ∧
    ∀ i', k ≤ i' → i' < i → ∀ s', ¬ a.Reaches i' need s'

/-- A range without a run is passed over. -/
theorem Avmf.takesFrom_skip {a : Avmf} {need k n s : Nat} (hno : ∀ s', ¬ a.Reaches k need s') :
    a.TakesFrom need k (n + 1) s ↔ a.TakesFrom need (k + 1) n s := by
  constructor
  · rintro ⟨i, h1, h2, hr, hleast, hprev⟩
    have hne : i ≠ k := by
      rintro rfl
      exact hno s hr
    exact ⟨i, by omega, by omega, hr, hleast, fun i' h1' h2' => hprev i' (by omega) h2'⟩
  · rintro ⟨i, h1, h2, hr, hleast, hprev⟩
    refine ⟨i, by omega, by omega, hr, hleast, ?_⟩
    intro i' h1' h2'
    by_cases hk : i' = k
    · rw [hk]
      exact hno
    · exact hprev i' (by omega) h2'

/-- The search over the ranges stops at the first one that has a run. -/
theorem searchRanges_from {a : Avmf} {need n k s : Nat} (hneed : 0 < need) :
    searchRanges a need (List.range' k n) = some s ↔ a.TakesFrom need k n s := by
  induction n generalizing k with
  | zero =>
      refine iff_of_false (fun h => by cases h) ?_
      rintro ⟨i, h1, h2, -⟩
      omega
  | succ n ih =>
      -- what is left when range `k` has no run
      have hskip : (∀ s', ¬ a.Reaches k need s') →
          (searchRanges a need (List.range' (k + 1) n) = some s ↔ a.TakesFrom need k (n + 1) s) :=
        fun hno => ih.trans (Avmf.takesFrom_skip hno).symm
      show searchRanges a need (k :: List.range' (k + 1) n) = some s ↔ _
      unfold searchRanges
      by_cases hempty : a.avmfLimit k ≤ a.avmfBase k
      · rw [if_pos hempty]
        exact hskip (fun s' h => absurd h.nonempty (Nat.not_lt_of_le hempty))
      · rw [if_neg hempty]
        by_cases hpages : a.endPage k ≤ a.startPage k
        · rw [if_pos hpages]
          refine hskip (fun s' h => ?_)
          have := h.inRange.lower
          have := h.inRange.upper
          omega
        · rw [if_neg hpages, scanRun_eq]
          have hstart := scanStart_le_endPage (Nat.lt_of_not_le hpages)
          have hend : a.scanStart k + (a.endPage k - a.scanStart k) = a.endPage k := by omega
          cases hscan : scan (fun p => bitmapTest a.avmfBitmap p = 0) need
              (a.endPage k - a.scanStart k) (a.scanStart k) 0 0 with
          | none =>
              have hno := (scan_eq_none hneed).mp hscan
              rw [hend] at hno
              exact hskip (fun s' h => hno s' h.fits)
          | some s₀ =>
              have hfirst := (scan_eq_some hneed).mp hscan
              rw [hend] at hfirst
              have hr : a.Reaches k need s₀ := ⟨Nat.lt_of_not_le hempty, hfirst.fits⟩
              dsimp only
              rw [Option.some.injEq]
              constructor
              · rintro rfl
                exact ⟨k, Nat.le_refl k, by omega, hr, fun s' h => hfirst.least s' h.fits,
                  fun i' h1 h2 => by omega⟩
              · rintro ⟨i, h1, -, hri, hleast, hprev⟩
                have hik : i = k := by
                  by_contra hne
                  exact hprev k (Nat.le_refl k) (by omega) s₀ hr
                rw [hik] at hri hleast
                exact Nat.le_antisymm (hfirst.least s hri.fits) (hleast s₀ hr)

/-- What the search finds. -/
theorem searchRanges_eq_some {a : Avmf} {need s : Nat} (hneed : 0 < need) :
    searchRanges a need (List.range 128) = some s ↔ ∃ i, i < 128 ∧ a.Takes i need s := by
  rw [List.range_eq_range', searchRanges_from hneed]
  constructor
  · rintro ⟨i, -, hi, hr, hleast, hprev⟩
    exact ⟨i, by omega, hr, hleast, fun i' h => hprev i' (Nat.zero_le i') h⟩
  · rintro ⟨i, hi, hr, hleast, hprev⟩
    exact ⟨i, Nat.zero_le i, by omega, hr, hleast, fun i' _ h => hprev i' h⟩

/-- A search that fails has seen no run in any range. -/
theorem searchRanges_eq_none {a : Avmf} {need : Nat} (hneed : 0 < need)
    (h : searchRanges a need (List.range 128) = none) :
    ∀ i, i < 128 → ∀ s, ¬ a.Reaches i need s := by
  -- if a range had a run, the search would take the first one of the first such range
  intro i hi s hs
  have hsome : ∃ i, i < 128 ∧ ∃ s, a.Reaches i need s := ⟨i, hi, s, hs⟩
  classical
  obtain ⟨hlt, s₁, hs₁⟩ := Nat.find_spec hsome
  obtain ⟨s₀, hfirst⟩ := exists_first ⟨s₁, hs₁.fits⟩
  have htakes : a.Takes (Nat.find hsome) need s₀ := by
    refine ⟨⟨hs₁.nonempty, hfirst.fits⟩, fun s' h' => hfirst.least s' h'.fits, ?_⟩
    intro i' hi' s' h'
    exact Nat.find_min hsome hi' ⟨Nat.lt_trans hi' hlt, s', h'⟩
  rw [(searchRanges_eq_some hneed).mpr ⟨_, hlt, htakes⟩] at h
  cases h

/-- A physical request fails and changes nothing, or marks a run of free
    pages of a configured range and returns its address. -/
theorem avmfAllocPhysContiguous_cases (a : Avmf) (size : Nat) :
    avmfAllocPhysContiguous a size = (0, a) ∨
    ∃ i s n, n = align4k size / 4096 ∧ 0 < n ∧ i < 128 ∧ a.InRange i s n ∧
      (∀ j, j < n → bitmapTest a.avmfBitmap (s + j) = 0) ∧
      avmfAllocPhysContiguous a size
        = (s * 4096,
            { a with
              avmfBitmap := bitmapSetRun a.avmfBitmap s n
              lastAllocPage := s + n }) := by
  unfold avmfAllocPhysContiguous
  by_cases h0 : align4k size / pageSize = 0
  · left
    simp only [h0, if_true]
  · simp only [h0, if_false]
    cases hsearch : searchRanges a (align4k size / pageSize) (List.range 128) with
    | none => exact Or.inl rfl
    | some s =>
        right
        obtain ⟨i, hi, htakes⟩ := (searchRanges_eq_some (Nat.pos_of_ne_zero h0)).mp hsearch
        refine ⟨i, s, align4k size / 4096, rfl, Nat.pos_of_ne_zero h0, hi,
          htakes.reaches.inRange, htakes.reaches.fits.run, ?_⟩
        have hshift : s <<< pageShift = s * 4096 := Nat.shiftLeft_eq s 12
        show (s <<< pageShift, _) = (s * 4096, _)
        rw [hshift]

/-! ## Virtual addresses -/

/-- A virtual request is refused and moves no heap, or returns its heap
    pointer and advances it. -/
theorem avmfAllocVirt_cases (a : Avmf) (size : Nat) {type : MemoryAllocType}
    (ht : type ≠ .unknown) :
    ∃ w, (w = false → a.wrapped = false ∧ size + 4095 < 2 ^ 64 ∧
        a.heap type + align4k size < 2 ^ 64) ∧
      ((heapEnd type < add64 (a.heap type) (align4k size) ∧
          avmfAllocVirt a size type = (0, { a with wrapped := w })) ∨
        (add64 (a.heap type) (align4k size) ≤ heapEnd type ∧
          avmfAllocVirt a size type
            = (a.heap type,
                { a with
                  wrapped := w
                  heap := fun t => if t = type then add64 (a.heap t) (align4k size)
                    else a.heap t }))) := by
  refine ⟨a.wrapped || (decide (2 ^ 64 ≤ size + (pageSize - 1)) ||
    decide (2 ^ 64 ≤ a.heap type + align4k size)), ?_, ?_⟩
  · intro hw
    rw [Bool.or_eq_false_iff, Bool.or_eq_false_iff, decide_eq_false_iff_not,
      decide_eq_false_iff_not] at hw
    exact ⟨hw.1, by have := hw.2.1; simp only [pageSize] at this; omega, by omega⟩
  · unfold avmfAllocVirt
    rw [if_neg ht]
    by_cases hend : heapEnd type < add64 (a.heap type) (align4k size)
    · left
      exact ⟨hend, if_pos hend⟩
    · right
      exact ⟨Nat.le_of_not_lt hend, if_neg hend⟩

/-- A virtual request whose sums fit in 64 bits. -/
theorem avmfAllocVirt_nowrap {a : Avmf} (size : Nat) {type : MemoryAllocType}
    (ht : type ≠ .unknown) (hw : a.wrapped = false) (hsize : size + 4095 < 2 ^ 64)
    (hsum : a.heap type + align4k size < 2 ^ 64) :
    (avmfAllocVirt a size type).2.wrapped = false ∧
      ∀ t, (avmfAllocVirt a size type).2.heap t
        ≤ a.heap t + (if t = type then align4k size else 0) := by
  have hnowrap : (a.wrapped || (decide (2 ^ 64 ≤ size + (pageSize - 1)) ||
      decide (2 ^ 64 ≤ a.heap type + align4k size))) = false := by
    have h1 : ¬ 2 ^ 64 ≤ size + (pageSize - 1) := by
      simp only [pageSize]
      omega
    rw [hw, decide_eq_false h1, decide_eq_false (by omega)]
    rfl
  unfold avmfAllocVirt
  rw [if_neg ht]
  dsimp only
  rw [hnowrap]
  by_cases hend : heapEnd type < add64 (a.heap type) (align4k size)
  · rw [if_pos hend]
    exact ⟨rfl, fun t => Nat.le_add_right _ _⟩
  · rw [if_neg hend]
    refine ⟨rfl, fun t => ?_⟩
    show (if t = type then add64 (a.heap t) (align4k size) else a.heap t) ≤ _
    by_cases htt : t = type
    · rw [if_pos htt, if_pos htt, htt, add64_of_lt hsum]
    · rw [if_neg htt, if_neg htt]
      exact Nat.le_refl _

/-! ## Regions -/

/-- A region contains the addresses from its base to its end, which is computed
    on 64 bits. -/
theorem contains_iff {h : AvmfHeader} {v : Nat} :
    h.contains v = true ↔ h.virtAddr ≤ v ∧ v < add64 h.virtAddr h.size := by
  unfold AvmfHeader.contains
  rw [Bool.and_eq_true, decide_eq_true_eq, decide_eq_true_eq]

/-- A header with index `i` is on the list that starts at `avmf_head`. -/
def Avmf.Listed (a : Avmf) (i : Nat) : Prop :=
  ∃ k, a.avmfHead = some k ∧ k ≤ i ∧ i < a.headerIndex

/-- A header below the index is one of the array. -/
theorem header_eq_getElem {a : Avmf} {i : Nat} (hi : i < a.headerIndex) :
    a.header i = a.staticHeaders.get ⟨i, hi⟩ := by
  unfold Avmf.header
  exact List.getD_eq_getElem _ _ hi

/-- So it is among the headers. -/
theorem header_mem {a : Avmf} {i : Nat} (hi : i < a.headerIndex) :
    a.header i ∈ a.staticHeaders := by
  rw [header_eq_getElem hi]
  exact List.getElem_mem hi

/-- A region that the scan returns is listed and contains the address. -/
theorem scanRegions_some {a : Avmf} {v j : Nat} (h : a.scanRegions v = some j) :
    a.Listed j ∧ (a.header j).contains v = true := by
  unfold Avmf.scanRegions at h
  cases hk : a.avmfHead with
  | none => rw [hk] at h; cases h
  | some k =>
      rw [hk] at h
      obtain ⟨n, hn, hj⟩ := Option.map_eq_some_iff.mp h
      obtain ⟨hlt, hc, -⟩ := List.findIdx?_eq_some_iff_getElem.mp hn
      rw [List.length_drop] at hlt
      rw [List.getElem_drop] at hc
      have hjlt : j < a.headerIndex := by
        show j < a.staticHeaders.length
        omega
      refine ⟨⟨k, hk, by omega, hjlt⟩, ?_⟩
      rw [header_eq_getElem hjlt]
      simp only [← hj]
      exact hc

/-- If the scan returns none, no listed region contains the address. -/
theorem scanRegions_none {a : Avmf} {v : Nat} (h : a.scanRegions v = none) :
    ∀ j, a.Listed j → (a.header j).contains v = false := by
  rintro j ⟨k, hk, hkj, hj⟩
  unfold Avmf.scanRegions at h
  rw [hk] at h
  have hnone := List.findIdx?_eq_none_iff.mp (Option.map_eq_none_iff.mp h)
  apply hnone
  rw [header_eq_getElem hj, List.mem_iff_getElem]
  have hlen : j - k < (a.staticHeaders.drop k).length := by
    have hj' : j < a.staticHeaders.length := hj
    rw [List.length_drop]
    omega
  refine ⟨j - k, hlen, ?_⟩
  rw [List.getElem_drop]
  congr 1
  omega

/-- A lookup returns a header that contains the address: the cached one, or
    one of the list.  It fails only if no listed header contains the
    address.  Only the cache changes. -/
theorem avmfFind_cases (a : Avmf) (v : Nat) :
    (∃ j, avmfFind a v = (some j, { a with lastFound := some j }) ∧
      (a.header j).contains v = true ∧ (a.lastFound = some j ∨ a.Listed j)) ∨
    (avmfFind a v = (none, a) ∧ ∀ j, a.Listed j → (a.header j).contains v = false) := by
  unfold avmfFind
  rcases hscan : a.scanRegions v with _ | j
  · have hnone := scanRegions_none hscan
    rcases hlast : a.lastFound with _ | i
    · exact Or.inr ⟨rfl, hnone⟩
    · by_cases hc : (a.header i).contains v = true
      · left
        refine ⟨i, ?_, hc, Or.inl rfl⟩
        simp only [hc, if_true]
        rw [← hlast]
      · right
        refine ⟨?_, hnone⟩
        simp only [hc]
        rfl
  · obtain ⟨hl, hc⟩ := scanRegions_some hscan
    rcases hlast : a.lastFound with _ | i
    · exact Or.inl ⟨j, rfl, hc, Or.inr hl⟩
    · left
      by_cases hi : (a.header i).contains v = true
      · refine ⟨i, ?_, hi, Or.inl rfl⟩
        simp only [hi, if_true]
        rw [← hlast]
      · refine ⟨j, ?_, hc, Or.inr hl⟩
        simp only [hi]
        rfl

end Pfi
