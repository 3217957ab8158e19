import Pfi.PagerHistory

/-! # What `pager_map_range` does to translations

    A range call is a sequence of `pager_map` calls (`pagerMapRange_eq_exec`).
    On tables that hold no 2 MiB leaf in the range, its effect is given page
    by page: page `k` of the range gets `rangeLeaf k`, the leaf of its 2 MiB
    slot when the slot lies inside the range and both addresses are aligned to
    it, and a 4 KiB leaf otherwise; every other page keeps its translation
    (`pagerMapRange_mapped`). -/

namespace Pfi

open Words RadixTable Run

/-! ## A range call as a sequence of calls -/

/-- The `pager_map` calls that the loop makes from `offset` on. -/
def rangeCallsFrom (virt phys size flags : Nat) : (fuel offset : Nat) → List MapCall
  | 0, _ => []
  | fuel + 1, offset =>
      if offset < size then
        if 0x200000 ≤ size - offset ∧ add64 virt offset % 0x200000 = 0 ∧
            add64 phys offset % 0x200000 = 0 then
          ⟨add64 virt offset, add64 phys offset, flags ||| pageHuge⟩
            :: rangeCallsFrom virt phys size flags fuel (add64 offset 0x200000)
        else
          ⟨add64 virt offset, add64 phys offset, flags⟩
            :: rangeCallsFrom virt phys size flags fuel (add64 offset pageSize)
      else []

/-- The calls of `pager_map` that a range makes. -/
def rangeCalls (virt phys size flags : Nat) : List MapCall :=
  rangeCallsFrom virt phys size flags (size / pageSize + 1) 0

/-- A call that the range makes from an offset on.  Its place is a later one,
    and a 2 MiB page that was not asked for is a slot of both ranges. -/
structure CallFrom (virt phys size flags start : Nat) (c : MapCall) : Prop where
  offset : ∃ o, start ≤ o ∧ o < size ∧ o % 4096 = 0 ∧ c.virt = virt + o ∧ c.phys = phys + o
  slot : c.flags = flags ∨
    (c.flags = flags ||| pageHuge ∧ c.virt % 0x200000 = 0 ∧ c.phys % 0x200000 = 0)

/-- A call that starts later also starts after an earlier place. -/
theorem CallFrom.later {virt phys size flags start start' : Nat} {c : MapCall}
    (h : CallFrom virt phys size flags start' c) (hle : start ≤ start') :
    CallFrom virt phys size flags start c := by
  obtain ⟨o, hlo, hrest⟩ := h.offset
  exact ⟨⟨o, Nat.le_trans hle hlo, hrest⟩, h.slot⟩

/-- The calls of a range are of that kind.  The induction is on the turns
    left. -/
theorem rangeCallsFrom_from {virt phys size : Nat} (flags : Nat) (hvend : virt + size ≤ 2 ^ 64)
    (hpend : phys + size ≤ 2 ^ 64) (hlen : size ≤ 2 ^ 64 - 4096) (fuel : Nat) {offset : Nat}
    (hoff : offset % 4096 = 0) :
    ∀ c ∈ rangeCallsFrom virt phys size flags fuel offset,
      CallFrom virt phys size flags offset c := by
  induction fuel generalizing offset with
  | zero => exact fun c hc => absurd hc List.not_mem_nil
  | succ fuel ih =>
      intro c hc
      simp only [rangeCallsFrom] at hc
      by_cases hlt : offset < size
      · rw [if_pos hlt, add64_of_lt (a := virt) (by omega), add64_of_lt (a := phys) (by omega)]
          at hc
        by_cases hslot : 0x200000 ≤ size - offset ∧ (virt + offset) % 0x200000 = 0 ∧
            (phys + offset) % 0x200000 = 0
        · rw [if_pos hslot, add64_of_lt (by omega)] at hc
          rcases List.mem_cons.mp hc with rfl | hc
          · exact ⟨⟨offset, Nat.le_refl _, hlt, hoff, rfl, rfl⟩, Or.inr ⟨rfl, hslot.2⟩⟩
          · exact (@ih (offset + 0x200000) (by omega) c hc).later (Nat.le_add_right _ _)
        · rw [if_neg hslot, add64_of_lt (by simp only [pageSize]; omega)] at hc
          rcases List.mem_cons.mp hc with rfl | hc
          · exact ⟨⟨offset, Nat.le_refl _, hlt, hoff, rfl, rfl⟩, Or.inl rfl⟩
          · exact (@ih (offset + pageSize) (by simp only [pageSize]; omega) c hc).later
              (Nat.le_add_right _ _)
      · rw [if_neg hlt] at hc
        exact absurd hc List.not_mem_nil

/-- The loop is its calls, one after the other. -/
theorem pagerMapRangeLoop_eq_exec (virt phys size flags fuel : Nat) (m : Machine)
    (offset : Nat) :
    pagerMapRangeLoop virt phys size flags fuel m offset
      = exec mapStep m (rangeCallsFrom virt phys size flags fuel offset) := by
  induction fuel generalizing m offset with
  | zero => rfl
  | succ fuel ih =>
      simp only [pagerMapRangeLoop, rangeCallsFrom]
      by_cases hlt : offset < size
      · rw [if_pos hlt, if_pos hlt]
        by_cases hhuge : 0x200000 ≤ size - offset ∧ add64 virt offset % 0x200000 = 0 ∧
            add64 phys offset % 0x200000 = 0
        · rw [if_pos hhuge, if_pos hhuge, ih, exec_cons]
          rfl
        · rw [if_neg hhuge, if_neg hhuge, ih, exec_cons]
          rfl
      · rw [if_neg hlt, if_neg hlt, exec_nil]

/-- So is the function. -/
theorem pagerMapRange_eq_exec (m : Machine) (virt phys size flags : Nat) :
    pagerMapRange m virt phys size flags
      = exec mapStep m (rangeCalls virt phys size flags) :=
  pagerMapRangeLoop_eq_exec virt phys size flags _ m 0

/-- What every call keeps, a range call keeps. -/
theorem exec_mapStep_invariant {I : Machine → Prop}
    (hstep : ∀ m c, I m → I (mapStep m c)) {m : Machine} (h : I m)
    (calls : List MapCall) : I (exec mapStep m calls) := by
  induction calls generalizing m with
  | nil => exact h
  | cons c calls ih => exact ih (hstep m c h)

/-- What is logged stays logged over the calls. -/
theorem exec_mapStep_log_mono (m : Machine) (calls : List MapCall) {x : Nat}
    (hx : x ∈ m.tableLog) : x ∈ (exec mapStep m calls).tableLog :=
  exec_mapStep_invariant (fun m c h => mapStep_log_mono m c h) hx calls

/-- The calls leave the registers. -/
theorem sameRegs_exec (m : Machine) (calls : List MapCall) :
    SameRegs m (exec mapStep m calls) :=
  exec_mapStep_invariant (fun m c h => h.trans (sameRegs_mapStep m c)) (SameRegs.refl m) calls

/-- What is logged stays logged over a range. -/
theorem pagerMapRange_log_mono (m : Machine) (virt phys size flags : Nat) {x : Nat}
    (hx : x ∈ m.tableLog) : x ∈ (pagerMapRange m virt phys size flags).tableLog := by
  rw [pagerMapRange_eq_exec]
  exact exec_mapStep_log_mono m _ hx

/-- A range leaves the registers. -/
theorem sameRegs_pagerMapRange (m : Machine) (virt phys size flags : Nat) :
    SameRegs m (pagerMapRange m virt phys size flags) := by
  rw [pagerMapRange_eq_exec]
  exact sameRegs_exec m _

/-- What is logged stays logged over the rest of the loop. -/
theorem pagerMapRangeLoop_log_mono (virt phys size flags fuel : Nat) (m : Machine)
    (offset : Nat) {x : Nat} (hx : x ∈ m.tableLog) :
    x ∈ (pagerMapRangeLoop virt phys size flags fuel m offset).tableLog := by
  rw [pagerMapRangeLoop_eq_exec]
  exact exec_mapStep_log_mono m _ hx

/-! ## What the allocator sees of a mapping -/

section Keeps

variable {P : Avmf → List Nat → Prop}
  (halloc : ∀ m : Machine, P m.avmf m.tableLog →
    P (allocPageTable m).m.avmf (allocPageTable m).m.tableLog)

include halloc

/-- Going down a level keeps what allocating a table keeps. -/
theorem nextTable_keeps {m : Machine} {tbl : Nat} {i : Fin 512} (h : P m.avmf m.tableLog) :
    P (nextTable m tbl i).2.avmf (nextTable m tbl i).2.tableLog := by
  by_cases he : m.mem (tableFrame tbl) i % 2 = 0
  · rw [(nextTable_of_absent he).2, setEntry_avmf, setEntry_tableLog]
    exact halloc (m.touch tbl) h
  · rw [(nextTable_of_present he).2]
    exact h

/-- Whatever memory holds, a mapping changes the allocator by page-table
    allocations only: what each of these keeps, the mapping keeps. -/
theorem pagerMap_keeps {m : Machine} {virt phys flags : Nat} (h : P m.avmf m.tableLog) :
    P (pagerMap m virt phys flags).2.avmf (pagerMap m virt phys flags).2.tableLog := by
  unfold pagerMap
  by_cases hrej : exceedsCpu m phys = true
  · rw [if_pos hrej]
    exact h
  · rw [if_neg hrej]
    have hpd : P (pageDirectory m virt).2.avmf (pageDirectory m virt).2.tableLog :=
      nextTable_keeps halloc (nextTable_keeps halloc h)
    dsimp only
    split
    · rw [setEntry_avmf, setEntry_tableLog]
      exact hpd
    · rw [setEntry_avmf, setEntry_tableLog]
      exact nextTable_keeps halloc hpd

/-- So does mapping a range. -/
theorem pagerMapRange_keeps {m : Machine} {virt phys size flags : Nat}
    (h : P m.avmf m.tableLog) :
    P (pagerMapRange m virt phys size flags).avmf
      (pagerMapRange m virt phys size flags).tableLog := by
  rw [pagerMapRange_eq_exec]
  exact exec_mapStep_invariant (I := fun m => P m.avmf m.tableLog)
    (fun m c hm => pagerMap_keeps halloc hm) h _

end Keeps

/-! ## The leaf of a page of the range -/

/-- The first page of the 2 MiB slot of page `k`, if it is a page of the
    range. -/
def rangeSlot (virt k : Nat) : Nat := k - (virt / 4096 + k) % 512

/-- Page `k` of the range is mapped by a 2 MiB leaf. -/
structure RangeHuge (virt phys size k : Nat) : Prop where
  virtPage : virt % 4096 = 0
  physPage : phys % 4096 = 0
  congruent : virt / 4096 % 512 = phys / 4096 % 512
  starts : (virt / 4096 + k) % 512 ≤ k
  fits : 4096 * rangeSlot virt k + 0x200000 ≤ size

theorem rangeHuge_iff {virt phys size k : Nat} :
    RangeHuge virt phys size k ↔
      virt % 4096 = 0 ∧ phys % 4096 = 0 ∧ virt / 4096 % 512 = phys / 4096 % 512 ∧
        (virt / 4096 + k) % 512 ≤ k ∧ 4096 * rangeSlot virt k + 0x200000 ≤ size :=
  ⟨fun h => ⟨h.1, h.2, h.3, h.4, h.5⟩, fun h => ⟨h.1, h.2.1, h.2.2.1, h.2.2.2.1, h.2.2.2.2⟩⟩

instance (virt phys size k : Nat) : Decidable (RangeHuge virt phys size k) :=
  decidable_of_iff' _ rangeHuge_iff

/-- The leaf that page `k` of the range gets, with its level. -/
def rangeLeaf (virt phys size flags k : Nat) : Nat × Nat :=
  if RangeHuge virt phys size k
    then (1, hugeEntry (phys + 4096 * rangeSlot virt k) (flags ||| pageHuge))
    else (0, pageEntry (phys + 4096 * k) flags)

/-- The whole slot of a huge-mapped page lies in the range. -/
theorem RangeHuge.slot {virt phys size k : Nat} (h : RangeHuge virt phys size k) {k' : Nat}
    (hk' : (virt / 4096 + k') / 512 = (virt / 4096 + k) / 512) :
    RangeHuge virt phys size k' ∧ rangeSlot virt k' = rangeSlot virt k ∧ 4096 * k' < size := by
  have h4 := h.starts
  have h5 := h.fits
  unfold rangeSlot at h5
  have hslot : rangeSlot virt k' = rangeSlot virt k := by
    unfold rangeSlot
    omega
  have hfits : 4096 * rangeSlot virt k' + 0x200000 ≤ size := by
    rw [hslot]; exact h.fits
  exact ⟨⟨h.virtPage, h.physPage, h.congruent, by omega, hfits⟩, hslot, by omega⟩

/-- What the arguments of a range call must satisfy for its page-wise
    description: no sum wraps, no call is rejected, and the caller does not
    ask for 2 MiB leaves itself. -/
structure RangeArgs (m : Machine) (virt phys size flags : Nat) : Prop where
  bits : m.cpuPhysBits ≤ 52
  congruent : virt % 4096 = phys % 4096
  virtEnd : virt + size ≤ 2 ^ 64
  physEnd : phys + size ≤ 2 ^ m.cpuPhysBits
  length : size ≤ 2 ^ 48
  small : flags / 128 % 2 = 0

/-- The arguments are right as long as the registers stay. -/
theorem RangeArgs.of_sameRegs {m m' : Machine} {virt phys size flags : Nat}
    (h : RangeArgs m virt phys size flags) (hregs : SameRegs m m') :
    RangeArgs m' virt phys size flags := by
  have hb := hregs.cpuPhysBits
  exact ⟨by rw [hb]; exact h.bits, h.congruent, h.virtEnd, by rw [hb]; exact h.physEnd,
    h.length, h.small⟩

/-- The frames of the range fit in an entry. -/
theorem RangeArgs.physWord {m : Machine} {virt phys size flags : Nat}
    (h : RangeArgs m virt phys size flags) : phys + size ≤ 2 ^ 52 :=
  Nat.le_trans h.physEnd (Nat.pow_le_pow_right (by decide) h.bits)

/-- No call of the range is rejected. -/
theorem RangeArgs.accepted {m : Machine} {virt phys size flags : Nat}
    (h : RangeArgs m virt phys size flags) {k : Nat} (hk : 4096 * k < size) :
    exceedsCpu m (phys + 4096 * k) = false := by
  have hword := h.physWord
  have hend := h.physEnd
  rw [exceedsCpu_eq h.bits (by omega), decide_eq_false_iff_not]
  omega

/-- The leaf of page `k` gives an address of the page its place in the
    physical page. -/
theorem leafAddress_rangeLeaf {virt phys size k a : Nat} (flags : Nat)
    (hend : phys + size ≤ 2 ^ 52) (hk : 4096 * k < size) (ha : a / 4096 = virt / 4096 + k) :
    leafAddress (rangeLeaf virt phys size flags k).1 (rangeLeaf virt phys size flags k).2 a
      = 4096 * (phys / 4096 + k) + a % 4096 := by
  unfold rangeLeaf leafAddress
  by_cases hhuge : RangeHuge virt phys size k
  · have hphys := hhuge.physPage
    have hcong := hhuge.congruent
    have hstarts := hhuge.starts
    rw [if_pos hhuge]
    unfold rangeSlot
    rw [hugeEntry_eq _ (by omega)]
    show (_ % 2 ^ 52 / 2 ^ 21 * 2 ^ 21 + _ % 2 ^ 21 : Nat) = _
    omega
  · rw [if_neg hhuge, pageEntry_eq _ (by omega)]
    show (_ % 2 ^ 52 / 2 ^ 12 * 2 ^ 12 + _ % 2 ^ 12 : Nat) = _
    omega

/-! ## The loop -/

/-- The effect of the range from page `k` on. -/
structure MappedFrom (m : Machine) (virt phys size flags k : Nat) (m' : Machine) : Prop where
  ok : TablesOk m'
  inside : ∀ k', k ≤ k' → 4096 * k' < size →
    walkPage m'.mem m.root (virt / 4096 + k') = some (rangeLeaf virt phys size flags k')
  outside : ∀ n, (∀ k', k ≤ k' → 4096 * k' < size →
      n % 2 ^ 36 ≠ (virt / 4096 + k') % 2 ^ 36) →
    walkPage m'.mem m.root n = walkPage m.mem m.root n

section Loop

variable {m : Machine} {virt phys size flags k : Nat}

/-- Two pages of the range have different keys. -/
theorem range_page_ne (hargs : RangeArgs m virt phys size flags) {k k' : Nat} (hkk' : k < k')
    (hk' : 4096 * k' < size) :
    (virt / 4096 + k') % 2 ^ 36 ≠ (virt / 4096 + k) % 2 ^ 36 := by
  have hlen := hargs.length
  omega

/-- A step maps page `k` by a 4 KiB leaf. -/
theorem mappedFrom_page (hargs : RangeArgs m virt phys size flags) (hok : TablesOk m)
    (hk : 4096 * k < size) (hnot : ¬ RangeHuge virt phys size k)
    (hsmall : hugeAt m.mem m.root (virt / 4096 + k) = false) {m' : Machine}
    (hlog : TablesGranted (pagerMap m (virt + 4096 * k) (phys + 4096 * k) flags).2)
    (hrest : MappedFrom (pagerMap m (virt + 4096 * k) (phys + 4096 * k) flags).2
      virt phys size flags (k + 1) m') :
    MappedFrom m virt phys size flags k m' := by
  have hword := hargs.physWord
  have hpage : (virt + 4096 * k) / 4096 = virt / 4096 + k := by omega
  have hregs := sameRegs_pagerMap m (virt + 4096 * k) (phys + 4096 * k) flags
  obtain ⟨-, hwalk⟩ := pagerMap_page hok (hargs.accepted hk) (by omega) hargs.small
    (by rw [hpage]; exact hsmall) hlog
  rw [hpage] at hwalk
  have hin := hrest.inside
  have hout := hrest.outside
  rw [hregs.root] at hin hout
  refine ⟨hrest.ok, ?_, ?_⟩
  · intro k' hk' hlt
    rcases Nat.eq_or_lt_of_le hk' with rfl | hgt
    · rw [hout _ (fun k'' hk'' hlt'' => (range_page_ne hargs hk'' hlt'').symm), hwalk,
        if_pos rfl]
      unfold rangeLeaf
      rw [if_neg hnot]
    · exact hin k' hgt hlt
  · intro n hn
    rw [hout n (fun k' hk' hlt => hn k' (by omega) hlt), hwalk,
      if_neg (hn k (Nat.le_refl k) hk)]

/-- A step maps the slot that starts at page `k` by a 2 MiB leaf. -/
theorem mappedFrom_slot (hargs : RangeArgs m virt phys size flags) (hok : TablesOk m)
    (hhuge : RangeHuge virt phys size k) (hstart : (virt / 4096 + k) % 512 = 0) {m' : Machine}
    (hlog : TablesGranted
      (pagerMap m (virt + 4096 * k) (phys + 4096 * k) (flags ||| pageHuge)).2)
    (hrest : MappedFrom (pagerMap m (virt + 4096 * k) (phys + 4096 * k) (flags ||| pageHuge)).2
      virt phys size flags (k + 512) m') :
    MappedFrom m virt phys size flags k m' := by
  have hword := hargs.physWord
  have hlen := hargs.length
  have hfits := hhuge.fits
  have hslot : rangeSlot virt k = k := by
    unfold rangeSlot
    omega
  rw [hslot] at hfits
  have hpage : (virt + 4096 * k) / 4096 = virt / 4096 + k := by omega
  have hregs := sameRegs_pagerMap m (virt + 4096 * k) (phys + 4096 * k) (flags ||| pageHuge)
  obtain ⟨-, hwalk⟩ := pagerMap_huge hok (hargs.accepted (k := k) (by omega)) (by omega)
    (or_huge_bit flags) hlog
  rw [hpage] at hwalk
  have hin := hrest.inside
  have hout := hrest.outside
  rw [hregs.root] at hin hout
  refine ⟨hrest.ok, ?_, ?_⟩
  · intro k' hk' hlt
    by_cases hgt : k + 512 ≤ k'
    · exact hin k' hgt hlt
    · have hsame : (virt / 4096 + k') / 512 = (virt / 4096 + k) / 512 := by omega
      obtain ⟨hhuge', hslot', -⟩ := hhuge.slot hsame
      rw [hout _ (fun k'' hk'' hlt'' => (range_page_ne hargs (by omega) hlt'').symm), hwalk,
        if_pos (by omega)]
      unfold rangeLeaf
      rw [if_pos hhuge', hslot', hslot]
  · intro n hn
    rw [hout n (fun k' hk' hlt => hn k' (by omega) hlt), hwalk, if_neg]
    intro hc
    -- the page of `n` in the slot would be a page of the range
    refine hn (k + n % 512) (by omega) (by omega) ?_
    omega

/-- One turn of the loop, where `k` does not stand strictly inside a slot that
    a 2 MiB leaf maps. -/
theorem pagerMapRangeLoop_step {fuel : Nat} (hargs : RangeArgs m virt phys size flags)
    (hfront : RangeHuge virt phys size k → (virt / 4096 + k) % 512 = 0) (hk : 4096 * k < size) :
    pagerMapRangeLoop virt phys size flags (fuel + 1) m (4096 * k)
      = if RangeHuge virt phys size k then
          pagerMapRangeLoop virt phys size flags fuel
            (pagerMap m (virt + 4096 * k) (phys + 4096 * k) (flags ||| pageHuge)).2
            (4096 * (k + 512))
        else
          pagerMapRangeLoop virt phys size flags fuel
            (pagerMap m (virt + 4096 * k) (phys + 4096 * k) flags).2 (4096 * (k + 1)) := by
  have hlen := hargs.length
  have hword := hargs.physWord
  have hvend := hargs.virtEnd
  simp only [pagerMapRangeLoop]
  rw [if_pos hk, add64_of_lt (a := virt) (by omega), add64_of_lt (a := phys) (by omega)]
  by_cases hr : RangeHuge virt phys size k
  · have hstart := hfront hr
    have hfits := hr.fits
    have h1 := hr.virtPage
    have h2 := hr.physPage
    have h3 := hr.congruent
    unfold rangeSlot at hfits
    rw [if_pos hr, if_pos (by omega), add64_of_lt (by omega),
      show 4096 * k + 0x200000 = 4096 * (k + 512) by omega]
  · have hno : ¬ (0x200000 ≤ size - 4096 * k ∧ (virt + 4096 * k) % 0x200000 = 0 ∧
        (phys + 4096 * k) % 0x200000 = 0) := by
      intro hc
      have hslot : rangeSlot virt k = k := by
        unfold rangeSlot
        omega
      exact hr ⟨by omega, by omega, by omega, by omega, by rw [hslot]; omega⟩
    rw [if_neg hr, if_neg hno, add64_of_lt (a := 4096 * k) (by simp only [pageSize]; omega),
      show 4096 * k + pageSize = 4096 * (k + 1) by simp only [pageSize]; omega]

/-- The slot of page `k + 1` starts there, or is the slot of page `k`. -/
theorem rangeHuge_next (hnot : ¬ RangeHuge virt phys size k)
    (hr : RangeHuge virt phys size (k + 1)) : (virt / 4096 + (k + 1)) % 512 = 0 := by
  by_contra hne
  have hstart := hr.starts
  exact hnot (hr.slot (by omega)).1

/-- Mapping page `k` makes no later page of the range huge. -/
theorem small_after_page (hargs : RangeArgs m virt phys size flags) {m' : Machine}
    (hwalk : ∀ n, walkPage m'.mem m.root n
      = if n % 2 ^ 36 = (virt / 4096 + k) % 2 ^ 36 then some (0, pageEntry (phys + 4096 * k) flags)
        else walkPage m.mem m.root n)
    (hsmall : ∀ k', k ≤ k' → 4096 * k' < size →
      hugeAt m.mem m.root (virt / 4096 + k') = false) {k' : Nat} (hk' : k + 1 ≤ k')
    (hlt : 4096 * k' < size) : hugeAt m'.mem m.root (virt / 4096 + k') = false := by
  have hother := hwalk (virt / 4096 + k')
  rw [if_neg (range_page_ne hargs hk' hlt)] at hother
  rw [hugeAt_congr hother]
  exact hsmall k' (by omega) hlt

/-- Mapping the slot at page `k` makes no page of the range beyond it huge. -/
theorem small_after_slot (hargs : RangeArgs m virt phys size flags)
    (hstart : (virt / 4096 + k) % 512 = 0) {m' : Machine} {e : Nat}
    (hwalk : ∀ n, walkPage m'.mem m.root n
      = if n / 512 % 2 ^ 27 = (virt / 4096 + k) / 512 % 2 ^ 27 then some (1, e)
        else walkPage m.mem m.root n)
    (hsmall : ∀ k', k ≤ k' → 4096 * k' < size →
      hugeAt m.mem m.root (virt / 4096 + k') = false) {k' : Nat} (hk' : k + 512 ≤ k')
    (hlt : 4096 * k' < size) : hugeAt m'.mem m.root (virt / 4096 + k') = false := by
  have hlen := hargs.length
  have hother := hwalk (virt / 4096 + k')
  rw [if_neg (by omega)] at hother
  rw [hugeAt_congr hother]
  exact hsmall k' (by omega) hlt

/-- The loop from page `k` on.  The induction is on the turns left. -/
theorem pagerMapRangeLoop_mapped {fuel : Nat} (hargs : RangeArgs m virt phys size flags)
    (hok : TablesOk m) (hfront : RangeHuge virt phys size k → (virt / 4096 + k) % 512 = 0)
    (hfuel : size ≤ 4096 * (k + fuel))
    (hsmall : ∀ k', k ≤ k' → 4096 * k' < size →
      hugeAt m.mem m.root (virt / 4096 + k') = false)
    (hlog : TablesGranted (pagerMapRangeLoop virt phys size flags fuel m (4096 * k))) :
    MappedFrom m virt phys size flags k
      (pagerMapRangeLoop virt phys size flags fuel m (4096 * k)) := by
  induction fuel generalizing m k with
  | zero =>
      exact ⟨hok, fun k' hk' hlt => absurd hlt (by omega), fun n _ => rfl⟩
  | succ fuel ih =>
      by_cases hk : 4096 * k < size
      · have hword := hargs.physWord
        have hpage : (virt + 4096 * k) / 4096 = virt / 4096 + k := by omega
        have hmono : ∀ (m₁ : Machine) (off : Nat), TablesGranted
            (pagerMapRangeLoop virt phys size flags fuel m₁ off) → TablesGranted m₁ :=
          fun m₁ off h => h.of_mono
            (fun x hx => pagerMapRangeLoop_log_mono virt phys size flags fuel m₁ off hx)
        rw [pagerMapRangeLoop_step hargs hfront hk] at hlog ⊢
        by_cases hr : RangeHuge virt phys size k
        · rw [if_pos hr] at hlog ⊢
          have hlog1 := hmono _ _ hlog
          have hregs := sameRegs_pagerMap m (virt + 4096 * k) (phys + 4096 * k)
            (flags ||| pageHuge)
          obtain ⟨hok1, hwalk⟩ := pagerMap_huge hok (hargs.accepted hk) (by omega)
            (or_huge_bit flags) hlog1
          rw [hpage] at hwalk
          have hstart := hfront hr
          refine mappedFrom_slot hargs hok hr hstart hlog1
            (ih (hargs.of_sameRegs hregs) hok1 (fun _ => by omega) (by omega) ?_ hlog)
          intro k' hk' hlt
          rw [hregs.root]
          exact small_after_slot hargs hstart hwalk hsmall hk' hlt
        · rw [if_neg hr] at hlog ⊢
          have hlog1 := hmono _ _ hlog
          have hregs := sameRegs_pagerMap m (virt + 4096 * k) (phys + 4096 * k) flags
          have hfirst := hsmall k (Nat.le_refl k) hk
          obtain ⟨hok1, hwalk⟩ := pagerMap_page hok (hargs.accepted hk) (by omega) hargs.small
            (by rw [hpage]; exact hfirst) hlog1
          rw [hpage] at hwalk
          refine mappedFrom_page hargs hok hk hr hfirst hlog1
            (ih (hargs.of_sameRegs hregs) hok1 (rangeHuge_next hr) (by omega) ?_ hlog)
          intro k' hk' hlt
          rw [hregs.root]
          exact small_after_page hargs hwalk hsmall hk' hlt
      · simp only [pagerMapRangeLoop]
        rw [if_neg hk]
        exact ⟨hok, fun k' hk' hlt => absurd hlt (by omega), fun n _ => rfl⟩

/-- `pager_map_range`, page by page. -/
theorem pagerMapRange_mapped (hargs : RangeArgs m virt phys size flags) (hok : TablesOk m)
    (hsmall : ∀ k, 4096 * k < size → hugeAt m.mem m.root (virt / 4096 + k) = false)
    (hlog : TablesGranted (pagerMapRange m virt phys size flags)) :
    MappedFrom m virt phys size flags 0 (pagerMapRange m virt phys size flags) := by
  unfold pagerMapRange at hlog ⊢
  refine pagerMapRangeLoop_mapped (k := 0) hargs hok ?_ ?_ (fun k _ hk => hsmall k hk) hlog
  · intro hr
    have hstart := hr.starts
    omega
  · simp only [pageSize]
    omega

/-- Every address of the pages of the range is translated to its place in the
    physical page. -/
theorem MappedFrom.page {m' : Machine} (h : MappedFrom m virt phys size flags 0 m')
    (hargs : RangeArgs m virt phys size flags) {a : Nat} (hk : 4096 * k < size)
    (ha : a / 4096 = virt / 4096 + k) :
    (hwWalk m'.mem m.root a).map Prod.fst = some (4096 * (phys / 4096 + k) + a % 4096) := by
  unfold hwWalk
  rw [show a / pageSize = virt / 4096 + k from ha, h.inside k (Nat.zero_le k) hk]
  exact congrArg some (leafAddress_rangeLeaf flags hargs.physWord hk ha)

/-- In an aligned range that is its place in the physical range. -/
theorem MappedFrom.address {m' : Machine} (h : MappedFrom m virt phys size flags 0 m')
    (hargs : RangeArgs m virt phys size flags) (hvirt : virt % 4096 = 0) {a : Nat}
    (hlo : virt ≤ a) (hhi : 4096 * ((a - virt) / 4096) < size) :
    (hwWalk m'.mem m.root a).map Prod.fst = some (phys + (a - virt)) := by
  have hphys := hargs.congruent
  rw [h.page hargs hhi (by omega)]
  exact congrArg some (by omega)

/-- A page is one of the range, or as it was. -/
theorem MappedFrom.cases {m' : Machine} (h : MappedFrom m virt phys size flags 0 m') (n : Nat) :
    (∃ k, 4096 * k < size ∧ n % 2 ^ 36 = (virt / 4096 + k) % 2 ^ 36 ∧
      walkPage m'.mem m.root n = some (rangeLeaf virt phys size flags k)) ∨
      walkPage m'.mem m.root n = walkPage m.mem m.root n := by
  by_cases hn : ∃ k, 4096 * k < size ∧ n % 2 ^ 36 = (virt / 4096 + k) % 2 ^ 36
  · obtain ⟨k, hk, hkey⟩ := hn
    left
    refine ⟨k, hk, hkey, ?_⟩
    have hin := h.inside k (Nat.zero_le k) hk
    unfold walkPage at hin ⊢
    rw [pagePath_congr hkey]
    exact hin
  · right
    exact h.outside n (fun k _ hk hkey => hn ⟨k, hk, hkey⟩)

/-- A page that is mapped by a 2 MiB leaf is one of those of the range, or was
    so before. -/
theorem MappedFrom.huge_cases {m' : Machine} (h : MappedFrom m virt phys size flags 0 m')
    {n : Nat} (hn : hugeAt m'.mem m.root n = true) :
    (∃ k, RangeHuge virt phys size k ∧ n % 2 ^ 36 = (virt / 4096 + k) % 2 ^ 36) ∨
      hugeAt m.mem m.root n = true := by
  rcases h.cases n with ⟨k, -, hkey, hleaf⟩ | hsame
  · left
    refine ⟨k, ?_, hkey⟩
    obtain ⟨e, he⟩ := hugeAt_iff.mp hn
    rw [hleaf] at he
    by_contra hno
    unfold rangeLeaf at he
    rw [if_neg hno] at he
    cases (Prod.mk.inj (Option.some.inj he)).1
  · right
    rw [hugeAt_congr hsame] at hn
    exact hn

end Loop

end Pfi
