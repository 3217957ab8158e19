import Pfi.Rights
import Pfi.Supply
import Pfi.Walk

/-! # Huge pages as an optimisation

    `pager_map_range` against the loop that it replaces, one `pager_map` for
    each 4 KiB page of the range.  Both sides are described by the leaf that
    they give to a page: the range by `rangeLeaf`, the loop by the leaf of the
    page's own call, which is the last one that covers it
    (`pageCalls_walk`).  The two leaves differ in level and in bit 7, and
    give every address of the page the same access (`rangeLeaf_access`); the
    pages outside the range keep their leaves on both sides
    (`range_refines_pages`). -/

namespace Pfi

open Words RadixTable Run Walk

/-! ## The loop of `pager_map_range` ends -/

/-- One turn of the loop, on the machine and the offset. -/
def rangeTurn (virt phys size flags : Nat) (s : Machine × Nat) : Machine × Nat :=
  if 0x200000 ≤ size - s.2 ∧ add64 virt s.2 % 0x200000 = 0 ∧ add64 phys s.2 % 0x200000 = 0 then
    ((pagerMap s.1 (add64 virt s.2) (add64 phys s.2) (flags ||| pageHuge)).2,
      add64 s.2 0x200000)
  else ((pagerMap s.1 (add64 virt s.2) (add64 phys s.2) flags).2, add64 s.2 pageSize)

/-- The loop, not bounded by fuel, ends in the state that the bounded one
    gives.  The induction is on the turns left. -/
theorem rangeTurn_ends {virt phys size : Nat} (flags : Nat) (hsize : size ≤ 2 ^ 64 - 4096)
    (fuel : Nat) (m : Machine) {offset : Nat} (hfuel : size ≤ offset + 4096 * fuel) :
    ∃ n, EndsAfter (fun s => s.2 < size) (rangeTurn virt phys size flags) (m, offset) n ∧
      ((rangeTurn virt phys size flags)^[n] (m, offset)).1
        = pagerMapRangeLoop virt phys size flags fuel m offset := by
  induction fuel generalizing m offset with
  | zero => exact ⟨0, endsAfter_zero.mpr (show ¬ offset < size by omega), rfl⟩
  | succ fuel ih =>
      simp only [pagerMapRangeLoop]
      by_cases hlt : offset < size
      · rw [if_pos hlt]
        by_cases hslot : 0x200000 ≤ size - offset ∧ add64 virt offset % 0x200000 = 0 ∧
            add64 phys offset % 0x200000 = 0
        · have hturn : rangeTurn virt phys size flags (m, offset)
              = ((pagerMap m (add64 virt offset) (add64 phys offset) (flags ||| pageHuge)).2,
                add64 offset 0x200000) := if_pos hslot
          rw [if_pos hslot]
          obtain ⟨n, hends, hres⟩ := @ih
            (pagerMap m (add64 virt offset) (add64 phys offset) (flags ||| pageHuge)).2
            (add64 offset 0x200000) (by rw [add64_of_lt (by omega)]; omega)
          rw [← hturn] at hends hres
          exact ⟨n + 1, endsAfter_succ.mpr ⟨hlt, hends⟩, hres⟩
        · have hturn : rangeTurn virt phys size flags (m, offset)
              = ((pagerMap m (add64 virt offset) (add64 phys offset) flags).2,
                add64 offset pageSize) := if_neg hslot
          rw [if_neg hslot]
          obtain ⟨n, hends, hres⟩ := @ih
            (pagerMap m (add64 virt offset) (add64 phys offset) flags).2
            (add64 offset pageSize)
            (by rw [add64_of_lt (by simp only [pageSize]; omega)]; simp only [pageSize]; omega)
          rw [← hturn] at hends hres
          exact ⟨n + 1, endsAfter_succ.mpr ⟨hlt, hends⟩, hres⟩
      · rw [if_neg hlt]
        exact ⟨0, endsAfter_zero.mpr hlt, rfl⟩

/-- Every range that does not come within a page of `2 ^ 64` bytes ends. -/
theorem pagerMapRange_ends (m : Machine) {virt phys size : Nat} (flags : Nat)
    (hsize : size ≤ 2 ^ 64 - 4096) :
    ∃ n, EndsAfter (fun s => s.2 < size) (rangeTurn virt phys size flags) (m, 0) n ∧
      ((rangeTurn virt phys size flags)^[n] (m, 0)).1 = pagerMapRange m virt phys size flags := by
  refine rangeTurn_ends flags hsize _ m ?_
  simp only [pageSize]
  omega

/-! ## One call for each page -/

/-- `pager_map` once for each 4 KiB page of the range. -/
def pageCalls (virt phys size flags : Nat) : List MapCall :=
  (List.range ((size + 4095) / 4096)).map
    (fun k => ⟨add64 virt (4096 * k), add64 phys (4096 * k), flags⟩)

/-- A history gives an address the leaf of a call that covers it when every
    other call that covers it is that same call. -/
theorem lastCovering_of_unique {bits : Nat} {calls : List MapCall} {a : Nat} {c : MapCall}
    (hc : c ∈ calls) (hphys : c.phys < 2 ^ bits) (hcov : c.Covers a)
    (hsame : ∀ c' ∈ calls, c'.Covers a → c' = c) : lastCovering bits calls a = some c := by
  cases hlast : lastCovering bits calls a with
  | none =>
      unfold lastCovering at hlast
      have hno := List.find?_eq_none.mp hlast c (List.mem_reverse.mpr hc)
      rw [decide_eq_true_eq] at hno
      exact absurd ⟨hphys, hcov⟩ hno
  | some c' =>
      obtain ⟨hmem, -, hcov'⟩ := lastCovering_mem hlast
      rw [hsame c' hmem hcov']

/-- An address that no call covers has no last call. -/
theorem lastCovering_of_none {bits : Nat} {calls : List MapCall} {a : Nat}
    (h : ∀ c ∈ calls, ¬ c.Covers a) : lastCovering bits calls a = none := by
  cases hlast : lastCovering bits calls a with
  | none => rfl
  | some c =>
      obtain ⟨hmem, -, hcov⟩ := lastCovering_mem hlast
      exact absurd hcov (h c hmem)

section Pages

variable {m : Machine} {virt phys size flags : Nat}

/-- The call of page `k`. -/
def pageCall (virt phys flags k : Nat) : MapCall := ⟨virt + 4096 * k, phys + 4096 * k, flags⟩

/-- The range starts at pages, its addresses are canonical, and it lies below
    the processor's limit. -/
structure PageRange (m : Machine) (virt phys size : Nat) : Prop where
  bits : m.cpuPhysBits ≤ 52
  virtPage : virt % 4096 = 0
  physPage : phys % 4096 = 0
  virtEnd : virt + size ≤ 2 ^ 64
  canonical : ∀ a, virt ≤ a → a < virt + size → Canonical a
  physEnd : phys + size ≤ 2 ^ m.cpuPhysBits

/-- A range of canonical addresses does not cross the gap between them. -/
theorem canonical_length (hcanon : ∀ a, virt ≤ a → a < virt + size → Canonical a) :
    size ≤ 2 ^ 47 := by
  by_contra hc
  have hfirst := hcanon virt (Nat.le_refl _) (by omega)
  have hlast := hcanon (virt + (size - 1)) (by omega) (by omega)
  have hmid := hcanon (virt + 2 ^ 47) (by omega) (by omega)
  unfold Canonical at hfirst hlast hmid
  omega

/-- The range is no longer than one half of the addresses. -/
theorem PageRange.length (h : PageRange m virt phys size) : size ≤ 2 ^ 47 :=
  canonical_length h.canonical

/-- Such a range is one that `pager_map_range` is given. -/
theorem PageRange.args (h : PageRange m virt phys size) (hsmall : flags / 128 % 2 = 0) :
    RangeArgs m virt phys size flags := by
  have hv := h.virtPage
  have hp := h.physPage
  have hlen := h.length
  exact ⟨h.bits, by omega, h.virtEnd, h.physEnd, by omega, hsmall⟩

/-- The frames of the range fit in an entry. -/
theorem PageRange.physWord (h : PageRange m virt phys size) : phys + size ≤ 2 ^ 52 :=
  Nat.le_trans h.physEnd (Nat.pow_le_pow_right (by decide) h.bits)

/-- Mapped page by page there is no large page. -/
theorem pageCall_not_huge (hflags : flags / 128 % 2 = 0) (k : Nat) :
    ¬ (pageCall virt phys flags k).Huge := by
  intro hc
  have hbit := (and_huge_ne flags).mp hc
  omega

/-- Each of these calls covers its own page. -/
theorem pageCall_covers (hflags : flags / 128 % 2 = 0) {k a : Nat} :
    (pageCall virt phys flags k).Covers a ↔ virt + 4096 * k ≤ a ∧ a < virt + 4096 * k + 4096 := by
  unfold MapCall.Covers MapCall.bytes
  rw [if_neg (pageCall_not_huge hflags k)]
  exact Iff.rfl

/-- The calls of the range are those of its pages. -/
theorem PageRange.mem_pageCalls (h : PageRange m virt phys size) {c : MapCall} :
    c ∈ pageCalls virt phys size flags ↔
      ∃ k, 4096 * k < size ∧ c = pageCall virt phys flags k := by
  have hlen := h.length
  have hvend := h.virtEnd
  have hword := h.physWord
  have hcall : ∀ k, 4096 * k < size →
      (⟨add64 virt (4096 * k), add64 phys (4096 * k), flags⟩ : MapCall)
        = pageCall virt phys flags k := by
    intro k hk
    rw [add64_of_lt (by omega), add64_of_lt (by omega)]
    rfl
  unfold pageCalls
  rw [List.mem_map]
  constructor
  · rintro ⟨k, hk, rfl⟩
    have hlt : 4096 * k < size := by
      have := List.mem_range.mp hk
      omega
    exact ⟨k, hlt, hcall k hlt⟩
  · rintro ⟨k, hk, rfl⟩
    exact ⟨k, List.mem_range.mpr (by omega), hcall k hk⟩

/-- Each of them is aligned. -/
theorem PageRange.aligned (h : PageRange m virt phys size) (hflags : flags / 128 % 2 = 0) {k : Nat}
    (hk : 4096 * k < size) : (pageCall virt phys flags k).Aligned := by
  have hword := h.physWord
  have hv := h.virtPage
  have hp := h.physPage
  have hbytes : (pageCall virt phys flags k).bytes = 4096 := if_neg (pageCall_not_huge hflags k)
  refine ⟨h.canonical _ (Nat.le_add_right _ _) (Nat.add_lt_add_left hk virt), ?_, ?_, ?_⟩
  · show phys + 4096 * k < 2 ^ 64
    omega
  · rw [hbytes]
    show (virt + 4096 * k) % 4096 = 0
    omega
  · rw [hbytes]
    show (phys + 4096 * k) % 4096 = 0
    omega

/-- The calls give the pages of the range their leaves, and leave the other
    pages alone. -/
theorem pageCalls_walk (h : PageRange m virt phys size) (hflags : flags / 128 % 2 = 0)
    (hok : TablesOk m)
    (hsmall : ∀ k, 4096 * k < size → hugeAt m.mem m.root (virt / 4096 + k) = false)
    (hlog : TablesGranted (exec mapStep m (pageCalls virt phys size flags))) :
    TablesOk (exec mapStep m (pageCalls virt phys size flags)) ∧
      (∀ k a, 4096 * k < size → virt + 4096 * k ≤ a → a < virt + 4096 * k + 4096 → Canonical a →
        walkPage (exec mapStep m (pageCalls virt phys size flags)).mem m.root (a / pageSize)
          = some (0, pageEntry (phys + 4096 * k) flags)) ∧
      ∀ a, Canonical a → (∀ k, 4096 * k < size →
          ¬ (virt + 4096 * k ≤ a ∧ a < virt + 4096 * k + 4096)) →
        walkPage (exec mapStep m (pageCalls virt phys size flags)).mem m.root (a / pageSize)
          = walkPage m.mem m.root (a / pageSize) := by
  have hv := h.virtPage
  have haligned : ∀ c ∈ pageCalls virt phys size flags, c.Aligned := by
    intro c hc
    obtain ⟨k, hk, rfl⟩ := h.mem_pageCalls.mp hc
    exact h.aligned hflags hk
  have hgranted := (along_granted hlog).2
  -- no call is for 2 MiB, so none makes a slot huge for a later one
  have hsplits : Along mapStep (fun m c => ¬ c.SplitsHuge m) m
      (pageCalls virt phys size flags) := by
    refine along_not_splitsHuge hok h.bits haligned ?_ ?_ hgranted
    · intro c hc _
      obtain ⟨k, hk, rfl⟩ := h.mem_pageCalls.mp hc
      have hpage : (pageCall virt phys flags k).virt / pageSize = virt / 4096 + k := by
        show (virt + 4096 * k) / 4096 = virt / 4096 + k
        omega
      rw [hpage]
      exact hsmall k hk
    · refine List.pairwise_of_forall_mem_list (fun c hc c' _ hhuge _ => ?_)
      obtain ⟨k, -, rfl⟩ := h.mem_pageCalls.mp hc
      exact absurd hhuge (pageCall_not_huge hflags k)
  obtain ⟨hok', hwalk⟩ := walkPage_exec hok h.bits haligned hsplits hgranted
  refine ⟨hok', ?_, ?_⟩
  · intro k a hk hlo hhi ha
    have hphys : (pageCall virt phys flags k).phys < 2 ^ m.cpuPhysBits := by
      have hend := h.physEnd
      show phys + 4096 * k < 2 ^ m.cpuPhysBits
      omega
    have hlast := lastCovering_of_unique (h.mem_pageCalls.mpr ⟨k, hk, rfl⟩) hphys
      ((pageCall_covers hflags).mpr ⟨hlo, hhi⟩) (fun c' hc' hcov => by
        obtain ⟨k', -, rfl⟩ := h.mem_pageCalls.mp hc'
        have hcov' := (pageCall_covers hflags).mp hcov
        rw [show k' = k by omega])
    rw [hwalk a ha, hlast, Option.map_some, Option.some_or]
    unfold MapCall.leaf
    rw [if_neg (pageCall_not_huge hflags k)]
    rfl
  · intro a ha hout
    rw [hwalk a ha, lastCovering_of_none, Option.map_none, Option.none_or]
    intro c hc hcov
    obtain ⟨k, hk, rfl⟩ := h.mem_pageCalls.mp hc
    exact hout k hk ((pageCall_covers hflags).mp hcov)

/-- The calls take three tables a slot at most, as the range call does.  The
    induction is on the pages left. -/
theorem exec_pageCalls_budget {N : Nat} (hword : phys + size ≤ 2 ^ 52)
    (hvirt : virt + size ≤ 2 ^ 64) (n : Nat) {m : Machine} {k : Nat}
    (h : RangeBudget m virt phys size flags N k)
    (hn : ∀ i, i < n → 4096 * (k + i) < size) :
    RangeBudget (exec mapStep m ((List.range' k n).map
      (fun i => ⟨add64 virt (4096 * i), add64 phys (4096 * i), flags⟩)))
      virt phys size flags N (k + n) := by
  induction n generalizing m k with
  | zero => exact h
  | succ n ih =>
      have hk : 4096 * k < size := hn 0 (Nat.succ_pos n)
      have hnext := h.page hk
      rw [List.range'_succ, List.map_cons, exec_cons, show k + (n + 1) = k + 1 + n by omega]
      refine ih ?_ (fun i hi => ?_)
      · show RangeBudget (pagerMap m (add64 virt (4096 * k)) (add64 phys (4096 * k)) flags).2 _ _ _
          _ _ _
        rw [add64_of_lt (by omega), add64_of_lt (by omega)]
        exact hnext
      · have hlast := hn (i + 1) (Nat.succ_lt_succ hi)
        omega

/-- Enough memory for the range call is enough for the calls. -/
theorem pageCalls_granted {N : Nat} (hargs : RangeArgs m virt phys size flags)
    (hok : TablesOk m)
    (hsmall : ∀ k, 4096 * k < size → hugeAt m.mem m.root (virt / 4096 + k) = false)
    (hstock : Stocked N m.avmf m.tableLog)
    (hroom : m.tableLog.length + 3 * slotsLeft virt size 0 ≤ N) :
    TablesGranted (exec mapStep m (pageCalls virt phys size flags)) := by
  have hstart : RangeBudget m virt phys size flags N 0 :=
    ⟨hargs, hok, fun k _ hk => hsmall k hk, hstock, by omega, Or.inl hroom⟩
  have hend := exec_pageCalls_budget hargs.physWord hargs.virtEnd ((size + 4095) / 4096) hstart
    (fun i hi => by omega)
  rw [← List.range_eq_range'] at hend
  exact (hend.stock hend.le).1

/-! ## The same accesses -/

/-- The leaf of a page of the range gives its addresses the access that the
    flags ask for, at their place in the physical page. -/
theorem rangeLeaf_access (h : PageRange m virt phys size) (hflags : flags / 128 % 2 = 0)
    {k a : Nat} (hk : 4096 * k < size) (ha : a / 4096 = virt / 4096 + k) :
    linkedAccess a (rangeLeaf virt phys size flags k)
      = flagsAccess flags (4096 * (phys / 4096 + k) + a % 4096) := by
  have hword := h.physWord
  rw [← leafAddress_rangeLeaf flags hword hk ha]
  unfold rangeLeaf
  by_cases hhuge : RangeHuge virt phys size k
  · have hslot : rangeSlot virt k ≤ k := Nat.sub_le _ _
    rw [if_pos hhuge]
    exact linkedAccess_huge (by omega)
  · rw [if_neg hhuge]
    exact linkedAccess_page (by omega) hflags

/-- The leaf of a page, as the processor sees it. -/
theorem pageLeaf_access (h : PageRange m virt phys size) (hflags : flags / 128 % 2 = 0)
    {k a : Nat} (hk : 4096 * k < size) :
    linkedAccess a (0, pageEntry (phys + 4096 * k) flags)
      = flagsAccess flags (4096 * (phys / 4096 + k) + a % 4096) := by
  have hword := h.physWord
  rw [linkedAccess_page (by omega) hflags]
  congr 1
  unfold leafAddress
  rw [pageEntry_eq _ (by omega)]
  show (_ % 2 ^ 52 / 2 ^ 12 * 2 ^ 12 + _ % 2 ^ 12 : Nat) = _
  omega

/-- Mapping a range ends, and gives every canonical address the access that
    mapping it page by page gives. -/
theorem range_refines_pages (hok : TablesOk m) (h : PageRange m virt phys size)
    (hflags : flags / 128 % 2 = 0)
    (hsmall : ∀ a, virt ≤ a → a < virt + size → hugeAt m.mem m.root (a / pageSize) = false)
    (hrange : TablesGranted (pagerMapRange m virt phys size flags))
    (hpages : TablesGranted (exec mapStep m (pageCalls virt phys size flags))) :
    (∃ n, EndsAfter (fun s => s.2 < size) (rangeTurn virt phys size flags) (m, 0) n ∧
      ((rangeTurn virt phys size flags)^[n] (m, 0)).1 = pagerMapRange m virt phys size flags) ∧
    ∀ a, Canonical a →
      hwAccess (pagerMapRange m virt phys size flags).mem m.root a
        = hwAccess (exec mapStep m (pageCalls virt phys size flags)).mem m.root a := by
  have hlen := h.length
  have hv := h.virtPage
  refine ⟨pagerMapRange_ends m flags (by omega), ?_⟩
  have hpage : ∀ k, 4096 * k < size → hugeAt m.mem m.root (virt / 4096 + k) = false := by
    intro k hk
    have hslot := hsmall (virt + 4096 * k) (by omega) (by omega)
    rw [show (virt + 4096 * k) / pageSize = virt / 4096 + k by simp only [pageSize]; omega] at hslot
    exact hslot
  have hmapped := pagerMapRange_mapped (h.args hflags) hok hpage hrange
  obtain ⟨hok', hin, hout⟩ := pageCalls_walk h hflags hok hpage hpages
  intro a ha
  have hleft := hmapped.ok.hwAccess a
  have hright := hok'.hwAccess a
  rw [(sameRegs_pagerMapRange m virt phys size flags).root] at hleft
  rw [(sameRegs_exec m (pageCalls virt phys size flags)).root] at hright
  rw [hleft, hright]
  -- the leaves may differ in their level, the accesses do not
  by_cases hcov : ∃ k, 4096 * k < size ∧ virt + 4096 * k ≤ a ∧ a < virt + 4096 * k + 4096
  · obtain ⟨k, hk, hlo, hhi⟩ := hcov
    have hnum : a / 4096 = virt / 4096 + k := by omega
    rw [hin k a hk hlo hhi ha, show a / pageSize = virt / 4096 + k from hnum,
      hmapped.inside k (Nat.zero_le k) hk, Option.map_some, Option.map_some,
      rangeLeaf_access h hflags hk hnum, pageLeaf_access h hflags hk]
  · have hfar : ∀ k, 4096 * k < size →
        ¬ (virt + 4096 * k ≤ a ∧ a < virt + 4096 * k + 4096) :=
      fun k hk hc => hcov ⟨k, hk, hc⟩
    have hne : ∀ k, 0 ≤ k → 4096 * k < size →
        a / pageSize % 2 ^ 36 ≠ (virt / 4096 + k) % 2 ^ 36 := by
      intro k _ hk hkey
      have hcanon := h.canonical (virt + 4096 * k) (by omega) (by omega)
      rw [show virt / 4096 + k = (virt + 4096 * k) / pageSize by simp only [pageSize]; omega]
        at hkey
      have hsame := (canonical_page ha hcanon).mp hkey
      exact hfar k hk (by omega)
    rw [hout a ha hfar, hmapped.outside _ hne]

end Pages

/-- Nothing is mapped before. -/
theorem walkPage_smallMachine (n : Nat) :
    walkPage smallMachine.mem smallMachine.root n = none := smallMachine_empty.walkPage n

/-- A 2 MiB page and, behind it, one of 4 KiB: an address in the huge one. -/
theorem range_refines_pages_boundary :
    hwAccess (pagerMapRange smallMachine 0x200000 0x400000 0x201000 3).mem smallMachine.root
        0x200123
      = hwAccess (exec mapStep smallMachine (pageCalls 0x200000 0x400000 0x201000 3)).mem
          smallMachine.root 0x200123 := by
  have hargs : RangeArgs smallMachine 0x200000 0x400000 0x201000 3 :=
    ⟨by decide, by decide, by decide, by decide, by decide, by decide⟩
  have hempty : ∀ n, hugeAt smallMachine.mem smallMachine.root n = false := by
    intro n
    unfold hugeAt
    rw [walkPage_smallMachine]
  -- six tables for the two slots
  have hstock : Stocked 7 smallMachine.avmf smallMachine.tableLog := by
    intro _
    exact ⟨by decide, rfl, 17, by decide, by decide, by decide, by decide, by decide, by decide,
      by decide, by decide⟩
  have hok := smallMachine_empty.tablesOk
  refine (range_refines_pages hok ?_ (by decide) (fun a _ _ => hempty _)
    (pagerMapRange_count hargs hok (fun k _ => hempty _) hstock (by decide)).2
    (pageCalls_granted hargs hok (fun k _ => hempty _) hstock (by decide))).2 0x200123 (by decide)
  refine ⟨by decide, by decide, by decide, by decide, fun a _ ha => Or.inl (by omega), by decide⟩

end Pfi
