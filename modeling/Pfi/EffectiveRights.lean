import Pfi.HugePages
import Pfi.Usable

/-! # Requested and effective rights

    A range that is mapped where nothing was mapped gives the rights of the
    leaves: the caller's `PAGE_RW`, never `PAGE_USER`, which the links above
    the leaves lack, and never `PAGE_XD`, which is not among the low 12 bits
    of the flags that a leaf takes.  `PAGE_PAT` is bit 7, the bit that asks
    `pager_map` for a 2 MiB leaf; with it every call of the range is for
    2 MiB (`allHuge_range`), which is the rule of the range only when the
    rule chooses a 2 MiB leaf for every page.  And every leaf translates below
    the processor's limit (`leafAddress_below`), so that a range that passes
    it is not mapped whole.  These are all the ways in which the rights can
    differ from those asked for (`effective_rights_iff`). -/

namespace Pfi

open Words RadixTable Run

section Range

variable {m : Machine} {virt phys size flags : Nat}

/-- Each address of the range is translated to its place in the physical
    range, with the rights that the flags name, and through a 2 MiB leaf only
    where the rule of the range chooses one. -/
def EffectiveRights (m : Machine) (virt phys size flags : Nat) : Prop :=
  ∀ a, virt ≤ a → a < virt + size → ∃ acc,
    hwAccess (pagerMapRange m virt phys size flags).mem m.root a = some acc ∧
      acc.address = phys + (a - virt) ∧
      acc.writable = decide (flags &&& pageRw ≠ 0) ∧
      acc.user = decide (flags &&& pageUser ≠ 0) ∧
      acc.noExecute = decide (flags &&& pageXd ≠ 0) ∧
      (hugeAt (pagerMapRange m virt phys size flags).mem m.root (a / pageSize) = true →
        RangeHuge virt phys size ((a - virt) / pageSize))

/-- The flags ask for nothing that the pager does not give. -/
def Grantable (virt phys size flags : Nat) : Prop :=
  flags &&& pageUser = 0 ∧ flags &&& pageXd = 0 ∧
    (flags &&& pagePat = 0 ∨ ∀ k, 4096 * k < size → RangeHuge virt phys size k)

/-! ## Without bit 7 -/

/-- The access to every address of the range, and the level of its leaf. -/
theorem range_access (h : PageRange m virt phys size) (hflags : flags / 128 % 2 = 0)
    (hok : TablesOk m)
    (hnew : ∀ a, virt ≤ a → a < virt + size → walkPage m.mem m.root (a / pageSize) = none)
    (hlog : TablesGranted (pagerMapRange m virt phys size flags)) {a : Nat} (hlo : virt ≤ a)
    (hhi : a < virt + size) :
    hwAccess (pagerMapRange m virt phys size flags).mem m.root a
        = some (flagsAccess flags (phys + (a - virt))) ∧
      (hugeAt (pagerMapRange m virt phys size flags).mem m.root (a / pageSize) = true →
        RangeHuge virt phys size ((a - virt) / pageSize)) := by
  have hv := h.virtPage
  have hp := h.physPage
  have hsmall : ∀ k, 4096 * k < size → hugeAt m.mem m.root (virt / 4096 + k) = false := by
    intro k hk
    have hnone := hnew (virt + 4096 * k) (by omega) (by omega)
    rw [show (virt + 4096 * k) / pageSize = virt / 4096 + k by simp only [pageSize]; omega]
      at hnone
    unfold hugeAt
    rw [hnone]
  have hmapped := pagerMapRange_mapped (h.args hflags) hok hsmall hlog
  have hregs := sameRegs_pagerMapRange m virt phys size flags
  have hnum : a / pageSize = virt / 4096 + (a - virt) / pageSize := by
    simp only [pageSize]
    omega
  have hk : 4096 * ((a - virt) / pageSize) < size := by
    simp only [pageSize]
    omega
  have hleaf := hmapped.inside _ (Nat.zero_le _) hk
  rw [← hnum] at hleaf
  constructor
  · have hacc := hmapped.ok.hwAccess a
    rw [hregs.root] at hacc
    rw [hacc, hleaf, Option.map_some, rangeLeaf_access h hflags hk hnum]
    simp only [pageSize]
    rw [show 4096 * (phys / 4096 + (a - virt) / 4096) + a % 4096 = phys + (a - virt) by omega]
  · intro hhuge
    by_contra hno
    unfold rangeLeaf at hleaf
    rw [if_neg hno] at hleaf
    obtain ⟨e, he⟩ := hugeAt_iff.mp hhuge
    rw [hleaf] at he
    cases (Prod.mk.inj (Option.some.inj he)).1

/-- Then the rights are those asked for unless they are a user's or forbid
    execution. -/
theorem effective_small_iff (h : PageRange m virt phys size) (hflags : flags / 128 % 2 = 0)
    (hok : TablesOk m)
    (hnew : ∀ a, virt ≤ a → a < virt + size → walkPage m.mem m.root (a / pageSize) = none)
    (hlog : TablesGranted (pagerMapRange m virt phys size flags)) :
    EffectiveRights m virt phys size flags ↔
      size = 0 ∨ (flags &&& pageUser = 0 ∧ flags &&& pageXd = 0) := by
  constructor
  · intro heff
    by_cases hzero : size = 0
    · exact Or.inl hzero
    · right
      have hlo : virt ≤ virt := Nat.le_refl virt
      have hhi : virt < virt + size := by omega
      obtain ⟨acc, hacc, -, -, huser, hxd, -⟩ := heff virt hlo hhi
      rw [(range_access h hflags hok hnew hlog hlo hhi).1] at hacc
      cases hacc
      exact ⟨by_contra (fun hc => of_decide_eq_false huser.symm hc),
        by_contra (fun hc => of_decide_eq_false hxd.symm hc)⟩
  · intro hgrant a hlo hhi
    obtain ⟨hacc, hhuge⟩ := range_access h hflags hok hnew hlog hlo hhi
    rcases hgrant with hzero | ⟨huser, hxd⟩
    · exact absurd hhi (by omega)
    · exact ⟨_, hacc, rfl, rfl, (decide_eq_false (fun hc => hc huser)).symm,
        (decide_eq_false (fun hc => hc hxd)).symm, hhuge⟩

/-! ## Beyond the processor's limit -/

/-- A range of pages: its virtual addresses are canonical, its physical ones
    are words. -/
structure WordRange (m : Machine) (virt phys size : Nat) : Prop where
  bits : m.cpuPhysBits ≤ 52
  widthHuge : 21 ≤ m.cpuPhysBits
  virtPage : virt % 4096 = 0
  physPage : phys % 4096 = 0
  virtEnd : virt + size ≤ 2 ^ 64
  canonical : ∀ a, virt ≤ a → a < virt + size → Canonical a
  physEnd : phys + size ≤ 2 ^ 64

theorem WordRange.pageRange (h : WordRange m virt phys size)
    (hlimit : phys + size ≤ 2 ^ m.cpuPhysBits) : PageRange m virt phys size :=
  ⟨h.bits, h.virtPage, h.physPage, h.virtEnd, h.canonical, hlimit⟩

theorem WordRange.length (h : WordRange m virt phys size) : size ≤ 2 ^ 64 - 4096 :=
  Nat.le_trans (canonical_length h.canonical) (by decide)

/-- No call is for 4 KiB inside the 2 MiB page of an earlier one. -/
theorem rangeCallsFrom_apart (hvend : virt + size ≤ 2 ^ 64) (hpend : phys + size ≤ 2 ^ 64)
    (hlen : size ≤ 2 ^ 64 - 4096) (hflags : flags / 128 % 2 = 0) (fuel : Nat) {offset : Nat}
    (hoff : offset % 4096 = 0) :
    (rangeCallsFrom virt phys size flags fuel offset).Pairwise
      (fun c' c => c'.Huge → ¬ c.Huge → ¬ c'.Covers c.virt) := by
  induction fuel generalizing offset with
  | zero => exact List.Pairwise.nil
  | succ fuel ih =>
      simp only [rangeCallsFrom]
      by_cases hlt : offset < size
      · rw [if_pos hlt, add64_of_lt (a := virt) (by omega), add64_of_lt (a := phys) (by omega)]
        by_cases hslot : 0x200000 ≤ size - offset ∧ (virt + offset) % 0x200000 = 0 ∧
            (phys + offset) % 0x200000 = 0
        · rw [if_pos hslot, add64_of_lt (by omega)]
          refine List.pairwise_cons.mpr
            ⟨fun c hc hhuge _ hcov => ?_, @ih (offset + 0x200000) (by omega)⟩
          -- the later calls are behind the slot
          obtain ⟨o, hlo, -, -, hvirt, -⟩ :=
            (rangeCallsFrom_from flags hvend hpend hlen fuel (by omega) c hc).offset
          have hhi := hcov.2
          unfold MapCall.bytes at hhi
          rw [if_pos hhuge, hvirt] at hhi
          dsimp only at hhi
          omega
        · rw [if_neg hslot, add64_of_lt (by simp only [pageSize]; omega)]
          refine List.pairwise_cons.mpr
            ⟨fun c hc hhuge _ _ => ?_, @ih (offset + pageSize) (by simp only [pageSize]; omega)⟩
          have hbit := (and_huge_ne flags).mp hhuge
          omega
      · rw [if_neg hlt]
        exact List.Pairwise.nil

theorem CallFrom.huge_of_flags {start : Nat} {c : MapCall}
    (h : CallFrom virt phys size flags start c) (hflags : flags / 128 % 2 = 1) : c.Huge := by
  unfold MapCall.Huge
  rcases h.slot with hf | ⟨hf, -, -⟩
  · rw [hf]
    exact (and_huge_ne flags).mpr hflags
  · rw [hf]
    exact (and_huge_ne _).mpr (or_huge_bit flags)

theorem CallFrom.aligned {start : Nat} {c : MapCall} (h : CallFrom virt phys size flags start c)
    (hm : WordRange m virt phys size) (hflags : flags / 128 % 2 = 0) : c.Aligned := by
  obtain ⟨o, -, ho, hpage, hcv, hcp⟩ := h.offset
  have hv := hm.virtPage
  have hp := hm.physPage
  have hend := hm.physEnd
  have hcanon : Canonical c.virt := hm.canonical _ (by omega) (by omega)
  have hbytes : c.virt % c.bytes = 0 ∧ c.phys % c.bytes = 0 := by
    unfold MapCall.bytes
    rcases h.slot with hf | ⟨hf, hvs, hps⟩
    · have hsmall : ¬ c.Huge := by
        intro hc
        have hbit := (and_huge_ne c.flags).mp hc
        rw [hf] at hbit
        omega
      rw [if_neg hsmall]
      simp only [pageSize]
      omega
    · have hhuge : c.Huge := by
        unfold MapCall.Huge
        rw [hf]
        exact (and_huge_ne _).mpr (or_huge_bit flags)
      rw [if_pos hhuge]
      exact ⟨hvs, hps⟩
  exact ⟨hcanon, by omega, hbytes.1, hbytes.2⟩

/-- No call of a new range is for 4 KiB inside a 2 MiB leaf. -/
theorem WordRange.not_splits (h : WordRange m virt phys size) (hok : TablesOk m)
    (hnew : ∀ a, virt ≤ a → a < virt + size → walkPage m.mem m.root (a / pageSize) = none)
    (hlog : Along mapStep (fun m c => TablesGranted (mapStep m c)) m
      (rangeCalls virt phys size flags)) :
    Along mapStep (fun m c => ¬ c.SplitsHuge m) m (rangeCalls virt phys size flags) := by
  have hlen := h.length
  have hcalls := @rangeCallsFrom_from virt phys size flags h.virtEnd h.physEnd hlen
    (size / pageSize + 1) 0 rfl
  by_cases hflags : flags / 128 % 2 = 0
  · -- the addresses are new, and the range's own slots are behind its calls
    refine along_not_splitsHuge hok h.bits (fun c hc => (hcalls c hc).aligned h hflags) ?_
      (rangeCallsFrom_apart h.virtEnd h.physEnd hlen hflags _ rfl) hlog
    intro c hc _
    obtain ⟨o, -, ho, -, hcv, -⟩ := (hcalls c hc).offset
    unfold hugeAt
    rw [hnew c.virt (by omega) (by omega)]
  · -- every call is for 2 MiB
    exact along_of_forall
      (fun c hc m hs => hs.2.1 ((hcalls c hc).huge_of_flags (by omega)))

/-- A leaf that calls leave in the tables was there, or is that of one of them
    which was not rejected. -/
theorem leaf_exec {calls : List MapCall} (hok : TablesOk m) (hbits : m.cpuPhysBits ≤ 52)
    (hc : ∀ c ∈ calls, c.phys < 2 ^ 64)
    (hfits : Along mapStep (fun m c => ¬ c.SplitsHuge m) m calls)
    (hlog : Along mapStep (fun m c => TablesGranted (mapStep m c)) m calls) (n : Nat) :
    walkPage (exec mapStep m calls).mem m.root n = walkPage m.mem m.root n ∨
      ∃ c ∈ calls, c.phys < 2 ^ m.cpuPhysBits ∧
        walkPage (exec mapStep m calls).mem m.root n = some c.leaf := by
  induction calls generalizing m with
  | nil => exact Or.inl rfl
  | cons c calls ih =>
      have hregs := sameRegs_mapStep m c
      obtain ⟨hok1, hwalk⟩ :=
        walkPage_replaced hok hbits (hc c List.mem_cons_self) hfits.1 hlog.1
      have hrest := ih hok1 (by rw [hregs.cpuPhysBits]; exact hbits)
        (fun c' hc' => hc c' (List.mem_cons_of_mem c hc')) hfits.2 hlog.2
      rw [hregs.root, hregs.cpuPhysBits, hwalk n] at hrest
      rcases hrest with hsame | ⟨c', hc', hlt, hleaf⟩
      · by_cases hr : c.phys < 2 ^ m.cpuPhysBits ∧ c.Replaces n
        · rw [if_pos hr] at hsame
          exact Or.inr ⟨c, List.mem_cons_self, hr.1, hsame⟩
        · rw [if_neg hr] at hsame
          exact Or.inl hsame
      · exact Or.inr ⟨c', List.mem_cons_of_mem c hc', hlt, hleaf⟩

/-- The leaf of a call below the limit translates below it. -/
theorem leafAddress_below {bits : Nat} {c : MapCall} (hwide : 21 ≤ bits) (hbits : bits ≤ 52)
    (hphys : c.phys < 2 ^ bits) (a : Nat) : leafAddress c.leaf.1 c.leaf.2 a < 2 ^ bits := by
  obtain ⟨n, rfl⟩ := Nat.exists_eq_add_of_le hwide
  have hword : c.phys < 2 ^ 52 := Nat.lt_of_lt_of_le hphys (Nat.pow_le_pow_right (by decide) hbits)
  rw [leafAddress_call hword]
  rw [Nat.pow_add] at hphys ⊢
  unfold MapCall.bytes
  by_cases hhuge : c.Huge
  · rw [if_pos hhuge]
    omega
  · rw [if_neg hhuge]
    simp only [pageSize]
    omega

/-- So a new range that passes the limit has a page without the translation
    that was asked for. -/
theorem below_limit (h : WordRange m virt phys size) (hok : TablesOk m)
    (hnew : ∀ a, virt ≤ a → a < virt + size → walkPage m.mem m.root (a / pageSize) = none)
    (hlog : TablesGranted (pagerMapRange m virt phys size flags)) (hpos : size ≠ 0)
    (heff : EffectiveRights m virt phys size flags) : phys + size ≤ 2 ^ m.cpuPhysBits := by
  -- the last address is to be translated to the last byte
  have hlast : virt ≤ virt + (size - 1) ∧ virt + (size - 1) < virt + size := by omega
  obtain ⟨acc, hacc, haddr, -⟩ := heff (virt + (size - 1)) hlast.1 hlast.2
  have hlen := h.length
  rw [pagerMapRange_eq_exec] at hlog hacc
  have hgranted := (along_granted hlog).2
  have hend := h.physEnd
  unfold hwAccess at hacc
  obtain ⟨leaf, hleaf, rfl⟩ := Option.map_eq_some_iff.mp hacc
  have hword : ∀ c ∈ rangeCalls virt phys size flags, c.phys < 2 ^ 64 := by
    intro c hc
    obtain ⟨o, -, ho, -, -, hcp⟩ :=
      (rangeCallsFrom_from flags h.virtEnd hend hlen _ rfl c hc).offset
    omega
  rcases leaf_exec hok h.bits hword (h.not_splits hok hnew hgranted) hgranted
    ((virt + (size - 1)) / pageSize) with hsame | ⟨c, -, hlt, hnow⟩
  · rw [hsame, hnew _ hlast.1 hlast.2] at hleaf
    cases hleaf
  · rw [hnow] at hleaf
    cases hleaf
    have hbelow := leafAddress_below h.widthHuge h.bits hlt (virt + (size - 1))
    dsimp only at haddr
    rw [haddr] at hbelow
    omega

/-! ## With bit 7 -/

/-- Calls for 2 MiB that are accepted: the slots of all of them are mapped by
    2 MiB leaves, and so are those that were. -/
theorem hugeAt_exec {calls : List MapCall} (hok : TablesOk m) (hbits : m.cpuPhysBits ≤ 52)
    (hc : ∀ c ∈ calls, c.Huge ∧ c.phys < 2 ^ m.cpuPhysBits)
    (hlog : Along mapStep (fun m c => TablesGranted (mapStep m c)) m calls) {n : Nat}
    (hn : (∃ c ∈ calls, c.Replaces n) ∨ hugeAt m.mem m.root n = true) :
    hugeAt (exec mapStep m calls).mem m.root n = true := by
  induction calls generalizing m with
  | nil =>
      rcases hn with ⟨c, hmem, -⟩ | hn
      · exact absurd hmem List.not_mem_nil
      · exact hn
  | cons c calls ih =>
      obtain ⟨hhuge, hphys⟩ := hc c List.mem_cons_self
      have hpow : 2 ^ m.cpuPhysBits ≤ 2 ^ 52 := Nat.pow_le_pow_right (by decide) hbits
      have hword : c.phys < 2 ^ 64 := by omega
      have hregs := sameRegs_mapStep m c
      obtain ⟨hok1, hwalk⟩ := walkPage_replaced hok hbits hword (fun hs => hs.2.1 hhuge) hlog.1
      have hrest := ih hok1 (by rw [hregs.cpuPhysBits]; exact hbits)
        (fun c' hc' => by
          rw [hregs.cpuPhysBits]
          exact hc c' (List.mem_cons_of_mem c hc')) hlog.2
      rw [hregs.root] at hrest
      refine hrest ?_
      -- the leaf of this call, or what was there
      by_cases hr : c.Replaces n
      · right
        have hleaf := hwalk n
        unfold MapCall.leaf at hleaf
        rw [if_pos ⟨hphys, hr⟩, if_pos hhuge] at hleaf
        exact hugeAt_iff.mpr ⟨_, hleaf⟩
      · rcases hn with ⟨c', hmem, hr'⟩ | hn
        · rcases List.mem_cons.mp hmem with rfl | hmem
          · exact absurd hr' hr
          · exact Or.inl ⟨c', hmem, hr'⟩
        · right
          have hleaf := hwalk n
          rw [if_neg (fun hs => hr hs.2)] at hleaf
          rw [hugeAt_congr hleaf]
          exact hn

/-- With bit 7 in the flags every page of the range gets a 2 MiB leaf. -/
theorem allHuge_range (h : PageRange m virt phys size) (hsize : size % 4096 = 0)
    (hflags : flags / 128 % 2 = 1) (hok : TablesOk m)
    (hlog : TablesGranted (pagerMapRange m virt phys size flags)) {a : Nat} (hlo : virt ≤ a)
    (hhi : a < virt + size) :
    hugeAt (pagerMapRange m virt phys size flags).mem m.root (a / pageSize) = true := by
  have hword := h.physWord
  have hlen := h.length
  have hpend : phys + size < 2 ^ 64 := by omega
  have hfuel : size ≤ 0 + 4096 * (size / pageSize + 1) := by
    rw [Nat.zero_add]
    exact Nat.le_of_lt (Nat.lt_mul_div_succ size (by decide))
  rw [pagerMapRange_eq_exec] at hlog ⊢
  have hcalls := @rangeCallsFrom_from virt phys size flags h.virtEnd (by omega) (by omega)
    (size / pageSize + 1) 0 rfl
  refine hugeAt_exec hok h.bits (fun c hc => ⟨(hcalls c hc).huge_of_flags hflags, ?_⟩)
    (along_granted hlog).2 ?_
  · obtain ⟨o, -, ho, -, -, hcp⟩ := (hcalls c hc).offset
    have hend := h.physEnd
    omega
  · left
    obtain ⟨c, hc, hm⟩ := rangeCallsFrom_meets flags h.virtPage hsize h.virtEnd hpend _ 0 rfl hfuel
      (a - virt) (Nat.zero_le _) (by omega)
    obtain ⟨o, -, ho, -, hcv, -⟩ := (hcalls c hc).offset
    rw [Nat.add_sub_cancel' hlo] at hm
    exact ⟨c, hc, (MapCall.replaces_iff (h.canonical a hlo hhi)
      (h.canonical c.virt (by omega) (by omega))).mpr hm⟩

/-- Where the rule chooses a 2 MiB leaf for every page, bit 7 of the flags
    changes no call. -/
theorem rangeCallsFrom_of_huge {virt phys size flags flags' : Nat}
    (hor : flags ||| pageHuge = flags' ||| pageHuge) (hvend : virt + size ≤ 2 ^ 64)
    (hpend : phys + size < 2 ^ 64) (hall : ∀ k, 4096 * k < size → RangeHuge virt phys size k)
    (fuel : Nat) {k : Nat} (hk : 4096 * k < size → (virt / 4096 + k) % 512 = 0) :
    rangeCallsFrom virt phys size flags fuel (4096 * k)
      = rangeCallsFrom virt phys size flags' fuel (4096 * k) := by
  induction fuel generalizing k with
  | zero => rfl
  | succ fuel ih =>
      simp only [rangeCallsFrom]
      by_cases hlt : 4096 * k < size
      · have hhuge := hall k hlt
        have hstart := hk hlt
        have hv := hhuge.virtPage
        have hp := hhuge.physPage
        have hcong := hhuge.congruent
        have hfits := hhuge.fits
        unfold rangeSlot at hfits
        rw [if_pos hlt, if_pos hlt, add64_of_lt (a := virt) (by omega),
          add64_of_lt (a := phys) (by omega), if_pos (by omega), if_pos (by omega), hor,
          add64_of_lt (by omega), show 4096 * k + 0x200000 = 4096 * (k + 512) by omega,
          ih (fun _ => by omega)]
      · rw [if_neg hlt, if_neg hlt]

/-- Nor the effect of the range. -/
theorem pagerMapRange_of_huge (h : PageRange m virt phys size) {flags' : Nat}
    (hor : flags ||| pageHuge = flags' ||| pageHuge)
    (hall : ∀ k, 4096 * k < size → RangeHuge virt phys size k) :
    pagerMapRange m virt phys size flags = pagerMapRange m virt phys size flags' := by
  have hword := h.physWord
  have hfirst : 4096 * 0 < size → (virt / 4096 + 0) % 512 = 0 := by
    intro hpos
    have hstarts := (hall 0 hpos).starts
    omega
  have hcalls : rangeCalls virt phys size flags = rangeCalls virt phys size flags' :=
    rangeCallsFrom_of_huge hor h.virtEnd (by omega) hall _ hfirst
  rw [pagerMapRange_eq_exec, pagerMapRange_eq_exec, hcalls]

/-! ## All flags -/

/-- The flags without bit 7. -/
theorem clear_pat (hpat : flags / 128 % 2 = 1) :
    flags ||| pageHuge = (flags - 128) ||| pageHuge ∧
      flags &&& pageUser = (flags - 128) &&& pageUser ∧
      flags &&& pageRw = (flags - 128) &&& pageRw ∧
      flags &&& pageXd = (flags - 128) &&& pageXd := by
  refine ⟨?_, @and_bit_congr _ _ 2 ?_, @and_bit_congr _ _ 1 ?_, @and_bit_congr _ _ 63 ?_⟩
  · rw [or_huge_eq, or_huge_eq]
    omega
  · omega
  · omega
  · omega

/-- Where the rule chooses a 2 MiB leaf for every page, they ask for the same
    rights and give the same. -/
theorem effective_pat_iff (h : PageRange m virt phys size) (hpat : flags / 128 % 2 = 1)
    (hall : ∀ k, 4096 * k < size → RangeHuge virt phys size k) (hok : TablesOk m)
    (hnew : ∀ a, virt ≤ a → a < virt + size → walkPage m.mem m.root (a / pageSize) = none)
    (hlog : TablesGranted (pagerMapRange m virt phys size flags)) :
    EffectiveRights m virt phys size flags ↔
      size = 0 ∨ (flags &&& pageUser = 0 ∧ flags &&& pageXd = 0) := by
  obtain ⟨hor, huser, hrw, hxd⟩ := clear_pat hpat
  have hsame := pagerMapRange_of_huge h hor hall
  have heff : EffectiveRights m virt phys size flags ↔
      EffectiveRights m virt phys size (flags - 128) := by
    unfold EffectiveRights
    rw [hsame, huser, hrw, hxd]
  rw [hsame] at hlog
  rw [heff, effective_small_iff h (by omega) hok hnew hlog, huser, hxd]

/-- Elsewhere a 2 MiB leaf is used where the rule chooses none. -/
theorem huge_of_effective (h : PageRange m virt phys size) (hsize : size % 4096 = 0)
    (hpat : flags / 128 % 2 = 1) (hok : TablesOk m)
    (hlog : TablesGranted (pagerMapRange m virt phys size flags))
    (heff : EffectiveRights m virt phys size flags) :
    ∀ k, 4096 * k < size → RangeHuge virt phys size k := by
  intro k hk
  have hlo : virt ≤ virt + 4096 * k := Nat.le_add_right _ _
  have hhi : virt + 4096 * k < virt + size := by omega
  obtain ⟨acc, -, -, -, -, -, hrule⟩ := heff _ hlo hhi
  have hpage := hrule (allHuge_range h hsize hpat hok hlog hlo hhi)
  rw [show (virt + 4096 * k - virt) / pageSize = k by simp only [pageSize]; omega] at hpage
  exact hpage

/-- Below the limit, a range of new pages has the rights that were asked for
    if and only if they are neither a user's nor without execution, and
    `PAGE_PAT` is asked for only where every leaf is a 2 MiB leaf anyway. -/
theorem PageRange.effective_iff (h : PageRange m virt phys size) (hok : TablesOk m)
    (hsize : size % 4096 = 0)
    (hnew : ∀ a, virt ≤ a → a < virt + size → walkPage m.mem m.root (a / pageSize) = none)
    (hlog : TablesGranted (pagerMapRange m virt phys size flags)) :
    EffectiveRights m virt phys size flags ↔ size = 0 ∨ Grantable virt phys size flags := by
  unfold Grantable
  have hiff := and_huge_ne flags
  by_cases hpat : flags / 128 % 2 = 1
  · have hset : ¬ flags &&& pagePat = 0 := hiff.mpr hpat
    by_cases hall : ∀ k, 4096 * k < size → RangeHuge virt phys size k
    · rw [effective_pat_iff h hpat hall hok hnew hlog, and_iff_left (Or.inr hall)]
    · constructor
      · intro heff
        exact absurd (huge_of_effective h hsize hpat hok hlog heff) hall
      · rintro (hzero | ⟨-, -, hclear | hrange⟩)
        · intro a hlo hhi
          exact absurd hhi (by omega)
        · exact absurd hclear hset
        · exact absurd hrange hall
  · have hclear : flags &&& pagePat = 0 := by
      by_contra hc
      exact hpat (hiff.mp hc)
    rw [effective_small_iff h (by omega) hok hnew hlog, and_iff_left (Or.inl hclear)]

/-- A range of new pages has the rights that were asked for if and only if it
    lies below the processor's limit and the pager gives such rights. -/
theorem effective_rights_iff (hok : TablesOk m) (h : WordRange m virt phys size)
    (hsize : size % 4096 = 0)
    (hnew : ∀ a, virt ≤ a → a < virt + size → walkPage m.mem m.root (a / pageSize) = none)
    (hlog : TablesGranted (pagerMapRange m virt phys size flags)) :
    EffectiveRights m virt phys size flags ↔
      size = 0 ∨ (phys + size ≤ 2 ^ m.cpuPhysBits ∧ Grantable virt phys size flags) := by
  by_cases hzero : size = 0
  · refine ⟨fun _ => Or.inl hzero, fun _ a hlo hhi => ?_⟩
    exact absurd hhi (by omega)
  · constructor
    · intro heff
      have hlimit := below_limit h hok hnew hlog hzero heff
      refine Or.inr ⟨hlimit, ?_⟩
      exact (((h.pageRange hlimit).effective_iff hok hsize hnew hlog).mp heff).resolve_left hzero
    · rintro (hc | ⟨hlimit, hgrant⟩)
      · exact absurd hc hzero
      · exact ((h.pageRange hlimit).effective_iff hok hsize hnew hlog).mpr (Or.inr hgrant)

end Range

/-- A kernel page, writable. -/
theorem effective_rights_kernel : EffectiveRights smallMachine 0x400000 0x5000 0x1000 0x3 := by
  refine (effective_rights_iff smallMachine_empty.tablesOk ?_ (by decide) ?_ ?_).mpr (Or.inr ?_)
  · refine ⟨by decide, by decide, by decide, by decide, by decide, fun a _ ha => ?_, by decide⟩
    exact Or.inl (by omega)
  · exact fun a _ _ => walkPage_smallMachine _
  · decide +kernel
  · exact ⟨by decide, by decide, by decide, Or.inl (by decide)⟩

/-- A user's page that is not to be executed is neither. -/
theorem user_rights_lost :
    TablesOk smallMachine ∧ WordRange smallMachine 0x400000 0x5000 0x1000 ∧
      (∀ n, walkPage smallMachine.mem smallMachine.root n = none) ∧
      TablesGranted (pagerMapRange smallMachine 0x400000 0x5000 0x1000 0x8000000000000007) ∧
      ¬ EffectiveRights smallMachine 0x400000 0x5000 0x1000 0x8000000000000007 := by
  refine ⟨smallMachine_empty.tablesOk, ?_, walkPage_smallMachine, by decide +kernel, ?_⟩
  · refine ⟨by decide, by decide, by decide, by decide, by decide, fun a _ ha => ?_, by decide⟩
    exact Or.inl (by omega)
  · intro heff
    obtain ⟨acc, hacc, -, -, huser, -, -⟩ := heff 0x400000 (by decide) (by decide)
    have hnone : (hwAccess (pagerMapRange smallMachine 0x400000 0x5000 0x1000
        0x8000000000000007).mem smallMachine.root 0x400000).map (fun acc => acc.user)
          = some false := by decide +kernel
    rw [hacc, Option.map_some, huser] at hnone
    exact absurd hnone (by decide)

end Pfi
