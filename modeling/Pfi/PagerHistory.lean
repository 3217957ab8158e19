import Pfi.PagerMap

/-! # `pager_map` is last-writer-wins

    A history of `pager_map` calls on an empty PML4 is summarised, for each
    address, by the last accepted call whose page covers it.  `HistoryOk` says
    that the tables hold exactly that summary; more calls keep it
    (`historyOk_exec`), so the processor's walk after any history is the
    summary (`hwWalk_history`).  On tables that already hold something the
    calls of a history go over it (`walkPage_exec`). -/

namespace Pfi

open Words RadixTable Run

/-! ## Calls -/

/-- The arguments of one `pager_map`. -/
structure MapCall where
  virt : Nat
  phys : Nat
  flags : Nat
deriving Repr, DecidableEq

/-- Run one call. -/
def mapStep (m : Machine) (c : MapCall) : Machine := (pagerMap m c.virt c.phys c.flags).2

/-- The call maps a 2 MiB page. -/
def MapCall.Huge (c : MapCall) : Prop := c.flags &&& pageHuge ≠ 0

instance (c : MapCall) : Decidable c.Huge := inferInstanceAs (Decidable (_ ≠ _))

/-- The size of the page that the call maps. -/
def MapCall.bytes (c : MapCall) : Nat := if c.Huge then 0x200000 else pageSize

/-- `virt` and `phys` are words, aligned to the page, and `virt` is
    canonical. -/
structure MapCall.Aligned (c : MapCall) : Prop where
  canonical : Canonical c.virt
  word : c.phys < 2 ^ 64
  virt : c.virt % c.bytes = 0
  phys : c.phys % c.bytes = 0

/-- The page of the call covers the address. -/
def MapCall.Covers (c : MapCall) (a : Nat) : Prop := c.virt ≤ a ∧ a < c.virt + c.bytes

instance (c : MapCall) (a : Nat) : Decidable (c.Covers a) :=
  inferInstanceAs (Decidable (_ ∧ _))

/-- An accepted 4 KiB call in a 2 MiB slot that is huge-mapped at this
    moment. -/
def MapCall.SplitsHuge (m : Machine) (c : MapCall) : Prop :=
  exceedsCpu m c.phys = false ∧ ¬ c.Huge ∧ hugeAt m.mem m.root (c.virt / pageSize) = true

instance (m : Machine) (c : MapCall) : Decidable (c.SplitsHuge m) :=
  inferInstanceAs (Decidable (_ ∧ _ ∧ _))

/-- The last call with `phys < 2 ^ bits` whose page covers the address. -/
def lastCovering (bits : Nat) (calls : List MapCall) (a : Nat) : Option MapCall :=
  calls.reverse.find? (fun c => decide (c.phys < 2 ^ bits ∧ c.Covers a))

/-- The translation that a call gives to an address of its page. -/
def MapCall.translation (c : MapCall) (a : Nat) : Nat × Nat :=
  (c.phys + (a - c.virt), c.flags % 4096 ||| pagePresent)

/-- A machine whose PML4 is an empty page obtained from `alloc_page_table`. -/
structure EmptyPml4 (m : Machine) : Prop where
  empty : ∀ i, m.mem m.root i = 0
  inBitmap : m.root < bitmapSize
  taken : bitmapTest m.avmf.avmfBitmap m.root = 1
  logged : m.root * pageSize ∈ m.tableLog
  touched : ∀ f ∈ m.touched, f * pageSize ∈ m.tableLog

theorem mapStep_log_mono (m : Machine) (c : MapCall) {x : Nat} (hx : x ∈ m.tableLog) :
    x ∈ (mapStep m c).tableLog :=
  pagerMap_log_mono m c.virt c.phys c.flags hx

theorem sameRegs_mapStep (m : Machine) (c : MapCall) : SameRegs m (mapStep m c) :=
  sameRegs_pagerMap m c.virt c.phys c.flags

/-- Tables granted in the end were granted after each call. -/
theorem along_granted {m : Machine} {calls : List MapCall}
    (h : TablesGranted (exec mapStep m calls)) :
    TablesGranted m ∧ Along mapStep (fun m c => TablesGranted (mapStep m c)) m calls :=
  along_of_final
    (fun m c h => TablesGranted.of_mono h (fun _ hx => mapStep_log_mono m c hx)) h

/-! ## An empty PML4 -/

theorem tableAt_empty {m : Machine} (h : EmptyPml4 m) {p : List (Fin 512)} {f : Nat}
    (hp : tableAt x86Kind m.mem 3 m.root p = some f) : p = [] ∧ f = m.root := by
  cases p with
  | nil =>
      rw [tableAt_nil] at hp
      exact ⟨rfl, (Option.some.inj hp).symm⟩
  | cons i p =>
      obtain ⟨g, hk, -⟩ := tableAt_cons_some hp
      rw [h.empty i, x86Kind_absent.mpr rfl] at hk
      cases hk

theorem EmptyPml4.tablesOk {m : Machine} (h : EmptyPml4 m) : TablesOk m := by
  refine ⟨?_, ?_, ?_, h.touched⟩
  · intro p q f hp hq
    rw [(tableAt_empty h hp).1, (tableAt_empty h hq).1]
  · intro p f hp
    rw [(tableAt_empty h hp).2]
    exact ⟨h.inBitmap, h.taken, h.logged⟩
  · intro p f i hp _
    rw [(tableAt_empty h hp).2, h.empty i]
    exact fun hodd => absurd hodd (by decide)

theorem EmptyPml4.walkPage {m : Machine} (h : EmptyPml4 m) (n : Nat) :
    walkPage m.mem m.root n = none := by
  have hroot : tableAt x86Kind m.mem 3 m.root [] = some m.root := tableAt_nil 3 m.root
  unfold Pfi.walkPage pagePath
  refine walk_absent (i := Fin.ofNat 512 (n / 2 ^ 27)) hroot ?_ (List.prefix_append [_] _)
  rw [h.empty]
  exact x86Kind_absent.mpr rfl

/-! ## Canonical addresses -/

/-- Two canonical addresses in equal page-table slots are in one page. -/
theorem canonical_page {a b : Nat} (ha : Canonical a) (hb : Canonical b) :
    a / 4096 % 2 ^ 36 = b / 4096 % 2 ^ 36 ↔ a / 4096 = b / 4096 := by
  unfold Canonical at ha hb
  omega

theorem canonical_slot {a b : Nat} (ha : Canonical a) (hb : Canonical b) :
    a / 4096 / 512 % 2 ^ 27 = b / 4096 / 512 % 2 ^ 27
      ↔ a / 4096 / 512 = b / 4096 / 512 := by
  unfold Canonical at ha hb
  omega

/-- A 2 MiB page covers the addresses of its slot. -/
theorem covers_huge {c : MapCall} (hc : c.Aligned) (h : c.Huge) {a : Nat}
    (ha : Canonical a) :
    c.Covers a ↔ a / 4096 / 512 % 2 ^ 27 = c.virt / 4096 / 512 % 2 ^ 27 := by
  have hv := hc.virt
  rw [canonical_slot ha hc.canonical]
  unfold MapCall.Covers
  unfold MapCall.bytes at hv ⊢
  rw [if_pos h] at hv ⊢
  omega

/-- A 4 KiB page covers its addresses. -/
theorem covers_page {c : MapCall} (hc : c.Aligned) (h : ¬ c.Huge) {a : Nat}
    (ha : Canonical a) :
    c.Covers a ↔ a / 4096 % 2 ^ 36 = c.virt / 4096 % 2 ^ 36 := by
  have hv := hc.virt
  rw [canonical_page ha hc.canonical]
  unfold MapCall.Covers
  unfold MapCall.bytes at hv ⊢
  rw [if_neg h] at hv ⊢
  simp only [pageSize] at hv ⊢
  omega

/-! ## The leaf of a call -/

/-- The leaf that a call stores, with its level. -/
def MapCall.leaf (c : MapCall) : Nat × Nat :=
  if c.Huge then (1, hugeEntry c.phys c.flags) else (0, pageEntry c.phys c.flags)

/-- An address has its place in the physical page of the leaf. -/
theorem leafAddress_call {c : MapCall} (hphys : c.phys < 2 ^ 52) (a : Nat) :
    leafAddress c.leaf.1 c.leaf.2 a = c.phys / c.bytes * c.bytes + a % c.bytes := by
  unfold MapCall.leaf leafAddress MapCall.bytes
  by_cases h : c.Huge
  · rw [if_pos h, if_pos h, hugeEntry_eq c.flags (by omega)]
    show (_ % 2 ^ 52 / 2 ^ 21 * 2 ^ 21 + a % 2 ^ 21 : Nat) = _
    omega
  · rw [if_neg h, if_neg h, pageEntry_eq c.flags (by omega)]
    simp only [pageSize]
    show (_ % 2 ^ 52 / 2 ^ 12 * 2 ^ 12 + a % 2 ^ 12 : Nat) = _
    omega

theorem leaf_flags {c : MapCall} (hword : c.phys < 2 ^ 64) :
    c.leaf.2 % 2 ^ 12 = c.flags % 4096 ||| pagePresent := by
  have hflags : c.flags % 4096 ||| pagePresent = c.flags % 4096 / 2 * 2 + 1 := or_one _
  rw [hflags]
  unfold MapCall.leaf
  by_cases h : c.Huge
  · rw [if_pos h, hugeEntry_eq c.flags hword]
    omega
  · rw [if_neg h, pageEntry_eq c.flags hword]
    omega

/-- The processor reads a call's leaf as its translation. -/
theorem leafAddress_leaf {c : MapCall} (hc : c.Aligned) (hphys : c.phys < 2 ^ 52) {a : Nat}
    (ha : c.Covers a) :
    (leafAddress c.leaf.1 c.leaf.2 a, c.leaf.2 % 2 ^ 12) = c.translation a := by
  have hv := hc.virt
  have hp := hc.phys
  rw [leafAddress_call hphys, leaf_flags hc.word]
  refine Prod.ext ?_ rfl
  show c.phys / c.bytes * c.bytes + a % c.bytes = c.phys + (a - c.virt)
  unfold MapCall.Covers at ha
  unfold MapCall.bytes at hv hp ha ⊢
  by_cases h : c.Huge
  · rw [if_pos h] at hv hp ha ⊢
    omega
  · rw [if_neg h] at hv hp ha ⊢
    simp only [pageSize] at hv hp ha ⊢
    omega

/-- What an accepted call does to the leaf that translates an address. -/
theorem walkPage_mapStep {m : Machine} (hok : TablesOk m) {c : MapCall} (hc : c.Aligned)
    (hacc : exceedsCpu m c.phys = false) (hsmall : ¬ c.SplitsHuge m)
    (hlog : TablesGranted (mapStep m c)) :
    TablesOk (mapStep m c) ∧
      ∀ a, Canonical a → walkPage (mapStep m c).mem m.root (a / pageSize)
        = if c.Covers a then some c.leaf else walkPage m.mem m.root (a / pageSize) := by
  unfold mapStep at hlog ⊢
  by_cases h : c.Huge
  · obtain ⟨hok', hwalk⟩ := pagerMap_huge hok hacc hc.word ((and_huge_ne _).mp h) hlog
    refine ⟨hok', fun a ha => ?_⟩
    have hiff := covers_huge hc h ha
    unfold MapCall.leaf
    rw [hwalk, if_pos h]
    by_cases hcov : c.Covers a
    · rw [if_pos hcov, if_pos (hiff.mp hcov)]
    · rw [if_neg hcov, if_neg (fun hn => hcov (hiff.mpr hn))]
  · have hbit : c.flags / 128 % 2 = 0 := by
      have := mt (and_huge_ne c.flags).mpr h
      omega
    have hno : hugeAt m.mem m.root (c.virt / 4096) = false :=
      Bool.not_eq_true _ ▸ fun hh => hsmall ⟨hacc, h, hh⟩
    obtain ⟨hok', hwalk⟩ := pagerMap_page hok hacc hc.word hbit hno hlog
    refine ⟨hok', fun a ha => ?_⟩
    have hiff := covers_page hc h ha
    unfold MapCall.leaf
    rw [hwalk, if_neg h]
    by_cases hcov : c.Covers a
    · rw [if_pos hcov, if_pos (hiff.mp hcov)]
    · rw [if_neg hcov, if_neg (fun hn => hcov (hiff.mpr hn))]

/-- What any call, accepted or not, does to the leaf that translates an
    address. -/
theorem walkPage_call {m : Machine} (hok : TablesOk m) (hbits : m.cpuPhysBits ≤ 52) {c : MapCall}
    (hc : c.Aligned) (hsmall : ¬ c.SplitsHuge m) (hlog : TablesGranted (mapStep m c)) :
    TablesOk (mapStep m c) ∧
      ∀ a, Canonical a → walkPage (mapStep m c).mem m.root (a / pageSize)
        = if c.phys < 2 ^ m.cpuPhysBits ∧ c.Covers a then some c.leaf
          else walkPage m.mem m.root (a / pageSize) := by
  have hexceeds := exceedsCpu_eq hbits hc.word
  by_cases hbig : 2 ^ m.cpuPhysBits ≤ c.phys
  · -- rejected: the tables do not change
    have hsame : mapStep m c = m := by
      unfold mapStep
      rw [pagerMap_rejected (hexceeds.trans (decide_eq_true hbig))]
    rw [hsame]
    refine ⟨hok, fun a _ => ?_⟩
    rw [if_neg (fun hh => absurd hh.1 (Nat.not_lt.mpr hbig))]
  · obtain ⟨hok', hwalk⟩ :=
      walkPage_mapStep hok hc (hexceeds.trans (decide_eq_false hbig)) hsmall hlog
    refine ⟨hok', fun a ha => ?_⟩
    rw [hwalk a ha]
    by_cases hcov : c.Covers a
    · rw [if_pos hcov, if_pos ⟨Nat.lt_of_not_le hbig, hcov⟩]
    · rw [if_neg hcov, if_neg (fun hh => hcov hh.2)]

/-! ## The summary of a history -/

theorem lastCovering_append (bits : Nat) (calls calls' : List MapCall) (a : Nat) :
    lastCovering bits (calls ++ calls') a
      = (lastCovering bits calls' a).or (lastCovering bits calls a) := by
  unfold lastCovering
  rw [List.reverse_append, List.find?_append]

theorem lastCovering_cons (bits : Nat) (c : MapCall) (calls : List MapCall) (a : Nat) :
    lastCovering bits (c :: calls) a
      = (lastCovering bits calls a).or
          (if c.phys < 2 ^ bits ∧ c.Covers a then some c else none) := by
  rw [show c :: calls = [c] ++ calls from rfl, lastCovering_append]
  congr 1
  by_cases h : c.phys < 2 ^ bits ∧ c.Covers a
  · rw [if_pos h]
    exact List.find?_cons_of_pos (decide_eq_true h)
  · rw [if_neg h]
    exact List.find?_cons_of_neg (fun hc => h (of_decide_eq_true hc))

theorem lastCovering_mem {bits : Nat} {calls : List MapCall} {a : Nat} {c : MapCall}
    (h : lastCovering bits calls a = some c) :
    c ∈ calls ∧ c.phys < 2 ^ bits ∧ c.Covers a := by
  unfold lastCovering at h
  have hp := List.find?_some h
  rw [decide_eq_true_eq] at hp
  exact ⟨List.mem_reverse.mp (List.mem_of_find?_eq_some h), hp⟩

/-- The calls of a history give each address the leaf of the last one that
    covers it, and leave the other addresses their leaves. -/
theorem walkPage_exec {m : Machine} (hok : TablesOk m) (hbits : m.cpuPhysBits ≤ 52)
    {calls : List MapCall} (hc : ∀ c ∈ calls, c.Aligned)
    (hsmall : Along mapStep (fun m c => ¬ c.SplitsHuge m) m calls)
    (hlog : Along mapStep (fun m c => TablesGranted (mapStep m c)) m calls) :
    TablesOk (exec mapStep m calls) ∧
      ∀ a, Canonical a → walkPage (exec mapStep m calls).mem m.root (a / pageSize)
        = ((lastCovering m.cpuPhysBits calls a).map MapCall.leaf).or
            (walkPage m.mem m.root (a / pageSize)) := by
  induction calls generalizing m with
  | nil => exact ⟨hok, fun a _ => rfl⟩
  | cons c calls ih =>
      have hregs := sameRegs_mapStep m c
      obtain ⟨hok1, hwalk1⟩ := walkPage_call hok hbits (hc c List.mem_cons_self) hsmall.1 hlog.1
      obtain ⟨hok2, hwalk2⟩ := ih hok1 (by rw [hregs.cpuPhysBits]; exact hbits)
        (fun c' hc' => hc c' (List.mem_cons_of_mem c hc')) hsmall.2 hlog.2
      rw [hregs.root, hregs.cpuPhysBits] at hwalk2
      refine ⟨hok2, fun a ha => ?_⟩
      rw [exec_cons, hwalk2 a ha, hwalk1 a ha, lastCovering_cons]
      cases lastCovering m.cpuPhysBits calls a with
      | some c' => rfl
      | none =>
          by_cases hcov : c.phys < 2 ^ m.cpuPhysBits ∧ c.Covers a
          · rw [if_pos hcov, if_pos hcov]
            rfl
          · rw [if_neg hcov, if_neg hcov]
            rfl

/-- A history meets no 2 MiB leaf with a 4 KiB call, when none of its 4 KiB
    calls is in a slot that is huge-mapped at first or by an earlier call. -/
theorem along_not_splitsHuge {m : Machine} (hok : TablesOk m) (hbits : m.cpuPhysBits ≤ 52)
    {calls : List MapCall} (hc : ∀ c ∈ calls, c.Aligned)
    (hfirst : ∀ c ∈ calls, ¬ c.Huge → hugeAt m.mem m.root (c.virt / pageSize) = false)
    (hpair : calls.Pairwise (fun c' c => c'.Huge → ¬ c.Huge → ¬ c'.Covers c.virt))
    (hlog : Along mapStep (fun m c => TablesGranted (mapStep m c)) m calls) :
    Along mapStep (fun m c => ¬ c.SplitsHuge m) m calls := by
  induction calls generalizing m with
  | nil => trivial
  | cons c calls ih =>
      have hregs := sameRegs_mapStep m c
      have hsmall : ¬ c.SplitsHuge m := by
        rintro ⟨-, hpage, hhuge⟩
        rw [hfirst c List.mem_cons_self hpage] at hhuge
        cases hhuge
      obtain ⟨hok1, hwalk1⟩ := walkPage_call hok hbits (hc c List.mem_cons_self) hsmall hlog.1
      obtain ⟨hpair1, hpairs⟩ := List.pairwise_cons.mp hpair
      refine ⟨hsmall, ih hok1 (by rw [hregs.cpuPhysBits]; exact hbits)
        (fun c' hc' => hc c' (List.mem_cons_of_mem c hc')) ?_ hpairs hlog.2⟩
      intro c' hc' hpage
      have hmem := List.mem_cons_of_mem c hc'
      have hleaf := hwalk1 c'.virt (hc c' hmem).canonical
      rw [hregs.root]
      by_cases hcov : c.phys < 2 ^ m.cpuPhysBits ∧ c.Covers c'.virt
      · rw [if_pos hcov] at hleaf
        have hsmaller : ¬ c.Huge := fun hhuge => hpair1 c' hc' hhuge hpage hcov.2
        unfold MapCall.leaf at hleaf
        rw [if_neg hsmaller] at hleaf
        unfold hugeAt
        rw [hleaf]
        rfl
      · rw [if_neg hcov] at hleaf
        rw [hugeAt_congr hleaf]
        exact hfirst c' hmem hpage

/-! ## The invariant of a history -/

/-- The tables hold the summary of the history. -/
structure HistoryOk (m₀ m : Machine) (done : List MapCall) : Prop where
  ok : TablesOk m
  regs : SameRegs m₀ m
  summary : ∀ a, Canonical a → walkPage m.mem m₀.root (a / pageSize)
    = (lastCovering m₀.cpuPhysBits done a).map MapCall.leaf

/-- More calls. -/
theorem historyOk_exec {m₀ m : Machine} {done calls : List MapCall} (h : HistoryOk m₀ m done)
    (hbits : m₀.cpuPhysBits ≤ 52) (hc : ∀ c ∈ calls, c.Aligned)
    (hsmall : Along mapStep (fun m c => ¬ c.SplitsHuge m) m calls)
    (hlog : Along mapStep (fun m c => TablesGranted (mapStep m c)) m calls) :
    HistoryOk m₀ (exec mapStep m calls) (done ++ calls) := by
  obtain ⟨hok, hwalk⟩ :=
    walkPage_exec h.ok (by rw [h.regs.cpuPhysBits]; exact hbits) hc hsmall hlog
  rw [h.regs.root, h.regs.cpuPhysBits] at hwalk
  refine ⟨hok, h.regs.trans
    (invariant (I := fun m' => SameRegs m m') (fun m' c h' _ => h'.trans (sameRegs_mapStep m' c))
      (SameRegs.refl m) hsmall), fun a ha => ?_⟩
  rw [hwalk a ha, h.summary a ha, lastCovering_append]
  cases lastCovering m₀.cpuPhysBits calls a with
  | some c => rfl
  | none => rfl

/-- After any history of calls on an empty PML4, the processor's walk of an
    address is the translation of the last accepted call that covers it. -/
theorem hwWalk_history {m : Machine} (h : EmptyPml4 m) (hbits : m.cpuPhysBits ≤ 52)
    {calls : List MapCall} (hc : ∀ c ∈ calls, c.Aligned)
    (hlog : TablesGranted (exec mapStep m calls))
    (hsmall : Along mapStep (fun m c => ¬ c.SplitsHuge m) m calls) {a : Nat}
    (ha : Canonical a) :
    hwWalk (exec mapStep m calls).mem m.root a
      = (lastCovering m.cpuPhysBits calls a).map (fun c => c.translation a) := by
  have h0 : HistoryOk m m [] := ⟨h.tablesOk, SameRegs.refl m, fun a _ => h.walkPage _⟩
  have hall := historyOk_exec h0 hbits hc hsmall (along_granted hlog).2
  unfold hwWalk
  rw [hall.summary a ha, Option.map_map]
  show Option.map _ (lastCovering m.cpuPhysBits calls a) = _
  cases hlast : lastCovering m.cpuPhysBits calls a with
  | none => rfl
  | some c =>
      obtain ⟨hmem, hphys, hcov⟩ := lastCovering_mem hlast
      have hword : c.phys < 2 ^ 52 :=
        Nat.lt_of_lt_of_le hphys (Nat.pow_le_pow_right (by decide) hbits)
      exact congrArg some (leafAddress_leaf (hc c hmem) hword hcov)

/-- RAM from 0x10000 to 0x20000, with an empty PML4 in its first page. -/
def smallMachine : Machine :=
  { avmf :=
      { avmfBase := fun i => if i = 0 then 0x10000 else 0
        avmfLimit := fun i => if i = 0 then 0x20000 else 0
        avmfBitmap := fun w => if w = 0 then 2 ^ 16 else 0
        lastAllocPage := 17 }
    firmwarePml4 := 0x10000
    mappedPml4 := 0x10000
    cpuPhysBits := 36
    tableLog := [0x10000] }

theorem smallMachine_empty : EmptyPml4 smallMachine :=
  ⟨fun _ => rfl, by decide, by decide, by decide, fun _ hf => nomatch hf⟩

/-- A 4 KiB page and then a 2 MiB page over it. -/
theorem hwWalk_history_remap :
    hwWalk (exec mapStep smallMachine [⟨0x201000, 0x5000, 3⟩, ⟨0x200000, 0x600000, 0x83⟩]).mem
      smallMachine.root 0x201123 = some (0x601123, 0x83) := by
  refine (hwWalk_history smallMachine_empty (by decide) ?_ ?_ ?_ ?_).trans (by decide)
  · intro c hc
    rcases List.mem_cons.mp hc with rfl | hc
    · exact ⟨by decide, by decide, by decide, by decide⟩
    · rw [List.mem_singleton.mp hc]
      exact ⟨by decide, by decide, by decide, by decide⟩
  · decide +kernel
  · decide +kernel
  · decide

end Pfi
