import Pfi.PagerRange

/-! # PCIe configuration space

    `pcie_init` maps one window for each entry of the MCFG table and
    `pcie_read` and `pcie_write` reach a function through the window of the
    first entry whose bus range holds its bus.  The window is placed by the
    segment number of the entry alone: two bus ranges of one segment share it,
    and the later mapping replaces the earlier one page by page.

    The mapping loop is a history of `pager_map` calls (`pcieInit_eq_exec`),
    each at an offset of a window (`CallAt`); the last call that covers an
    address decides where an access goes.  So every function is reached when
    the entries of one segment have one base address, every window ends below
    the processor's limit and no 4 KiB call meets a 2 MiB leaf of an earlier
    entry, and the first two are also necessary (`ecam_reaches`). -/

namespace Pfi

open Words Run

/-! ## The table -/

abbrev pcieVirtBase : Nat := aosPCIeVirtBase

/-- `struct acpi_mcfg_entry`. -/
structure AcpiMcfgEntry where
  baseAddr : Nat
  pcieSegment : Nat
  startBus : Nat
  endBus : Nat
  segmentWord : pcieSegment < 2 ^ 16 := by decide
  startByte : startBus < 256 := by decide
  endByte : endBus < 256 := by decide
deriving DecidableEq

/-- `bus_count`, a `uint32_t`. -/
def AcpiMcfgEntry.busCount (e : AcpiMcfgEntry) : Nat :=
  (e.endBus + 2 ^ 32 - e.startBus + 1) % 2 ^ 32

def AcpiMcfgEntry.size (e : AcpiMcfgEntry) : Nat := e.busCount <<< 20

def AcpiMcfgEntry.virtBase (e : AcpiMcfgEntry) : Nat :=
  add64 pcieVirtBase (e.pcieSegment <<< 28)

/-- `bus >= e->start_bus && bus <= e->end_bus`. -/
def AcpiMcfgEntry.HasBus (e : AcpiMcfgEntry) (bus : Nat) : Prop :=
  e.startBus ≤ bus ∧ bus ≤ e.endBus

instance (e : AcpiMcfgEntry) (bus : Nat) : Decidable (e.HasBus bus) :=
  inferInstanceAs (Decidable (_ ∧ _))

/-! ## Mapping -/

/-- One turn of the mapping loop. -/
def mapSegment (m : Machine) (e : AcpiMcfgEntry) : Machine :=
  pagerMapRange m e.virtBase e.baseAddr e.size (pagePresent ||| pageRw ||| pagePcd)

/-- The mapping loop of `pcie_init`, over the first `mcfg_num_segs` entries of
    `mcfg_table`; without a table nothing is mapped. -/
def pcieInit (m : Machine) (mcfg : Option (List AcpiMcfgEntry)) : Machine :=
  exec mapSegment m (mcfg.getD [])

/-! ## Access -/

/-- `get_segment`: the index of the first entry that has the bus, `0` if none
    has. -/
def getSegment (mcfg : Option (List AcpiMcfgEntry)) (bus : Nat) : Nat :=
  ((mcfg.getD []).findIdx? (fun e => decide (e.HasBus bus))).getD 0

/-- `virt_addr` of `pcie_read` and `pcie_write`. -/
def ecamAddress (e : AcpiMcfgEntry) (bus slot func offset : Nat) : Nat :=
  add64 (add64 (add64 (add64 e.virtBase ((add64 bus (2 ^ 64 - e.startBus) <<< 20) % 2 ^ 64))
    (slot <<< 15)) (func <<< 12)) offset

/-- `addr` of the legacy access. -/
def legacyAddress (bus slot func offset : Nat) : Nat :=
  1 <<< 31 ||| bus <<< 16 ||| slot <<< 11 ||| func <<< 8 ||| offset &&& 0xFC

/-- What a configuration access does on the bus. -/
inductive BusOp where
  | load (virt : Nat)
  | store (virt value : Nat)
  | outl (port value : Nat)
  | inl (port : Nat)
deriving DecidableEq

/-- `pcie_read`. -/
def pcieRead (mcfg : Option (List AcpiMcfgEntry)) (bus slot func offset : Nat) : List BusOp :=
  match (mcfg.getD [])[getSegment mcfg bus]? with
  | some e => [.load (ecamAddress e bus slot func offset)]
  | none => [.outl 0xCF8 (legacyAddress bus slot func offset), .inl 0xCFC]

/-- `pcie_write`. -/
def pcieWrite (mcfg : Option (List AcpiMcfgEntry)) (bus slot func offset value : Nat) :
    List BusOp :=
  match (mcfg.getD [])[getSegment mcfg bus]? with
  | some e => [.store (ecamAddress e bus slot func offset) value]
  | none => [.outl 0xCF8 (legacyAddress bus slot func offset), .outl 0xCFC value]

/-! ## Tables with disjoint bus ranges -/

structure McfgOk (bits : Nat) (entries : List AcpiMcfgEntry) : Prop where
  ordered : ∀ e ∈ entries, e.startBus ≤ e.endBus
  aligned : ∀ e ∈ entries, e.baseAddr % 0x200000 = 0
  below : ∀ e ∈ entries, e.baseAddr < 2 ^ bits
  disjoint : entries.Pairwise (fun e f => e.endBus < f.startBus ∨ f.endBus < e.startBus)

section Entry

variable {bits : Nat} {entries : List AcpiMcfgEntry} {e : AcpiMcfgEntry}

theorem AcpiMcfgEntry.virtBase_eq (e : AcpiMcfgEntry) :
    e.virtBase = pcieVirtBase + e.pcieSegment * 2 ^ 28 := by
  have hseg := e.segmentWord
  unfold virtBase
  rw [Nat.shiftLeft_eq, add64_of_lt]
  simp only [pcieVirtBase, aosPCIeVirtBase]
  omega

theorem AcpiMcfgEntry.busCount_eq (hord : e.startBus ≤ e.endBus) :
    e.busCount = e.endBus - e.startBus + 1 := by
  have hend := e.endByte
  unfold busCount
  omega

theorem McfgOk.busCount_eq (h : McfgOk bits entries) (he : e ∈ entries) :
    e.busCount = e.endBus - e.startBus + 1 :=
  AcpiMcfgEntry.busCount_eq (h.ordered e he)

theorem AcpiMcfgEntry.size_eq (e : AcpiMcfgEntry) : e.size = e.busCount * 2 ^ 20 :=
  Nat.shiftLeft_eq _ _

theorem AcpiMcfgEntry.size_le (hord : e.startBus ≤ e.endBus) : e.size ≤ 2 ^ 28 := by
  have hend := e.endByte
  rw [e.size_eq, busCount_eq hord]
  omega

theorem McfgOk.size_le (h : McfgOk bits entries) (he : e ∈ entries) : e.size ≤ 2 ^ 28 :=
  AcpiMcfgEntry.size_le (h.ordered e he)

/-- Windows of different segments are disjoint. -/
theorem AcpiMcfgEntry.segment_eq (e f : AcpiMcfgEntry) {o o' : Nat} (ho : o < 2 ^ 28)
    (ho' : o' < 2 ^ 28) (h : e.virtBase + o = f.virtBase + o') :
    e.pcieSegment = f.pcieSegment ∧ o = o' := by
  rw [e.virtBase_eq, f.virtBase_eq] at h
  omega

theorem AcpiMcfgEntry.canonical (e : AcpiMcfgEntry) {o : Nat} (ho : o < 2 ^ 28) :
    Canonical (e.virtBase + o) := by
  have hseg := e.segmentWord
  rw [e.virtBase_eq]
  right
  simp only [pcieVirtBase, aosPCIeVirtBase]
  omega

/-- An entry is the only one that has a bus of its range. -/
theorem McfgOk.hasBus_unique (h : McfgOk bits entries) {f : AcpiMcfgEntry} {bus : Nat}
    (he : e ∈ entries) (hf : f ∈ entries) (heb : e.HasBus bus) (hfb : f.HasBus bus) : f = e := by
  have hone : entries.Pairwise (fun e f => e.HasBus bus → f.HasBus bus → f = e) := by
    refine h.disjoint.imp (fun hd hx hy => ?_)
    obtain ⟨h1, h2⟩ := hx
    obtain ⟨h3, h4⟩ := hy
    omega
  exact List.Pairwise.forall_of_forall_of_flip (fun _ _ _ _ => rfl) hone
    (hone.imp (fun hd hy hx => (hd hx hy).symm)) he hf heb hfb

/-- The lookup finds it. -/
theorem McfgOk.getSegment_eq (h : McfgOk bits entries) {bus : Nat} (he : e ∈ entries)
    (heb : e.HasBus bus) : entries[getSegment (some entries) bus]? = some e := by
  unfold getSegment
  rw [show (some entries).getD [] = entries from rfl]
  cases hfind : entries.findIdx? (fun e => decide (e.HasBus bus)) with
  | none =>
      rw [List.findIdx?_eq_none_iff] at hfind
      have := hfind e he
      rw [decide_eq_false_iff_not] at this
      exact absurd heb this
  | some i =>
      obtain ⟨hi, hbus, -⟩ := List.findIdx?_eq_some_iff_getElem.mp hfind
      show entries[i]? = some e
      rw [List.getElem?_eq_getElem hi,
        h.hasBus_unique he (List.getElem_mem hi) heb (of_decide_eq_true hbus)]

/-- The offset of a configuration register in the window of its entry. -/
def ecamOffset (e : AcpiMcfgEntry) (bus slot func offset : Nat) : Nat :=
  (bus - e.startBus) * 2 ^ 20 + slot * 2 ^ 15 + func * 2 ^ 12 + offset

/-- It lies in the window. -/
theorem AcpiMcfgEntry.ecamOffset_lt {bus slot func offset : Nat} (hbus : e.HasBus bus)
    (hslot : slot < 32) (hfunc : func < 8) (hoffset : offset < 256) :
    ecamOffset e bus slot func offset < e.size := by
  obtain ⟨hlo, hhi⟩ := hbus
  rw [e.size_eq, busCount_eq (Nat.le_trans hlo hhi)]
  unfold ecamOffset
  omega

theorem AcpiMcfgEntry.ecamAddress_eq {bus slot func offset : Nat} (hbus : e.HasBus bus)
    (hslot : slot < 32) (hfunc : func < 8) (hoffset : offset < 256) :
    ecamAddress e bus slot func offset = e.virtBase + ecamOffset e bus slot func offset := by
  have hlt := ecamOffset_lt hbus hslot hfunc hoffset
  have hsize := size_le (Nat.le_trans hbus.1 hbus.2)
  have hseg := e.segmentWord
  have hend := e.endByte
  obtain ⟨hlo, hhi⟩ := hbus
  have hroom : e.virtBase + 2 ^ 28 ≤ 2 ^ 64 := by
    rw [e.virtBase_eq]
    simp only [pcieVirtBase, aosPCIeVirtBase]
    omega
  have hsub : add64 bus (2 ^ 64 - e.startBus) = bus - e.startBus := by
    unfold add64
    omega
  have hshift : (bus - e.startBus) * 2 ^ 20 < 2 ^ 64 := by omega
  unfold ecamOffset at hlt ⊢
  unfold ecamAddress
  generalize e.virtBase = v at hroom ⊢
  rw [hsub, Nat.shiftLeft_eq, Nat.shiftLeft_eq, Nat.shiftLeft_eq, Nat.mod_eq_of_lt hshift,
    add64_of_lt (a := v) (by omega), add64_of_lt (b := slot * 2 ^ 15) (by omega),
    add64_of_lt (b := func * 2 ^ 12) (by omega), add64_of_lt (by omega)]
  omega

end Entry

/-! ## The calls of a window -/

/-- A call of an aligned range maps the page at offset `o`: the 2 MiB page
    there, or a 4 KiB page of the last, incomplete slot. -/
structure CallAt (virt phys size o : Nat) (c : MapCall) : Prop where
  virt : c.virt = virt + o
  phys : c.phys = phys + o
  inside : o < size
  huge : c.Huge → o % 0x200000 = 0 ∧ o + 0x200000 ≤ size
  page : ¬ c.Huge → o % 4096 = 0 ∧ size < (o / 0x200000 + 1) * 0x200000

/-- The addresses of a range are aligned to 2 MiB, no sum wraps, and the caller
    does not ask for 2 MiB leaves. -/
structure WindowArgs (virt phys size flags : Nat) : Prop where
  virtSlot : virt % 0x200000 = 0
  physSlot : phys % 0x200000 = 0
  virtEnd : virt + size ≤ 2 ^ 64
  physEnd : phys + size ≤ 2 ^ 64
  length : size ≤ 2 ^ 48
  small : flags / 128 % 2 = 0

section Window

variable {virt phys size flags fuel offset : Nat} {c : MapCall}

/-- The first call from `offset` on. -/
theorem rangeCallsFrom_succ (h : WindowArgs virt phys size flags)
    (hoff : offset % 0x200000 = 0 ∨ offset % 4096 = 0 ∧ size < (offset / 0x200000 + 1) * 0x200000)
    (hlt : offset < size) :
    ∃ c offset', rangeCallsFrom virt phys size flags (fuel + 1) offset
        = c :: rangeCallsFrom virt phys size flags fuel offset' ∧
      CallAt virt phys size offset c ∧ offset' = offset + c.bytes ∧
      (offset' % 0x200000 = 0 ∨
        offset' % 4096 = 0 ∧ size < (offset' / 0x200000 + 1) * 0x200000) := by
  have hv := h.virtSlot
  have hp := h.physSlot
  have hve := h.virtEnd
  have hpe := h.physEnd
  have hlen := h.length
  simp only [rangeCallsFrom]
  rw [if_pos hlt, add64_of_lt (a := virt) (by omega), add64_of_lt (a := phys) (by omega)]
  by_cases hslot : 0x200000 ≤ size - offset ∧ (virt + offset) % 0x200000 = 0 ∧
      (phys + offset) % 0x200000 = 0
  · rw [if_pos hslot, add64_of_lt (by omega)]
    have hhuge : (MapCall.mk (virt + offset) (phys + offset) (flags ||| pageHuge)).Huge :=
      (and_huge_ne _).mpr (or_huge_bit flags)
    refine ⟨_, _, rfl, ⟨rfl, rfl, hlt, fun _ => by omega, fun hno => absurd hhuge hno⟩, ?_,
      by omega⟩
    unfold MapCall.bytes
    rw [if_pos hhuge]
  · rw [if_neg hslot, add64_of_lt (a := offset) (by simp only [pageSize]; omega)]
    have hpage : ¬ (MapCall.mk (virt + offset) (phys + offset) flags).Huge := by
      intro hhuge
      have hbit := (and_huge_ne flags).mp hhuge
      rw [h.small] at hbit
      cases hbit
    refine ⟨_, _, rfl, ⟨rfl, rfl, hlt, fun hhuge => absurd hhuge hpage, fun _ => by omega⟩, ?_,
      by simp only [pageSize]; omega⟩
    unfold MapCall.bytes
    rw [if_neg hpage]

/-- Every call of the range is at one of its offsets. -/
theorem rangeCallsFrom_callAt (h : WindowArgs virt phys size flags)
    (hoff : offset % 0x200000 = 0 ∨ offset % 4096 = 0 ∧ size < (offset / 0x200000 + 1) * 0x200000)
    (hc : c ∈ rangeCallsFrom virt phys size flags fuel offset) :
    ∃ o, CallAt virt phys size o c := by
  induction fuel generalizing offset with
  | zero => cases hc
  | succ fuel ih =>
      by_cases hlt : offset < size
      · obtain ⟨c₀, offset', hcalls, hat, -, hoff'⟩ :=
          @rangeCallsFrom_succ _ _ _ _ fuel _ h hoff hlt
        rw [hcalls] at hc
        rcases List.mem_cons.mp hc with rfl | hc
        · exact ⟨offset, hat⟩
        · exact ih hoff' hc
      · simp only [rangeCallsFrom] at hc
        rw [if_neg hlt] at hc
        cases hc

/-- Every offset of the range is in the page of a call. -/
theorem rangeCallsFrom_covers (h : WindowArgs virt phys size flags)
    (hoff : offset % 0x200000 = 0 ∨ offset % 4096 = 0 ∧ size < (offset / 0x200000 + 1) * 0x200000)
    (hfuel : size ≤ offset + 4096 * fuel) {o : Nat} (hlo : offset ≤ o) (ho : o < size) :
    ∃ c ∈ rangeCallsFrom virt phys size flags fuel offset, c.Covers (virt + o) := by
  induction fuel generalizing offset with
  | zero => exact absurd ho (by omega)
  | succ fuel ih =>
      obtain ⟨c₀, offset', hcalls, hat, hnext, hoff'⟩ :=
        @rangeCallsFrom_succ _ _ _ _ fuel _ h hoff (by omega)
      rw [hcalls]
      have hpage : 4096 ≤ c₀.bytes := by
        unfold MapCall.bytes
        split
        · decide
        · exact Nat.le_refl 4096
      by_cases hin : o < offset'
      · refine ⟨c₀, List.mem_cons_self, ?_⟩
        unfold MapCall.Covers
        rw [hat.virt]
        omega
      · obtain ⟨c, hc, hcov⟩ := ih hoff' (by omega) (by omega)
        exact ⟨c, List.mem_cons_of_mem c₀ hc, hcov⟩

end Window

/-! ## The loop -/

/-- The calls of the whole loop. -/
def ecamCalls (entries : List AcpiMcfgEntry) : List MapCall :=
  entries.flatMap (fun e => rangeCalls e.virtBase e.baseAddr e.size
    (pagePresent ||| pageRw ||| pagePcd))

theorem pcieInit_eq_exec (m : Machine) (entries : List AcpiMcfgEntry) :
    pcieInit m (some entries) = exec mapStep m (ecamCalls entries) := by
  show exec mapSegment m entries = _
  induction entries generalizing m with
  | nil => rfl
  | cons e entries ih =>
      rw [exec_cons, ih, mapSegment, pagerMapRange_eq_exec, ← exec_append]
      rfl

/-- Entries of one segment have one base address. -/
def SegmentsAgree (entries : List AcpiMcfgEntry) : Prop :=
  ∀ e ∈ entries, ∀ f ∈ entries, e.pcieSegment = f.pcieSegment → e.baseAddr = f.baseAddr

/-- Every window ends below the limit. -/
def WindowsFit (bits : Nat) (entries : List AcpiMcfgEntry) : Prop :=
  ∀ e ∈ entries, e.baseAddr + e.size ≤ 2 ^ bits

/-- No entry with an odd number of buses comes after a longer one of its
    segment: its last 1 MiB would be mapped by 4 KiB calls, in a slot that has
    a 2 MiB leaf. -/
def KeepsLeaves (entries : List AcpiMcfgEntry) : Prop :=
  entries.Pairwise (fun e f => e.pcieSegment = f.pcieSegment → f.busCount % 2 = 1 →
    e.busCount ≤ f.busCount)

/-- The windows are not mapped. -/
def EmptyWindows (m : Machine) (entries : List AcpiMcfgEntry) : Prop :=
  ∀ e ∈ entries, ∀ o, o < e.size → walkPage m.mem m.root ((e.virtBase + o) / pageSize) = none

section Loop

variable {m : Machine} {bits : Nat} {entries : List AcpiMcfgEntry} {c c' : MapCall}
  {e f : AcpiMcfgEntry} {o o' : Nat}

theorem McfgOk.windowArgs (h : McfgOk bits entries) (hbits : bits ≤ 52) (he : e ∈ entries) :
    WindowArgs e.virtBase e.baseAddr e.size (pagePresent ||| pageRw ||| pagePcd) := by
  have hsize := h.size_le he
  have hseg := e.segmentWord
  have hword : e.baseAddr < 2 ^ 52 :=
    Nat.lt_of_lt_of_le (h.below e he) (Nat.pow_le_pow_right (by decide) hbits)
  have hbase := e.virtBase_eq
  simp only [pcieVirtBase, aosPCIeVirtBase] at hbase
  exact ⟨by omega, h.aligned e he, by omega, by omega, by omega, by decide⟩

theorem McfgOk.callAt (h : McfgOk bits entries) (hbits : bits ≤ 52) (he : e ∈ entries)
    (hc : c ∈ rangeCalls e.virtBase e.baseAddr e.size (pagePresent ||| pageRw ||| pagePcd)) :
    ∃ o, CallAt e.virtBase e.baseAddr e.size o c :=
  rangeCallsFrom_callAt (h.windowArgs hbits he) (Or.inl rfl) hc

theorem McfgOk.mem_ecamCalls (h : McfgOk bits entries) (hbits : bits ≤ 52)
    (hc : c ∈ ecamCalls entries) :
    ∃ e ∈ entries, ∃ o, CallAt e.virtBase e.baseAddr e.size o c := by
  obtain ⟨e, he, hce⟩ := List.mem_flatMap.mp hc
  exact ⟨e, he, h.callAt hbits he hce⟩

theorem McfgOk.call_aligned (h : McfgOk bits entries) (hbits : bits ≤ 52) (he : e ∈ entries)
    (hat : CallAt e.virtBase e.baseAddr e.size o c) : c.Aligned := by
  have hargs := h.windowArgs hbits he
  have hsize := h.size_le he
  have hin := hat.inside
  have hv := hargs.virtSlot
  have hp := hargs.physSlot
  have hend := hargs.physEnd
  refine ⟨?_, ?_, ?_, ?_⟩
  · rw [hat.virt]
    exact e.canonical (by omega)
  · rw [hat.phys]
    omega
  · rw [hat.virt]
    unfold MapCall.bytes
    by_cases hhuge : c.Huge
    · have := hat.huge hhuge
      rw [if_pos hhuge]
      omega
    · have := hat.page hhuge
      rw [if_neg hhuge]
      simp only [pageSize]
      omega
  · rw [hat.phys]
    unfold MapCall.bytes
    by_cases hhuge : c.Huge
    · have := hat.huge hhuge
      rw [if_pos hhuge]
      omega
    · have := hat.page hhuge
      rw [if_neg hhuge]
      simp only [pageSize]
      omega

/-- The page of a call lies in its window. -/
theorem CallAt.page_end {virt phys size : Nat} (hat : CallAt virt phys size o c)
    (hpages : size % 4096 = 0) : o + c.bytes ≤ size := by
  have hin := hat.inside
  unfold MapCall.bytes
  by_cases hhuge : c.Huge
  · rw [if_pos hhuge]
    exact (hat.huge hhuge).2
  · have := (hat.page hhuge).1
    rw [if_neg hhuge]
    simp only [pageSize]
    omega

/-- A 4 KiB call in the slot of an earlier 2 MiB call. -/
theorem McfgOk.split_cases (h : McfgOk bits entries) (he : e ∈ entries) (hf : f ∈ entries)
    (hat' : CallAt e.virtBase e.baseAddr e.size o' c')
    (hat : CallAt f.virtBase f.baseAddr f.size o c) (hhuge : c'.Huge) (hpage : ¬ c.Huge)
    (hcov : c'.Covers c.virt) :
    e.pcieSegment = f.pcieSegment ∧ f.busCount % 2 = 1 ∧ f.busCount < e.busCount := by
  have hsize' := h.size_le he
  have hsize := h.size_le hf
  have hin' := (hat'.huge hhuge).2
  have hslot' := (hat'.huge hhuge).1
  have hin := hat.inside
  have hlast := (hat.page hpage).2
  unfold MapCall.Covers MapCall.bytes at hcov
  rw [if_pos hhuge, hat.virt, hat'.virt] at hcov
  obtain ⟨hseg, ho⟩ := @AcpiMcfgEntry.segment_eq e f
    (o' + (f.virtBase + o - (e.virtBase + o'))) o (by omega) (by omega) (by omega)
  rw [f.size_eq] at hlast hin
  rw [e.size_eq] at hin'
  exact ⟨hseg, by omega, by omega⟩

theorem McfgOk.calls_pairwise (h : McfgOk bits entries) (hbits : bits ≤ 52)
    (hkeep : KeepsLeaves entries) :
    (ecamCalls entries).Pairwise (fun c' c => c'.Huge → ¬ c.Huge → ¬ c'.Covers c.virt) := by
  refine List.pairwise_flatMap.mpr ⟨fun e he => ?_, ?_⟩
  · -- within one window
    refine List.pairwise_of_forall_mem_list (fun c' hc' c hc hhuge hpage hcov => ?_)
    obtain ⟨o', hat'⟩ := h.callAt hbits he hc'
    obtain ⟨o, hat⟩ := h.callAt hbits he hc
    exact Nat.lt_irrefl _ (h.split_cases he he hat' hat hhuge hpage hcov).2.2
  · refine (List.Pairwise.and_mem.mp hkeep).imp ?_
    rintro e f ⟨he, hf, hef⟩ c' hc' c hc hhuge hpage hcov
    obtain ⟨o', hat'⟩ := h.callAt hbits he hc'
    obtain ⟨o, hat⟩ := h.callAt hbits hf hc
    obtain ⟨hseg, hodd, hlt⟩ := h.split_cases he hf hat' hat hhuge hpage hcov
    exact absurd (hef hseg hodd) (Nat.not_le.mpr hlt)

/-- A window is translated by the last call that covers the address. -/
theorem McfgOk.hwWalk_pcieInit (h : McfgOk m.cpuPhysBits entries) (hok : TablesOk m)
    (hbits : m.cpuPhysBits ≤ 52) (hempty : EmptyWindows m entries)
    (hkeep : KeepsLeaves entries) (hlog : TablesGranted (pcieInit m (some entries)))
    (he : e ∈ entries) (ho : o < e.size) :
    hwWalk (pcieInit m (some entries)).mem m.root (e.virtBase + o)
      = (lastCovering m.cpuPhysBits (ecamCalls entries) (e.virtBase + o)).map
          (fun c => c.translation (e.virtBase + o)) := by
  rw [pcieInit_eq_exec] at hlog ⊢
  have haligned : ∀ c ∈ ecamCalls entries, c.Aligned := by
    intro c hc
    obtain ⟨f, hf, o', hat⟩ := h.mem_ecamCalls hbits hc
    exact h.call_aligned hbits hf hat
  have hfirst : ∀ c ∈ ecamCalls entries, ¬ c.Huge →
      hugeAt m.mem m.root (c.virt / pageSize) = false := by
    intro c hc _
    obtain ⟨f, hf, o', hat⟩ := h.mem_ecamCalls hbits hc
    have hnone := hempty f hf o' hat.inside
    rw [← hat.virt] at hnone
    unfold hugeAt
    rw [hnone]
  have hlogs := (along_granted hlog).2
  have hsmall := along_not_splitsHuge hok hbits haligned hfirst (h.calls_pairwise hbits hkeep) hlogs
  obtain ⟨-, hwalk⟩ := walkPage_exec hok hbits haligned hsmall hlogs
  have hsize := h.size_le he
  unfold hwWalk
  rw [hwalk _ (e.canonical (by omega)), hempty e he o ho]
  cases hlast : lastCovering m.cpuPhysBits (ecamCalls entries) (e.virtBase + o) with
  | none => rfl
  | some c =>
      obtain ⟨hmem, hphys, hcov⟩ := lastCovering_mem hlast
      have hword : c.phys < 2 ^ 52 :=
        Nat.lt_of_lt_of_le hphys (Nat.pow_le_pow_right (by decide) hbits)
      exact congrArg some (leafAddress_leaf (haligned c hmem) hword hcov)

/-- The call that covers an address of a window belongs to a window of the same
    segment, and maps the address at the same offset. -/
theorem McfgOk.covering (h : McfgOk bits entries) (hbits : bits ≤ 52) (he : e ∈ entries)
    (ho : o < e.size) (hlast : lastCovering bits (ecamCalls entries) (e.virtBase + o) = some c) :
    ∃ f ∈ entries, f.pcieSegment = e.pcieSegment ∧ o < f.size ∧
      c.translation (e.virtBase + o) = (f.baseAddr + o, c.flags % 4096 ||| pagePresent) := by
  obtain ⟨hmem, -, hcov⟩ := lastCovering_mem hlast
  obtain ⟨f, hf, o', hat⟩ := h.mem_ecamCalls hbits hmem
  have hsize := h.size_le he
  have hsize' := h.size_le hf
  have hend := hat.page_end (by rw [f.size_eq]; omega)
  obtain ⟨hlo, hhi⟩ := hcov
  rw [hat.virt] at hlo hhi
  obtain ⟨hseg, hoff⟩ := @AcpiMcfgEntry.segment_eq f e
    (o' + (e.virtBase + o - (f.virtBase + o'))) o (by omega) (by omega) (by omega)
  refine ⟨f, hf, hseg, by omega, ?_⟩
  unfold MapCall.translation
  rw [hat.phys, hat.virt]
  refine Prod.ext ?_ rfl
  show f.baseAddr + o' + (e.virtBase + o - (f.virtBase + o')) = f.baseAddr + o
  omega

/-- When every window fits, a call covers every address of a window. -/
theorem McfgOk.covered (h : McfgOk bits entries) (hbits : bits ≤ 52)
    (hfit : WindowsFit bits entries) (he : e ∈ entries) (ho : o < e.size) :
    ∃ c, lastCovering bits (ecamCalls entries) (e.virtBase + o) = some c := by
  obtain ⟨c, hc, hcov⟩ := @rangeCallsFrom_covers _ _ _ _ (e.size / pageSize + 1) _
    (h.windowArgs hbits he) (Or.inl rfl) (by simp only [pageSize]; omega) _ (Nat.zero_le o) ho
  obtain ⟨o', hat⟩ := h.callAt hbits he hc
  have hphys : c.phys < 2 ^ bits := by
    have := hfit e he
    have := hat.inside
    rw [hat.phys]
    omega
  refine Option.isSome_iff_exists.mp (List.find?_isSome.mpr ⟨c, ?_, decide_eq_true ⟨hphys, hcov⟩⟩)
  exact List.mem_reverse.mpr (List.mem_flatMap.mpr ⟨e, he, hc⟩)

end Loop

/-! ## Reaching the functions -/

/-- For every bus of an entry, `pcie_read` and `pcie_write` access memory, at an
    address that is translated to the register in the entry's region. -/
def Reaches (m : Machine) (entries : List AcpiMcfgEntry) : Prop :=
  ∀ e ∈ entries, ∀ bus slot func offset, e.HasBus bus → slot < 32 → func < 8 → offset < 256 →
    ∃ virt, pcieRead (some entries) bus slot func offset = [.load virt] ∧
      (∀ value, pcieWrite (some entries) bus slot func offset value = [.store virt value]) ∧
      (hwWalk m.mem m.root virt).map Prod.fst
        = some (e.baseAddr + (bus - e.startBus) * 2 ^ 20 + slot * 2 ^ 15 + func * 2 ^ 12 + offset)

section Reach

variable {m : Machine} {bits : Nat} {entries : List AcpiMcfgEntry} {e f : AcpiMcfgEntry}

/-- What the two access functions do for a bus of an entry. -/
theorem McfgOk.access (h : McfgOk bits entries) (he : e ∈ entries) {bus : Nat}
    (hbus : e.HasBus bus) (slot func offset : Nat) :
    pcieRead (some entries) bus slot func offset = [.load (ecamAddress e bus slot func offset)] ∧
      ∀ value, pcieWrite (some entries) bus slot func offset value
        = [.store (ecamAddress e bus slot func offset) value] := by
  have hfound := h.getSegment_eq he hbus
  unfold pcieRead pcieWrite
  rw [show (some entries).getD [] = entries from rfl, hfound]
  exact ⟨rfl, fun _ => rfl⟩

/-- All functions are reached when the windows translate every offset. -/
theorem McfgOk.reaches (h : McfgOk bits entries)
    (hall : ∀ e ∈ entries, ∀ o, o < e.size →
      (hwWalk m.mem m.root (e.virtBase + o)).map Prod.fst = some (e.baseAddr + o)) :
    Reaches m entries := by
  intro e he bus slot func offset hbus hslot hfunc hoffset
  obtain ⟨hread, hwrite⟩ := h.access he hbus slot func offset
  refine ⟨_, hread, hwrite, ?_⟩
  rw [AcpiMcfgEntry.ecamAddress_eq hbus hslot hfunc hoffset,
    hall e he _ (AcpiMcfgEntry.ecamOffset_lt hbus hslot hfunc hoffset)]
  unfold ecamOffset
  exact congrArg some (by omega)

/-- A reached function, at the offset of its bus. -/
theorem McfgOk.of_reaches (h : McfgOk bits entries) (hreach : Reaches m entries)
    (he : e ∈ entries) {bus : Nat} (hbus : e.HasBus bus) :
    (hwWalk m.mem m.root (e.virtBase + (bus - e.startBus) * 2 ^ 20)).map Prod.fst
      = some (e.baseAddr + (bus - e.startBus) * 2 ^ 20) := by
  obtain ⟨virt, hread, -, hwalk⟩ := hreach e he bus 0 0 0 hbus (by decide) (by decide) (by decide)
  rw [(h.access he hbus 0 0 0).1] at hread
  have hvirt : ecamAddress e bus 0 0 0 = virt :=
    BusOp.load.inj (List.singleton_inj.mp hread)
  have hoff : ecamOffset e bus 0 0 0 = (bus - e.startBus) * 2 ^ 20 := by
    unfold ecamOffset
    omega
  have hbase : e.baseAddr + (bus - e.startBus) * 2 ^ 20 + 0 * 2 ^ 15 + 0 * 2 ^ 12 + 0
      = e.baseAddr + (bus - e.startBus) * 2 ^ 20 := by
    omega
  rw [← hvirt, AcpiMcfgEntry.ecamAddress_eq hbus (by decide) (by decide) (by decide), hoff,
    hbase] at hwalk
  exact hwalk

/-- The first buses of two entries of one segment share an address. -/
theorem McfgOk.segmentsAgree (h : McfgOk bits entries) (hreach : Reaches m entries) :
    SegmentsAgree entries := by
  intro e he f hf hseg
  have hat : ∀ g ∈ entries,
      (hwWalk m.mem m.root g.virtBase).map Prod.fst = some g.baseAddr := by
    intro g hg
    have hfirst := h.of_reaches hreach hg ⟨Nat.le_refl g.startBus, h.ordered g hg⟩
    rw [Nat.sub_self, Nat.zero_mul, Nat.add_zero, Nat.add_zero] at hfirst
    exact hfirst
  have he' := hat e he
  rw [show e.virtBase = f.virtBase by rw [e.virtBase_eq, f.virtBase_eq, hseg], hat f hf] at he'
  exact (Option.some.inj he').symm

/-- An accepted call maps no page beyond the limit. -/
theorem translation_lt {c : MapCall} (hc : c.Aligned) (hbits : 21 ≤ bits) {a : Nat}
    (hphys : c.phys < 2 ^ bits) (hcov : c.Covers a) : (c.translation a).1 < 2 ^ bits := by
  obtain ⟨n, rfl⟩ : ∃ n, bits = n + 21 := ⟨bits - 21, by omega⟩
  have hpage := hc.phys
  obtain ⟨hlo, hhi⟩ := hcov
  show c.phys + (a - c.virt) < 2 ^ (n + 21)
  rw [Nat.pow_add] at hphys ⊢
  generalize 2 ^ n = k at hphys ⊢
  unfold MapCall.bytes at hpage hhi
  by_cases hhuge : c.Huge
  · rw [if_pos hhuge] at hpage hhi
    omega
  · rw [if_neg hhuge] at hpage hhi
    simp only [pageSize] at hpage hhi
    omega

/-- Without 4 KiB calls over 2 MiB leaves, what is reached lies below the
    limit. -/
theorem McfgOk.windowsFit (h : McfgOk m.cpuPhysBits entries) (hok : TablesOk m)
    (hbits : 21 ≤ m.cpuPhysBits ∧ m.cpuPhysBits ≤ 52) (hempty : EmptyWindows m entries)
    (hkeep : KeepsLeaves entries) (hlog : TablesGranted (pcieInit m (some entries)))
    (hroot : (pcieInit m (some entries)).root = m.root)
    (hreach : Reaches (pcieInit m (some entries)) entries) :
    WindowsFit m.cpuPhysBits entries := by
  intro e he
  have hord := h.ordered e he
  have hcount := h.busCount_eq he
  have hsize := e.size_eq
  have haligned := h.aligned e he
  have hlast := h.of_reaches hreach he ⟨hord, Nat.le_refl e.endBus⟩
  rw [hroot, h.hwWalk_pcieInit hok hbits.2 hempty hkeep hlog he (by omega)] at hlast
  cases hcall : lastCovering m.cpuPhysBits (ecamCalls entries)
      (e.virtBase + (e.endBus - e.startBus) * 2 ^ 20) with
  | none =>
      rw [hcall] at hlast
      cases hlast
  | some c =>
      rw [hcall] at hlast
      obtain ⟨hmem, hphys, hcov⟩ := lastCovering_mem hcall
      obtain ⟨f, hf, o, hat⟩ := h.mem_ecamCalls hbits.2 hmem
      have hlt := translation_lt (h.call_aligned hbits.2 hf hat) hbits.1 hphys hcov
      rw [Option.some.inj hlast] at hlt
      obtain ⟨n, hn⟩ : ∃ n, m.cpuPhysBits = n + 21 := ⟨m.cpuPhysBits - 21, by omega⟩
      rw [hn, Nat.pow_add] at hlt ⊢
      generalize 2 ^ n = k at hlt ⊢
      omega

end Reach

/-- After the mapping loop, every function of every bus is reached if the
    entries of one segment have one base address, every window ends below the
    processor's limit, and no 4 KiB call meets a 2 MiB leaf of an earlier entry;
    and if every function is reached, the base addresses agree and, without
    such calls, the windows fit. -/
theorem ecam_reaches {m : Machine} {entries : List AcpiMcfgEntry}
    (h : McfgOk m.cpuPhysBits entries) (hok : TablesOk m)
    (hbits : 21 ≤ m.cpuPhysBits ∧ m.cpuPhysBits ≤ 52) (hempty : EmptyWindows m entries)
    (hlog : TablesGranted (pcieInit m (some entries))) :
    (SegmentsAgree entries ∧ WindowsFit m.cpuPhysBits entries ∧ KeepsLeaves entries →
        Reaches (pcieInit m (some entries)) entries) ∧
      (Reaches (pcieInit m (some entries)) entries →
        SegmentsAgree entries ∧ (KeepsLeaves entries → WindowsFit m.cpuPhysBits entries)) := by
  have hroot : (pcieInit m (some entries)).root = m.root := by
    rw [pcieInit_eq_exec]
    exact (sameRegs_exec m _).root
  constructor
  · rintro ⟨hagree, hfit, hkeep⟩
    refine h.reaches (fun e he o ho => ?_)
    rw [hroot, h.hwWalk_pcieInit hok hbits.2 hempty hkeep hlog he ho]
    obtain ⟨c, hc⟩ := h.covered hbits.2 hfit he ho
    obtain ⟨f, hf, hseg, -, htrans⟩ := h.covering hbits.2 he ho hc
    rw [hc, hagree e he f hf hseg.symm]
    exact congrArg (fun t => some t.1) htrans
  · intro hreach
    exact ⟨h.segmentsAgree hreach,
      fun hkeep => h.windowsFit hok hbits hempty hkeep hlog hroot hreach⟩

theorem EmptyPml4.emptyWindows {m : Machine} (h : EmptyPml4 m) (entries : List AcpiMcfgEntry) :
    EmptyWindows m entries :=
  fun _ _ _ _ => h.walkPage _

/-- Two buses of segment 0. -/
def oneRange : List AcpiMcfgEntry :=
  [{ baseAddr := 0x40000000, pcieSegment := 0, startBus := 0, endBus := 1 }]

/-- Two more buses of the segment, with registers at another address. -/
def twoRanges : List AcpiMcfgEntry :=
  oneRange ++ [{ baseAddr := 0x50000000, pcieSegment := 0, startBus := 2, endBus := 3 }]

theorem oneRange_ok : McfgOk smallMachine.cpuPhysBits oneRange :=
  ⟨by decide, by decide, by decide, by decide⟩

theorem twoRanges_ok : McfgOk smallMachine.cpuPhysBits twoRanges :=
  ⟨by decide, by decide, by decide, by decide⟩

/-- A single range is reached. -/
theorem ecam_reaches_one :
    TablesGranted (pcieInit smallMachine (some oneRange)) ∧
      Reaches (pcieInit smallMachine (some oneRange)) oneRange := by
  have hlog : TablesGranted (pcieInit smallMachine (some oneRange)) := by decide +kernel
  refine ⟨hlog, (ecam_reaches oneRange_ok smallMachine_empty.tablesOk (by decide)
    (smallMachine_empty.emptyWindows oneRange) hlog).1 ⟨?_, ?_, ?_⟩⟩
  · intro e he f hf _
    rw [List.mem_singleton.mp he, List.mem_singleton.mp hf]
  · intro e he
    rw [List.mem_singleton.mp he]
    decide
  · exact List.pairwise_singleton _ _

/-- Of two ranges of one segment at different addresses, one is not reached. -/
theorem ecam_not_reached :
    McfgOk smallMachine.cpuPhysBits twoRanges ∧ TablesOk smallMachine ∧
      EmptyWindows smallMachine twoRanges ∧
      TablesGranted (pcieInit smallMachine (some twoRanges)) ∧
      ¬ Reaches (pcieInit smallMachine (some twoRanges)) twoRanges := by
  refine ⟨twoRanges_ok, smallMachine_empty.tablesOk, smallMachine_empty.emptyWindows twoRanges,
    by decide +kernel, fun hreach => ?_⟩
  have hagree := twoRanges_ok.segmentsAgree hreach
  exact absurd (hagree _ List.mem_cons_self _ (List.mem_cons_of_mem _ List.mem_cons_self) rfl)
    (by decide)

end Pfi
