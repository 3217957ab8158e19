import Pfi.Ecam

/-! # The entries of the MCFG table

    `pcie_init` computes the number of entries from the length of the table.
    `sizeof(struct acpi_mcfg)` already counts the 8 reserved bytes behind the
    header, and 8 is subtracted once more, so a table of `n + 1` entries has
    `n` of them used: the last one gets no window and is never looked at.  An
    entry with `end_bus < start_bus` has a bus count that wraps.  Only the
    table without entries is used as it should be (`mcfg_used_iff`).

    The lookup of a bus that no entry has gives index 0, which the callers take
    for a match as soon as there is an entry at all.  So an access stays in a
    window of its bus exactly when there is no entry or one has the bus
    (`config_access_inside_iff`). -/

namespace Pfi

open Words Run

/-! ## The table -/

abbrev mcfgSize : Nat := 44
abbrev mcfgEntrySize : Nat := 16

/-- A table that its entries fill. -/
structure McfgTable where
  length : Nat
  entries : List AcpiMcfgEntry
  lengthWord : length < 2 ^ 32
  filled : length = mcfgSize + mcfgEntrySize * entries.length

/-- `mcfg_num_segs`, an `int`: the differences and the quotient are taken on 64
    bits. -/
def mcfgNumSegs (length : Nat) : Int :=
  let segs : Nat := add64 (add64 length (2 ^ 64 - mcfgSize)) (2 ^ 64 - 8) / mcfgEntrySize % 2 ^ 32
  if segs < 2 ^ 31 then segs else (segs : Int) - 2 ^ 32

/-- The entries over which the loops of `pcie_init` and `get_segment` run. -/
def McfgTable.used (t : McfgTable) : List AcpiMcfgEntry :=
  t.entries.take (mcfgNumSegs t.length).toNat

/-! ## Windows -/

/-- A range that is mapped for configuration accesses. -/
structure ConfigWindow where
  virt : Nat
  phys : Nat
  size : Nat
deriving DecidableEq

/-- The arguments of the `pager_map_range` call for an entry. -/
def AcpiMcfgEntry.window (e : AcpiMcfgEntry) : ConfigWindow := ⟨e.virtBase, e.baseAddr, e.size⟩

/-- The windows that `pcie_init` establishes: the calls that map something. -/
def McfgTable.windows (t : McfgTable) : List ConfigWindow :=
  (t.used.map AcpiMcfgEntry.window).filter (fun w => decide (0 < w.size))

/-- One window for each entry with buses, a MiB for each of them. -/
def McfgTable.windowsDue (t : McfgTable) : List ConfigWindow :=
  (t.entries.filter (fun e => decide (e.startBus ≤ e.endBus))).map
    (fun e => ⟨e.virtBase, e.baseAddr, (e.endBus - e.startBus + 1) * 2 ^ 20⟩)

/-- All entries are used, and only those. -/
structure McfgTable.Used (t : McfgTable) : Prop where
  windows : t.windows = t.windowsDue
  considered : ∀ i : Nat, (i : Int) < mcfgNumSegs t.length ↔ i < t.entries.length

section Count

variable {t : McfgTable}

/-- One entry too few, and a negative count where there is none. -/
theorem McfgTable.numSegs_eq (t : McfgTable) :
    mcfgNumSegs t.length = (t.entries.length : Int) - 1 := by
  have hword := t.lengthWord
  have hfilled := t.filled
  generalize t.length = length at hword hfilled ⊢
  generalize t.entries.length = n at hfilled ⊢
  subst hfilled
  unfold mcfgNumSegs add64
  simp only [mcfgSize, mcfgEntrySize] at hword ⊢
  cases n with
  | zero => rfl
  | succ n =>
      have hsegs :
          ((44 + 16 * (n + 1) + (2 ^ 64 - 44)) % 2 ^ 64 + (2 ^ 64 - 8)) % 2 ^ 64 / 16 % 2 ^ 32
            = n := by omega
      rw [hsegs, if_pos (by omega)]
      omega

/-- Every entry of a table is used, and no others, exactly when there is
    none. -/
theorem mcfg_used_iff (t : McfgTable) : t.Used ↔ t.entries = [] := by
  constructor
  · intro h
    by_contra hne
    -- the last entry is left out
    have hpos : 0 < t.entries.length := List.length_pos_iff.mpr hne
    have hlast := (h.considered (t.entries.length - 1)).mpr (by omega)
    rw [t.numSegs_eq] at hlast
    omega
  · intro hnone
    have hused : t.used = [] := by
      unfold McfgTable.used
      rw [hnone]
      exact List.take_nil
    refine ⟨?_, fun i => ?_⟩
    · unfold McfgTable.windows McfgTable.windowsDue
      rw [hused, hnone]
      rfl
    · rw [t.numSegs_eq, hnone]
      show (i : Int) < 0 - 1 ↔ i < 0
      omega

/-- One entry with two buses. -/
def oneEntryMcfg : McfgTable :=
  { length := 60, entries := oneRange, lengthWord := by decide, filled := by decide }

/-- It gets no window. -/
theorem mcfg_entry_unused :
    oneEntryMcfg.windows = [] ∧ oneEntryMcfg.windowsDue = [⟨pcieVirtBase, 0x40000000, 2 * 2 ^ 20⟩] ∧
      ¬ oneEntryMcfg.Used := by
  have hnone : oneEntryMcfg.windows = [] := by decide
  have hdue : oneEntryMcfg.windowsDue = [⟨pcieVirtBase, 0x40000000, 2 * 2 ^ 20⟩] := by decide
  refine ⟨hnone, hdue, fun h => ?_⟩
  have hsame := h.windows
  rw [hnone, hdue] at hsame
  cases hsame

end Count

/-! ## Accesses -/

/-- The dword at an address lies in the window. -/
def ConfigWindow.Contains (w : ConfigWindow) (virt : Nat) : Prop :=
  w.virt ≤ virt ∧ virt + 4 ≤ w.virt + w.size

/-- An operation stays in a window of an entry that has the bus; one on a port
    dereferences nothing. -/
def BusOp.Inside (entries : List AcpiMcfgEntry) (bus : Nat) : BusOp → Prop
  | .load virt => ∃ e ∈ entries, e.HasBus bus ∧ e.window.Contains virt
  | .store virt _ => ∃ e ∈ entries, e.HasBus bus ∧ e.window.Contains virt
  | .outl _ _ => True
  | .inl _ => True

/-- The accesses of `pcie_read` and `pcie_write` to one register stay inside
    the windows, and go to the legacy ports where no entry has the bus. -/
structure AccessInside (entries : List AcpiMcfgEntry) (bus slot func offset : Nat) : Prop where
  read : ∀ op ∈ pcieRead (some entries) bus slot func offset, op.Inside entries bus
  write : ∀ value, ∀ op ∈ pcieWrite (some entries) bus slot func offset value,
    op.Inside entries bus
  legacy : (∀ e ∈ entries, ¬ e.HasBus bus) →
    pcieRead (some entries) bus slot func offset
        = [.outl 0xCF8 (legacyAddress bus slot func offset), .inl 0xCFC] ∧
      ∀ value, pcieWrite (some entries) bus slot func offset value
        = [.outl 0xCF8 (legacyAddress bus slot func offset), .outl 0xCFC value]

section Access

variable {entries : List AcpiMcfgEntry} {e : AcpiMcfgEntry} {bus slot func offset : Nat}

/-- A register of a bus of an entry lies in its window. -/
theorem AcpiMcfgEntry.contains_address (hbus : e.HasBus bus) (hslot : slot < 32) (hfunc : func < 8)
    (hoffset : offset < 256) (hdword : offset % 4 = 0) :
    e.window.Contains (ecamAddress e bus slot func offset) := by
  obtain ⟨hlo, hhi⟩ := hbus
  have hsize : e.window.size = (e.endBus - e.startBus + 1) * 2 ^ 20 := by
    rw [← busCount_eq (Nat.le_trans hlo hhi), ← e.size_eq]
    unfold window
    rfl
  have hvirt : e.window.virt = e.virtBase := by
    unfold window
    rfl
  unfold ConfigWindow.Contains
  rw [ecamAddress_eq ⟨hlo, hhi⟩ hslot hfunc hoffset, hsize, hvirt]
  unfold ecamOffset
  omega

/-- Where an entry has the bus, the lookup gives one that has it. -/
theorem getSegment_found (h : ∃ e ∈ entries, e.HasBus bus) :
    ∃ e ∈ entries, e.HasBus bus ∧ entries[getSegment (some entries) bus]? = some e := by
  obtain ⟨e, he, hbus⟩ := h
  unfold getSegment
  rw [show (some entries).getD [] = entries from rfl]
  cases hfind : entries.findIdx? (fun e => decide (e.HasBus bus)) with
  | none => exact absurd hbus (of_decide_eq_false (List.findIdx?_eq_none_iff.mp hfind e he))
  | some i =>
      obtain ⟨hi, hhas, -⟩ := List.findIdx?_eq_some_iff_getElem.mp hfind
      exact ⟨_, List.getElem_mem hi, of_decide_eq_true hhas, List.getElem?_eq_getElem hi⟩

/-- Where no entry has it, the lookup gives the first entry. -/
theorem getSegment_default (h : ¬ ∃ e ∈ entries, e.HasBus bus) :
    getSegment (some entries) bus = 0 := by
  unfold getSegment
  rw [show (some entries).getD [] = entries from rfl, List.findIdx?_eq_none_iff.mpr]
  · rfl
  · intro e he
    exact decide_eq_false (fun hbus => h ⟨e, he, hbus⟩)

/-- Accesses to a bus stay inside the windows of its entries, and go to the
    legacy ports where there is none, exactly when the table is empty or an
    entry has the bus. -/
theorem config_access_inside_iff (hslot : slot < 32) (hfunc : func < 8) (hoffset : offset < 256)
    (hdword : offset % 4 = 0) :
    AccessInside entries bus slot func offset ↔
      entries = [] ∨ ∃ e ∈ entries, e.HasBus bus := by
  constructor
  · intro h
    by_cases hhas : ∃ e ∈ entries, e.HasBus bus
    · exact Or.inr hhas
    · cases hentries : entries with
      | nil => exact Or.inl rfl
      | cons e rest =>
          -- the first entry is taken for a match
          have hlegacy := (h.legacy (fun e he hbus => hhas ⟨e, he, hbus⟩)).1
          unfold pcieRead at hlegacy
          rw [getSegment_default hhas, hentries] at hlegacy
          cases hlegacy
  · rintro (rfl | hhas)
    · -- both ports
      refine ⟨?_, fun value => ?_, fun _ => ⟨rfl, fun _ => rfl⟩⟩
      · exact List.forall_mem_cons.mpr ⟨trivial, List.forall_mem_singleton.mpr trivial⟩
      · exact List.forall_mem_cons.mpr ⟨trivial, List.forall_mem_singleton.mpr trivial⟩
    · obtain ⟨e, he, hbus, hfound⟩ := getSegment_found hhas
      have hin := e.contains_address hbus hslot hfunc hoffset hdword
      refine ⟨fun op hop => ?_, fun value op hop => ?_, fun hnone => absurd hbus (hnone e he)⟩
      · unfold pcieRead at hop
        rw [show (some entries).getD [] = entries from rfl, hfound] at hop
        rw [List.mem_singleton.mp hop]
        exact ⟨e, he, hbus, hin⟩
      · unfold pcieWrite at hop
        rw [show (some entries).getD [] = entries from rfl, hfound] at hop
        rw [List.mem_singleton.mp hop]
        exact ⟨e, he, hbus, hin⟩

theorem config_access_inside_two : AccessInside oneRange 1 31 7 252 :=
  (config_access_inside_iff (by decide) (by decide) (by decide) (by decide)).mpr
    (Or.inr ⟨_, List.mem_cons_self, by decide⟩)

/-- A read of bus 2, which the entry does not have, goes just behind its
    window. -/
theorem config_access_outside :
    pcieRead (some oneRange) 2 0 0 0 = [.load (pcieVirtBase + 2 * 2 ^ 20)] ∧
      oneRange.map AcpiMcfgEntry.window = [⟨pcieVirtBase, 0x40000000, 2 * 2 ^ 20⟩] ∧
      ¬ AccessInside oneRange 2 0 0 0 := by
  refine ⟨by decide, by decide, fun h => ?_⟩
  have hlegacy := (h.legacy (by decide)).1
  revert hlegacy
  decide

end Access

end Pfi
