import Pfi.Madt

/-! # The ids of a MADT

    A table is given by its entries: each has a type, its own length in the
    second byte, and a body, and a local APIC has a body of six bytes
    (`MadtEntry`).  The entries lie one behind the other from the header to
    the end of the table (`HoldsMadt`).

    The parser stays on the boundaries of the entries, whatever their types
    and lengths are: after each entry it stands where the next one begins
    (`acpiMadtLoop_entries`).  So it appends the ids of the enabled local
    APICs in table order and changes nothing else, and `acpi_get_apic_info`
    gives the whole list (`acpi_parse_madt_ids`). -/

namespace Pfi

open Words

/-! ## Entries -/

/-- An entry of a MADT: its type and the bytes behind its length. -/
structure MadtEntry where
  type : UInt8
  body : List UInt8
  length_lt : body.length + 2 < 256
  lapic : type.toNat = madtTypeLapic → body.length = 6

/-- The entry as it lies in memory. -/
def MadtEntry.bytes (e : MadtEntry) : List Nat :=
  e.type.toNat :: (e.body.length + 2) :: e.body.map UInt8.toNat

/-- `lapic->apic_id`. -/
def MadtEntry.apicId (e : MadtEntry) : Nat := e.bytes.getD 3 0

/-- `lapic->flags`. -/
def MadtEntry.flags (e : MadtEntry) : Nat :=
  (e.bytes.drop 4).foldr (fun b v => b + 256 * v) 0

/-- A local APIC with flag bit 0 set. -/
def MadtEntry.enabled (e : MadtEntry) : Bool :=
  decide (e.type.toNat = madtTypeLapic) && decide (e.flags % 2 = 1)

/-- The ids of the enabled local APICs, in table order. -/
def madtIds (entries : List MadtEntry) : List Nat :=
  (entries.filter MadtEntry.enabled).map MadtEntry.apicId

/-- The bytes behind the header of a table. -/
def madtBytes (entries : List MadtEntry) : List Nat := entries.flatMap MadtEntry.bytes

/-- The memory at `madt` holds a table with these entries, which reach from
    the header to its end. -/
structure HoldsMadt (m : PhysMem) (madt : Nat) (entries : List MadtEntry) : Prop where
  length : madtLength m madt = madtSize + (madtBytes entries).length
  bytes : m.bytes (add64 madt madtSize) (madtBytes entries).length = madtBytes entries
  fits : madt + madtLength m madt < 2 ^ 64

theorem MadtEntry.length_bytes (e : MadtEntry) : e.bytes.length = e.body.length + 2 := by
  unfold MadtEntry.bytes
  rw [List.length_cons, List.length_cons, List.length_map]

theorem madtIds_cons (e : MadtEntry) (entries : List MadtEntry) :
    madtIds (e :: entries) = madtIds [e] ++ madtIds entries := by
  unfold madtIds
  rw [← List.map_append, ← List.filter_append]
  rfl

/-! ## The loop -/

section Parse

variable {m : PhysMem} {e : MadtEntry} {ptr : Nat}

/-- The parser finds the fields of an entry in its bytes. -/
theorem MadtEntry.lapicEnabled_eq (h : m.bytes ptr e.bytes.length = e.bytes)
    (hptr : ptr < 2 ^ 64) : lapicEnabled m ptr = e.enabled := by
  have htype : m.byte ptr = e.type.toNat := by
    have hbyte := PhysMem.byte_of_bytes h (i := 0) (by rw [e.length_bytes]; omega)
    rw [add64_of_lt (by omega)] at hbyte
    exact hbyte
  unfold lapicEnabled MadtEntry.enabled
  rw [htype]
  by_cases hlapic : e.type.toNat = madtTypeLapic
  · -- only a local APIC has flags
    have hlength : e.bytes.length = 4 + 4 := by rw [e.length_bytes, e.lapic hlapic]
    rw [hlength] at h
    rw [PhysMem.load_of_bytes h]
    rfl
  · rw [decide_eq_false hlapic, Bool.false_and, Bool.false_and]

theorem MadtEntry.next_eq (h : m.bytes ptr e.bytes.length = e.bytes) :
    madtNext m ptr = add64 ptr e.bytes.length := by
  have hbyte := PhysMem.byte_of_bytes h (i := 1) (by rw [e.length_bytes]; omega)
  unfold madtNext
  rw [hbyte, e.length_bytes]
  rfl

/-- One entry: its id is appended if it is an enabled local APIC. -/
theorem MadtEntry.parse (h : m.bytes ptr e.bytes.length = e.bytes) (hptr : ptr < 2 ^ 64)
    {s : Acpi} (hroom : s.apicIds.length + (madtIds [e]).length ≤ apicIdsSize) :
    acpiMadtEntry m ptr s = some { s with apicIds := s.apicIds ++ madtIds [e] } := by
  have henabled := e.lapicEnabled_eq h hptr
  unfold acpiMadtEntry
  by_cases hon : e.enabled = true
  · have hids : madtIds [e] = [e.apicId] := by
      unfold madtIds
      rw [List.filter_cons_of_pos hon]
      rfl
    have hboth : m.byte ptr = 0 ∧ m.load (add64 ptr 4) 4 % 2 = 1 := by
      rw [hon] at henabled
      unfold lapicEnabled at henabled
      rw [Bool.and_eq_true, decide_eq_true_eq, decide_eq_true_eq] at henabled
      exact henabled
    have hlapic : e.type.toNat = madtTypeLapic := by
      unfold MadtEntry.enabled at hon
      rw [Bool.and_eq_true, decide_eq_true_eq] at hon
      exact hon.1
    have hid : m.byte (add64 ptr 3) = e.apicId :=
      PhysMem.byte_of_bytes h (by rw [e.length_bytes, e.lapic hlapic]; omega)
    rw [hids, List.length_singleton] at hroom
    rw [if_pos hboth, if_pos (by omega), hids, hid]
  · have hids : madtIds [e] = [] := by
      unfold madtIds
      rw [List.filter_cons_of_neg hon]
      rfl
    have hboth : ¬ (m.byte ptr = 0 ∧ m.load (add64 ptr 4) 4 % 2 = 1) := by
      intro hc
      refine hon (henabled ▸ ?_)
      unfold lapicEnabled
      rw [Bool.and_eq_true, decide_eq_true_eq, decide_eq_true_eq]
      exact hc
    rw [if_neg hboth, hids, List.append_nil]

/-- The loop over entries that lie in a row up to the end. -/
theorem acpiMadtLoop_entries (entries : List MadtEntry) :
    ∀ {stop ptr fuel : Nat} {s : Acpi}, ptr + (madtBytes entries).length = stop →
      stop < 2 ^ 64 → m.bytes ptr (madtBytes entries).length = madtBytes entries →
      s.apicIds.length + (madtIds entries).length ≤ apicIdsSize → entries.length ≤ fuel →
      acpiMadtLoop m stop fuel ptr s
        = some { s with apicIds := s.apicIds ++ madtIds entries } := by
  induction entries with
  | nil =>
      intro stop ptr fuel s hstop _ _ _ _
      have hend : ¬ ptr < stop := by
        rw [← hstop]
        exact Nat.lt_irrefl ptr
      have hnone : madtIds [] = [] := rfl
      rw [hnone, List.append_nil]
      cases fuel with
      | zero => exact if_neg hend
      | succ fuel => exact if_neg hend
  | cons e entries ih =>
      intro stop ptr fuel s hstop hlt hbytes hroom hfuel
      have hsplit : madtBytes (e :: entries) = e.bytes ++ madtBytes entries := List.flatMap_cons
      rw [hsplit] at hbytes
      rw [hsplit, List.length_append] at hstop
      rw [madtIds_cons, List.length_append] at hroom
      obtain ⟨hhere, hrest⟩ := PhysMem.bytes_append hbytes
      have hpos := e.length_bytes
      have hnext : madtNext m ptr = ptr + e.bytes.length := by
        rw [e.next_eq hhere, add64_of_lt (by omega)]
      cases fuel with
      | zero => exact absurd hfuel (Nat.not_succ_le_zero _)
      | succ fuel =>
          unfold acpiMadtLoop
          rw [if_pos (by omega), e.parse hhere (by omega) (by omega)]
          change acpiMadtLoop m stop fuel (madtNext m ptr) _ = _
          -- the next entry begins where this one ends
          rw [hnext, ih (by omega) hlt ?_ ?_ (Nat.le_of_succ_le_succ hfuel)]
          · rw [madtIds_cons e entries, List.append_assoc]
          · rw [add64_of_lt (by omega)] at hrest
            exact hrest
          · dsimp only
            rw [List.length_append]
            omega

/-- A table whose entries fill it adds the ids of its enabled local APICs, in
    table order, and changes nothing else.  When the lock is released the
    whole list is handed out. -/
theorem acpi_parse_madt_ids {madt : Nat} {entries : List MadtEntry} (h : HoldsMadt m madt entries)
    {s : Acpi} (hroom : s.apicIds.length + (madtIds entries).length ≤ apicIdsSize) :
    ∃ t : Acpi, t = { s with apicIds := s.apicIds ++ madtIds entries } ∧
      (∀ fuel, entries.length ≤ fuel → acpiParseMadt m fuel madt s = some t) ∧
      ∀ flags, acpiGetApicInfo (t.spinUnlockIrqrestore flags)
        = some ((s.apicIds ++ madtIds entries, s.apicIds.length + (madtIds entries).length),
            t.spinUnlockIrqrestore flags) := by
  refine ⟨_, rfl, fun fuel hfuel => ?_, fun flags => ?_⟩
  · have hfits := h.fits
    have hlength := h.length
    have hbytes := h.bytes
    have hstart : add64 madt madtSize = madt + madtSize := add64_of_lt (by omega)
    have hstop : add64 madt (m.load (add64 madt 4) 4)
        = madt + (madtSize + (madtBytes entries).length) := by
      rw [← hlength]
      exact add64_of_lt hfits
    unfold acpiParseMadt
    rw [hstart] at hbytes
    rw [hstop, hstart]
    exact acpiMadtLoop_entries entries (by omega) (by omega) hbytes hroom hfuel
  · rw [← List.length_append]
    rfl

/-- An I/O APIC of 12 bytes and two local APICs, of which only the second is
    enabled. -/
def threeEntries : List MadtEntry :=
  [⟨1, [9, 0, 0, 0, 0xC0, 0xFE, 0, 0, 0, 0], by decide, by decide⟩,
    ⟨0, [0, 4, 0, 0, 0, 0], by decide, by decide⟩,
    ⟨0, [1, 7, 1, 0, 0, 0], by decide, by decide⟩]

/-- A table of 72 bytes at the physical address 0 with these entries. -/
def threeEntryTable : PhysMem := fun p =>
  ([0x41, 0x50, 0x49, 0x43, 72] ++ List.replicate 39 0 ++
    [1, 12, 9, 0, 0, 0, 0xC0, 0xFE, 0, 0, 0, 0, 0, 8, 0, 4, 0, 0, 0, 0, 0, 8, 1, 7, 1] :
      List UInt8).getD p 0

theorem acpi_parse_madt_three :
    ∃ t : Acpi, t = { iflag := false, apicIds := [0, 7] } ∧
      (∀ fuel, 3 ≤ fuel → acpiParseMadt threeEntryTable fuel aosDirectMapBase
        { iflag := false, apicIds := [0] } = some t) ∧
      ∀ flags, acpiGetApicInfo (t.spinUnlockIrqrestore flags)
        = some (([0, 7], 2), t.spinUnlockIrqrestore flags) := by
  have hholds : HoldsMadt threeEntryTable aosDirectMapBase threeEntries :=
    ⟨by decide, by decide, by decide⟩
  have hparse := acpi_parse_madt_ids hholds (s := { iflag := false, apicIds := [0] }) (by decide)
  exact hparse

end Parse

end Pfi
