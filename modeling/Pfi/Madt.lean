import Pfi.Acpi
import Pfi.Walk

/-! # The bytes of the MADT

    `acpi_parse_madt` goes from entry to entry by the length bytes of the
    table.  Nothing is checked: a length of `0` is read for ever, an entry at
    the end of the table is read as a whole local APIC record, and the ids of
    all tables are stored one after the other in an array of 256.

    What the parser reads and stores is recorded here access by access
    (`madtAccesses`).  It is safe exactly when the chain of every table ends,
    each of its entries lies in the table as far as it is read, and no more
    than 256 local APICs are enabled in all tables together
    (`madts_safe_iff`); then the parser of `Pfi.Acpi` has an outcome
    (`acpiParseTables_of_safe`). -/

namespace Pfi

open Words

/-! ## Accesses -/

abbrev madtTypeLapic : Nat := 0

/-- A byte that is read, or an index of `apic_ids` that is stored to. -/
inductive MadtAccess where
  | read (virt : Nat)
  | store (index : Nat)
deriving Repr, DecidableEq

/-- The reads of the `n` bytes from `virt` on. -/
def readBytes (virt n : Nat) : List MadtAccess :=
  (List.range n).map (fun i => .read (add64 virt i))

/-- `lapic->flags & 1` of an entry of the type of a local APIC. -/
def lapicEnabled (m : PhysMem) (ptr : Nat) : Bool :=
  decide (m.byte ptr = madtTypeLapic) && decide (m.load (add64 ptr 4) 4 % 2 = 1)

/-- The body of the loop: type and length, the flags of a local APIC, and its
    id if it is enabled. -/
def madtEntryAccesses (m : PhysMem) (ptr count : Nat) : List MadtAccess :=
  readBytes ptr 2 ++
    (if m.byte ptr = madtTypeLapic then readBytes (add64 ptr 4) 4 else []) ++
    (if lapicEnabled m ptr then [.read (add64 ptr 3), .store count] else [])

/-- `ptr += len`. -/
def madtNext (m : PhysMem) (ptr : Nat) : Nat := add64 ptr (m.byte (add64 ptr 1))

/-- `apic_id_count` after an entry. -/
def countAfter (m : PhysMem) (ptr count : Nat) : Nat :=
  if lapicEnabled m ptr then count + 1 else count

/-- The loop of `acpi_parse_madt`, with the count it ends with. -/
def madtLoopAccesses (m : PhysMem) (stop : Nat) :
    Nat → Nat → Nat → Option (List MadtAccess × Nat)
  | 0, ptr, count => if ptr < stop then none else some ([], count)
  | fuel + 1, ptr, count =>
      if ptr < stop then
        (madtLoopAccesses m stop fuel (madtNext m ptr) (countAfter m ptr count)).map
          (fun r => (madtEntryAccesses m ptr count ++ r.1, r.2))
      else some ([], count)

/-- `madt->header.length`. -/
def madtLength (m : PhysMem) (madt : Nat) : Nat := m.load (add64 madt 4) 4

/-- `acpi_parse_madt`. -/
def madtAccesses (m : PhysMem) (fuel madt count : Nat) : Option (List MadtAccess × Nat) :=
  (madtLoopAccesses m (add64 madt (madtLength m madt)) fuel (add64 madt madtSize) count).map
    (fun r => (readBytes (add64 madt 4) 4 ++ r.1, r.2))

/-- The stores of `acpi_get_apic_info` to the buffer of its caller. -/
def apicInfoStores (count : Nat) : List Nat := List.range count

/-! ## Safety -/

/-- A byte of the table. -/
def InTable (m : PhysMem) (madt virt : Nat) : Prop :=
  madt ≤ virt ∧ virt < madt + madtLength m madt

instance (m : PhysMem) (madt virt : Nat) : Decidable (InTable m madt virt) :=
  inferInstanceAs (Decidable (_ ∧ _))

/-- Bytes are read in the table only, and stored in `apic_ids` only. -/
def MadtAccess.Safe (m : PhysMem) (madt : Nat) : MadtAccess → Prop
  | .read virt => InTable m madt virt
  | .store index => index < apicIdsSize

/-- The tables are parsed one after the other, from `count` ids on: each parse
    ends and its accesses are safe, and so are the stores to a buffer of 256
    bytes when the ids are asked for. -/
def MadtsSafe (m : PhysMem) : List Nat → Nat → Prop
  | [], count => ∀ i ∈ apicInfoStores count, i < 256
  | madt :: madts, count =>
      ∃ fuel accesses count', madtAccesses m fuel madt count = some (accesses, count') ∧
        (∀ a ∈ accesses, a.Safe m madt) ∧ MadtsSafe m madts count'

/-- The `n` bytes from `virt` on lie in the table. -/
def BytesIn (m : PhysMem) (madt virt n : Nat) : Prop :=
  ∀ i, i < n → InTable m madt (add64 virt i)

instance (m : PhysMem) (madt virt n : Nat) : Decidable (BytesIn m madt virt n) :=
  inferInstanceAs (Decidable (∀ i, i < n → _))

/-- An entry lies in the table as far as it is read: its first two bytes, and
    all eight of a local APIC, of which the fourth only if it is enabled. -/
structure EntryIn (m : PhysMem) (madt ptr : Nat) : Prop where
  start : BytesIn m madt ptr 2
  flags : m.byte ptr = madtTypeLapic → BytesIn m madt (add64 ptr 4) 4
  id : lapicEnabled m ptr = true → InTable m madt (add64 ptr 3)

/-- The table has `n` entries up to its end, and all of them lie in it. -/
structure MadtOk (m : PhysMem) (madt n : Nat) : Prop where
  header : BytesIn m madt (add64 madt 4) 4
  chain : Walk.EndsAfter (fun ptr => ptr < add64 madt (madtLength m madt)) (madtNext m)
    (add64 madt madtSize) n
  entries : ∀ ptr ∈ Walk.positions (madtNext m) (add64 madt madtSize) n, EntryIn m madt ptr

/-- The enabled local APICs among the first `n` entries. -/
def enabledLapics (m : PhysMem) (madt n : Nat) : Nat :=
  (Walk.positions (madtNext m) (add64 madt madtSize) n).countP (lapicEnabled m)

/-! ## One table -/

section Table

variable {m : PhysMem} {madt : Nat}

theorem readBytes_safe {virt n : Nat} :
    (∀ a ∈ readBytes virt n, a.Safe m madt) ↔ BytesIn m madt virt n := by
  unfold readBytes BytesIn
  constructor
  · intro h i hi
    exact h _ (List.mem_map.mpr ⟨i, List.mem_range.mpr hi, rfl⟩)
  · intro h a ha
    obtain ⟨i, hi, rfl⟩ := List.mem_map.mp ha
    exact h i (List.mem_range.mp hi)

/-- The accesses of one entry. -/
theorem madtEntry_safe {ptr count : Nat} :
    (∀ a ∈ madtEntryAccesses m ptr count, a.Safe m madt) ↔
      EntryIn m madt ptr ∧ (lapicEnabled m ptr = true → count < apicIdsSize) := by
  unfold madtEntryAccesses
  rw [List.forall_mem_append, List.forall_mem_append, readBytes_safe]
  constructor
  · rintro ⟨⟨hstart, hflags⟩, hid⟩
    refine ⟨⟨hstart, fun htype => ?_, fun henabled => ?_⟩, fun henabled => ?_⟩
    · rw [if_pos htype] at hflags
      exact readBytes_safe.mp hflags
    · rw [if_pos henabled] at hid
      exact hid (.read (add64 ptr 3)) List.mem_cons_self
    · rw [if_pos henabled] at hid
      exact hid (.store count) (List.mem_cons_of_mem _ List.mem_cons_self)
  · rintro ⟨⟨hstart, hflags, hid⟩, hroom⟩
    refine ⟨⟨hstart, ?_⟩, ?_⟩
    · by_cases htype : m.byte ptr = madtTypeLapic
      · rw [if_pos htype]
        exact readBytes_safe.mpr (hflags htype)
      · rw [if_neg htype]
        exact fun a ha => absurd ha List.not_mem_nil
    · by_cases henabled : lapicEnabled m ptr = true
      · rw [if_pos henabled]
        rintro a ha
        rcases List.mem_cons.mp ha with rfl | ha
        · exact hid henabled
        · rw [List.mem_singleton.mp ha]
          exact hroom henabled
      · rw [if_neg henabled]
        exact fun a ha => absurd ha List.not_mem_nil

/-- The accesses at a list of entries. -/
def accessesAt (m : PhysMem) : List Nat → Nat → List MadtAccess × Nat
  | [], count => ([], count)
  | ptr :: ptrs, count =>
      let r := accessesAt m ptrs (countAfter m ptr count)
      (madtEntryAccesses m ptr count ++ r.1, r.2)

/-- The loop does its accesses at the entries that it visits. -/
theorem madtLoop_eq (stop fuel ptr count : Nat) :
    madtLoopAccesses m stop fuel ptr count
      = (Walk.visits (fun ptr => ptr < stop) (madtNext m) fuel ptr).map
          (fun ptrs => accessesAt m ptrs count) := by
  induction fuel generalizing ptr count with
  | zero =>
      unfold madtLoopAccesses Walk.visits
      by_cases hp : ptr < stop
      · rw [if_pos hp, if_pos hp]
        rfl
      · rw [if_neg hp, if_neg hp]
        rfl
  | succ fuel ih =>
      unfold madtLoopAccesses Walk.visits
      by_cases hp : ptr < stop
      · rw [if_pos hp, if_pos hp, ih, Option.map_map, Option.map_map]
        rfl
      · rw [if_neg hp, if_neg hp]
        rfl

theorem countAfter_eq (ptr count : Nat) (ptrs : List Nat) :
    countAfter m ptr count + ptrs.countP (lapicEnabled m)
      = count + (ptr :: ptrs).countP (lapicEnabled m) := by
  unfold countAfter
  by_cases henabled : lapicEnabled m ptr = true
  · rw [if_pos henabled, List.countP_cons_of_pos henabled]
    omega
  · rw [if_neg henabled, List.countP_cons_of_neg henabled]

theorem accessesAt_count (ptrs : List Nat) (count : Nat) :
    (accessesAt m ptrs count).2 = count + ptrs.countP (lapicEnabled m) := by
  induction ptrs generalizing count with
  | nil => rfl
  | cons ptr ptrs ih =>
      unfold accessesAt
      dsimp only
      rw [ih, countAfter_eq]

/-- With room for all ids at the end there is room for each of them. -/
theorem accessesAt_safe {ptrs : List Nat} {count : Nat}
    (hroom : (accessesAt m ptrs count).2 ≤ apicIdsSize) :
    (∀ a ∈ (accessesAt m ptrs count).1, a.Safe m madt) ↔ ∀ ptr ∈ ptrs, EntryIn m madt ptr := by
  induction ptrs generalizing count with
  | nil =>
      constructor
      · exact fun _ ptr hptr => absurd hptr List.not_mem_nil
      · exact fun _ a ha => absurd ha List.not_mem_nil
  | cons ptr ptrs ih =>
      rw [accessesAt_count] at hroom
      have hrest : (accessesAt m ptrs (countAfter m ptr count)).2 ≤ apicIdsSize := by
        rw [accessesAt_count, countAfter_eq]
        exact hroom
      have hfits : lapicEnabled m ptr = true → count < apicIdsSize := by
        intro henabled
        rw [List.countP_cons_of_pos henabled] at hroom
        omega
      unfold accessesAt
      rw [List.forall_mem_append, madtEntry_safe, ih hrest, List.forall_mem_cons]
      exact and_congr_left' (and_iff_left hfits)

/-- A table whose ids fit is parsed safely if and only if it has a last entry
    and all entries lie in it. -/
theorem madt_safe_iff {count count' : Nat} (hroom : count' ≤ apicIdsSize) :
    (∃ fuel accesses, madtAccesses m fuel madt count = some (accesses, count') ∧
      ∀ a ∈ accesses, a.Safe m madt) ↔
    ∃ n, MadtOk m madt n ∧ count' = count + enabledLapics m madt n := by
  unfold madtAccesses
  constructor
  · rintro ⟨fuel, accesses, hrun, hsafe⟩
    rw [madtLoop_eq] at hrun
    obtain ⟨r, hr, hres⟩ := Option.map_eq_some_iff.mp hrun
    obtain ⟨ptrs, hvisits, rfl⟩ := Option.map_eq_some_iff.mp hr
    obtain ⟨n, -, hchain, rfl⟩ := Walk.visits_eq_some.mp hvisits
    obtain ⟨rfl, rfl⟩ := Prod.mk.inj hres
    rw [List.forall_mem_append, readBytes_safe] at hsafe
    exact ⟨n, ⟨hsafe.1, hchain, (accessesAt_safe hroom).mp hsafe.2⟩, accessesAt_count _ _⟩
  · rintro ⟨n, hok, rfl⟩
    refine ⟨n, readBytes (add64 madt 4) 4 ++
      (accessesAt m (Walk.positions (madtNext m) (add64 madt madtSize) n) count).1, ?_, ?_⟩
    · rw [madtLoop_eq, hok.chain.visits]
      unfold enabledLapics
      rw [← accessesAt_count]
      rfl
    · have hcount := @accessesAt_count m
        (Walk.positions (madtNext m) (add64 madt madtSize) n) count
      rw [List.forall_mem_append, readBytes_safe, accessesAt_safe (hcount ▸ hroom)]
      exact ⟨hok.header, hok.entries⟩

/-- The count never falls below what it was. -/
theorem MadtsSafe.room {madts : List Nat} {count : Nat} (h : MadtsSafe m madts count) :
    count ≤ apicIdsSize := by
  induction madts generalizing count with
  | nil =>
      by_contra hc
      exact absurd (h 256 (List.mem_range.mpr (Nat.lt_of_not_le hc))) (Nat.lt_irrefl 256)
  | cons madt madts ih =>
      obtain ⟨fuel, accesses, count', hrun, hsafe, hrest⟩ := h
      obtain ⟨n, -, hcount⟩ := (madt_safe_iff (ih hrest)).mp ⟨fuel, accesses, hrun, hsafe⟩
      have hle := ih hrest
      omega

/-- All tables are parsed safely, from `count` ids on, if and only if each of
    them has a last entry, all entries lie in their tables, and the ids of all
    tables fit. -/
theorem madts_safe_from {madts : List Nat} {count : Nat} :
    MadtsSafe m madts count ↔
      ∃ n : Nat → Nat, (∀ madt ∈ madts, MadtOk m madt (n madt)) ∧
        count + (madts.map (fun madt => enabledLapics m madt (n madt))).sum ≤ apicIdsSize := by
  induction madts generalizing count with
  | nil =>
      constructor
      · exact fun h => ⟨fun _ => 0, fun _ hm => absurd hm List.not_mem_nil, MadtsSafe.room h⟩
      · rintro ⟨n, -, hroom⟩ i hi
        exact Nat.lt_of_lt_of_le (List.mem_range.mp hi) hroom
  | cons madt madts ih =>
      constructor
      · rintro ⟨fuel, accesses, count', hrun, hsafe, hrest⟩
        obtain ⟨k, hok, rfl⟩ := (madt_safe_iff (MadtsSafe.room hrest)).mp
          ⟨fuel, accesses, hrun, hsafe⟩
        obtain ⟨n, hall, hroom⟩ := ih.mp hrest
        -- the table may be listed again, with the same number of entries
        let n' : Nat → Nat := fun t => if t = madt then k else n t
        have hself : n' madt = k := if_pos rfl
        have hagree : ∀ t ∈ madts, n' t = n t := by
          intro t ht
          by_cases heq : t = madt
          · show (if t = madt then k else n t) = n t
            rw [if_pos heq]
            have hchain := (hall t ht).chain
            rw [heq] at hchain ⊢
            exact hok.chain.unique hchain
          · exact if_neg heq
        refine ⟨n', ?_, ?_⟩
        · intro t ht
          rcases List.mem_cons.mp ht with rfl | ht
          · rw [hself]
            exact hok
          · rw [hagree t ht]
            exact hall t ht
        · have hsum : madts.map (fun t => enabledLapics m t (n' t))
              = madts.map (fun t => enabledLapics m t (n t)) :=
            List.map_congr_left (fun t ht => by rw [hagree t ht])
          rw [List.map_cons, List.sum_cons, hself, hsum]
          omega
      · rintro ⟨n, hall, hroom⟩
        rw [List.map_cons, List.sum_cons, ← Nat.add_assoc] at hroom
        obtain ⟨fuel, accesses, hrun, hsafe⟩ := (@madt_safe_iff m madt
          count (count + enabledLapics m madt (n madt)) (by omega)).mpr
          ⟨n madt, hall madt List.mem_cons_self, rfl⟩
        exact ⟨fuel, accesses, _, hrun, hsafe,
          ih.mpr ⟨n, fun t ht => hall t (List.mem_cons_of_mem _ ht), hroom⟩⟩

end Table

/-- Parsing is safe on the MADTs of a root table if and only if each of them
    has a last entry, all entries lie in their tables, and no more than 256
    local APICs are enabled in all of them. -/
theorem madts_safe_iff (m : PhysMem) (madts : List Nat) :
    MadtsSafe m madts 0 ↔
      ∃ n : Nat → Nat, (∀ madt ∈ madts, MadtOk m madt (n madt)) ∧
        (madts.map (fun madt => enabledLapics m madt (n madt))).sum ≤ apicIdsSize := by
  have hfrom := @madts_safe_from m madts 0
  simp only [Nat.zero_add] at hfrom
  exact hfrom

/-- A table of `length` bytes at physical address 0 whose only entry has the
    given type and length bytes, and the flags of an enabled local APIC. -/
def oneEntry (length type len : UInt8) : PhysMem := fun p =>
  if p = 4 then length else if p = 44 then type else if p = 45 then len
  else if p = 48 then 1 else 0

/-- An entry of length 0 has no end; a local APIC of which only the first two
    bytes are in the table is read past its end; and a table with one local
    APIC that is listed 257 times fills the array and goes on. -/
theorem madts_unsafe :
    ¬ MadtsSafe (oneEntry 52 1 0) [aosDirectMapBase] 0 ∧
      ¬ MadtsSafe (oneEntry 46 0 2) [aosDirectMapBase] 0 ∧
      ¬ MadtsSafe (oneEntry 52 0 8) (List.replicate 257 aosDirectMapBase) 0 := by
  refine ⟨?_, ?_, ?_⟩
  · intro h
    obtain ⟨n, hall, -⟩ := (madts_safe_iff _ _).mp h
    exact Walk.not_endsAfter_of_fixed (by decide) (by decide)
      (hall _ List.mem_cons_self).chain
  · intro h
    obtain ⟨n, hall, -⟩ := (madts_safe_iff _ _).mp h
    have hok := hall _ List.mem_cons_self
    have hone : Walk.EndsAfter (fun ptr => ptr < add64 aosDirectMapBase
        (madtLength (oneEntry 46 0 2) aosDirectMapBase)) (madtNext (oneEntry 46 0 2))
        (add64 aosDirectMapBase madtSize) 1 := ⟨by decide, by decide⟩
    have hentries := hok.entries
    rw [hok.chain.unique hone] at hentries
    have hflags := (hentries _ (Walk.mem_positions.mpr ⟨0, by decide, rfl⟩)).flags (by decide)
    revert hflags
    decide
  · intro h
    obtain ⟨n, hall, hroom⟩ := (madts_safe_iff _ _).mp h
    have hok := hall aosDirectMapBase (List.mem_replicate.mpr ⟨by decide, rfl⟩)
    have hone : Walk.EndsAfter (fun ptr => ptr < add64 aosDirectMapBase
        (madtLength (oneEntry 52 0 8) aosDirectMapBase)) (madtNext (oneEntry 52 0 8))
        (add64 aosDirectMapBase madtSize) 1 := ⟨by decide, by decide⟩
    rw [List.map_replicate, List.sum_replicate_nat, hok.chain.unique hone] at hroom
    revert hroom
    decide

/-! ## The parser -/

section Parser

variable {m : PhysMem}

/-- The MADTs that a root table lists from index `i` on. -/
def madtsListed (m : PhysMem) (root width : Nat) : Nat → Nat → List Nat
  | 0, _ => []
  | n + 1, i =>
      let hdr := add64 (m.load (add64 root (sdtHeaderSize + i * width)) width) aosDirectMapBase
      if m.bytes hdr 4 = [0x41, 0x50, 0x49, 0x43] then hdr :: madtsListed m root width n (i + 1)
      else madtsListed m root width n (i + 1)

/-- The loop of the parser goes over the same entries. -/
theorem acpiMadtLoop_eq (stop fuel ptr : Nat) (s : Acpi) :
    acpiMadtLoop m stop fuel ptr s
      = (Walk.visits (fun ptr => ptr < stop) (madtNext m) fuel ptr).bind
          (fun ptrs => ptrs.foldlM (fun s ptr => acpiMadtEntry m ptr s) s) := by
  induction fuel generalizing ptr s with
  | zero =>
      unfold acpiMadtLoop Walk.visits
      by_cases hp : ptr < stop
      · rw [if_pos hp, if_pos hp]
        rfl
      · rw [if_neg hp, if_neg hp]
        rfl
  | succ fuel ih =>
      unfold acpiMadtLoop Walk.visits
      by_cases hp : ptr < stop
      · rw [if_pos hp, if_pos hp]
        cases hentry : acpiMadtEntry m ptr s with
        | none =>
            cases Walk.visits (fun ptr => ptr < stop) (madtNext m) fuel (madtNext m ptr) with
            | none => rfl
            | some ptrs =>
                rw [Option.map_some, Option.bind_some, List.foldlM_cons, hentry]
                rfl
        | some s' =>
            show acpiMadtLoop m stop fuel (madtNext m ptr) s' = _
            rw [ih]
            cases Walk.visits (fun ptr => ptr < stop) (madtNext m) fuel (madtNext m ptr) with
            | none => rfl
            | some ptrs =>
                rw [Option.map_some, Option.bind_some, Option.bind_some, List.foldlM_cons, hentry]
                rfl
      · rw [if_neg hp, if_neg hp]
        rfl

/-- With room for the ids, every entry is taken. -/
theorem acpiMadtEntries (ptrs : List Nat) : ∀ {s : Acpi},
    s.apicIds.length + ptrs.countP (lapicEnabled m) ≤ apicIdsSize →
    ∃ t, ptrs.foldlM (fun s ptr => acpiMadtEntry m ptr s) s = some t ∧
      t.apicIds.length = s.apicIds.length + ptrs.countP (lapicEnabled m) := by
  induction ptrs with
  | nil =>
      intro s _
      exact ⟨s, rfl, rfl⟩
  | cons ptr ptrs ih =>
      intro s hroom
      have hentry : ∃ s', acpiMadtEntry m ptr s = some s' ∧
          s'.apicIds.length = countAfter m ptr s.apicIds.length := by
        unfold acpiMadtEntry countAfter
        by_cases henabled : lapicEnabled m ptr = true
        · have hboth : m.byte ptr = 0 ∧ m.load (add64 ptr 4) 4 % 2 = 1 := by
            unfold lapicEnabled at henabled
            rw [Bool.and_eq_true, decide_eq_true_eq, decide_eq_true_eq] at henabled
            exact henabled
          rw [List.countP_cons_of_pos henabled] at hroom
          rw [if_pos hboth, if_pos (by omega), if_pos henabled]
          exact ⟨_, rfl, List.length_append⟩
        · have hboth : ¬ (m.byte ptr = 0 ∧ m.load (add64 ptr 4) 4 % 2 = 1) := by
            intro hc
            unfold lapicEnabled at henabled
            rw [Bool.and_eq_true, decide_eq_true_eq, decide_eq_true_eq] at henabled
            exact henabled hc
          rw [if_neg hboth, if_neg henabled]
          exact ⟨s, rfl, rfl⟩
      obtain ⟨s', hstep, hlength⟩ := hentry
      obtain ⟨t, hrun, hcount⟩ := ih (s := s') (by rw [hlength, countAfter_eq]; exact hroom)
      refine ⟨t, ?_, ?_⟩
      · rw [List.foldlM_cons, hstep]
        exact hrun
      · rw [hcount, hlength, countAfter_eq]

/-- A table of another kind adds no ids. -/
theorem acpiParseTable_other {hdr : Nat} (s : Acpi)
    (hmadt : m.bytes hdr 4 ≠ [0x41, 0x50, 0x49, 0x43]) :
    ∃ t, (∀ fuel, acpiParseTable m fuel hdr s = some t) ∧ t.apicIds = s.apicIds := by
  unfold acpiParseTable
  dsimp only
  by_cases hmcfg : m.bytes hdr 4 = [0x4D, 0x43, 0x46, 0x47]
  · exact ⟨_, fun _ => if_pos hmcfg, rfl⟩
  · simp only [if_neg hmcfg, if_neg hmadt]
    by_cases hfadt : m.bytes hdr 4 = [0x46, 0x41, 0x43, 0x50]
    · exact ⟨_, fun _ => if_pos hfadt, rfl⟩
    · exact ⟨s, fun _ => if_neg hfadt, rfl⟩

/-- A MADT with `k` entries adds the ids of the enabled ones, if they fit. -/
theorem acpiParseTable_madt {hdr k : Nat} (s : Acpi)
    (hmadt : m.bytes hdr 4 = [0x41, 0x50, 0x49, 0x43]) (hok : MadtOk m hdr k)
    (hroom : s.apicIds.length + enabledLapics m hdr k ≤ apicIdsSize) :
    ∃ t, (∀ fuel, k ≤ fuel → acpiParseTable m fuel hdr s = some t) ∧
      t.apicIds.length = s.apicIds.length + enabledLapics m hdr k := by
  obtain ⟨t, hparse, hlength⟩ := acpiMadtEntries
    (Walk.positions (madtNext m) (add64 hdr madtSize) k) (s := { s with madtTable := hdr }) hroom
  refine ⟨t, fun fuel hfuel => ?_, hlength⟩
  have hvisits := Walk.visits_eq_some.mpr ⟨k, hfuel, hok.chain, rfl⟩
  unfold acpiParseTable acpiParseMadt
  rw [hmadt, if_neg (by decide), if_pos rfl, acpiMadtLoop_eq]
  change (Walk.visits (fun ptr => ptr < add64 hdr (madtLength m hdr)) (madtNext m) fuel
    (add64 hdr madtSize)).bind _ = some t
  rw [hvisits]
  exact hparse

theorem acpiParseTables_succ (fuel root width n i : Nat) (s : Acpi) :
    acpiParseTables m fuel root width (n + 1) i s
      = (acpiParseTable m fuel
          (add64 (m.load (add64 root (sdtHeaderSize + i * width)) width) aosDirectMapBase) s).bind
          (acpiParseTables m fuel root width n (i + 1)) := rfl

/-- Safe tables are parsed to the end, with enough fuel. -/
theorem acpiParseTables_of_safe {root width n i : Nat} {s : Acpi}
    (h : MadtsSafe m (madtsListed m root width n i) s.apicIds.length) :
    ∃ fuel, ∀ fuel', fuel ≤ fuel' →
      ∃ t, acpiParseTables m fuel' root width n i s = some t ∧
        t.apicIds.length ≤ apicIdsSize := by
  induction n generalizing i s with
  | zero => exact ⟨0, fun fuel' _ => ⟨s, rfl, h.room⟩⟩
  | succ n ih =>
      simp only [acpiParseTables_succ]
      unfold madtsListed at h
      generalize add64 (m.load (add64 root (sdtHeaderSize + i * width)) width) aosDirectMapBase
        = hdr at h ⊢
      by_cases hmadt : m.bytes hdr 4 = [0x41, 0x50, 0x49, 0x43]
      · rw [if_pos hmadt] at h
        obtain ⟨fuel, accesses, count', hrun, hsafe, hrest⟩ := h
        obtain ⟨k, hok, rfl⟩ := (madt_safe_iff hrest.room).mp ⟨fuel, accesses, hrun, hsafe⟩
        obtain ⟨t, hparse, hlength⟩ := acpiParseTable_madt s hmadt hok hrest.room
        obtain ⟨fuel', hlater⟩ := ih (i := i + 1) (s := t) (by rw [hlength]; exact hrest)
        refine ⟨max k fuel', fun fuel'' hle => ?_⟩
        rw [hparse fuel'' (Nat.le_trans (Nat.le_max_left _ _) hle)]
        exact hlater fuel'' (Nat.le_trans (Nat.le_max_right _ _) hle)
      · rw [if_neg hmadt] at h
        obtain ⟨t, hparse, hids⟩ := acpiParseTable_other s hmadt
        obtain ⟨fuel', hlater⟩ := ih (i := i + 1) (s := t) (by rw [hids]; exact h)
        refine ⟨fuel', fun fuel'' hle => ?_⟩
        rw [hparse fuel'']
        exact hlater fuel'' hle

end Parser

end Pfi
