import Pfi.BitmapBounds

/-! # The table of memory regions

    `add_region` fills a table of 128 entries, and `pager_init` collects the
    base and limit of its RAM entries in two arrays of the same size.

    As long as the table is not over-full, a call appends its region
    (`table_addRegion`), so after at most 128 calls the table holds the regions
    in their order, and the arrays get one element for each that is RAM and not
    empty (`pagerScan_ranges`).  The capacity test is `>` where `>=` is needed:
    the 129th call stores behind the table, and only the next one starts again
    at 0.  So everything is as it should be exactly for up to 128 calls
    (`e820_safe_iff`). -/

namespace Pfi

open Words Run

/-! ## The table -/

/-- `struct e820_entry`, with its attribute word. -/
structure E820Region extends E820Entry where
  ext : Nat
deriving DecidableEq

abbrev maxE820Entries : Nat := 128

/-- `struct e820`, and the memory behind its entries. -/
structure E820 where
  entryCount : Nat
  entries : Nat → E820Region

/-- `g_e820` at the start. -/
def e820Boot (behind : Nat → E820Region) : E820 :=
  { entryCount := 0
    entries := fun i => if i < maxE820Entries then ⟨⟨0, 0, 0⟩, 0⟩ else behind i }

/-- The arguments of `add_region`. -/
structure RegionArgs where
  base : Nat
  len : Nat
  type : Nat
  ext : Nat

/-- The entry that a call stores; the type and the attribute word have 32 bits. -/
def RegionArgs.stored (r : RegionArgs) : E820Region :=
  ⟨⟨r.base, r.len, r.type % 2 ^ 32⟩, r.ext % 2 ^ 32⟩

/-- The index at which the next call stores. -/
def E820.slot (s : E820) : Nat := if maxE820Entries < s.entryCount then 0 else s.entryCount

/-- An entry is stored at the next index. -/
def addRegion (s : E820) (r : RegionArgs) : E820 :=
  { entryCount := s.slot + 1
    entries := Function.update s.entries s.slot r.stored }

/-- The entries that are in use. -/
def E820.table (s : E820) : List E820Region := (List.range s.entryCount).map s.entries

/-- `init_basic_e820` -/
def initBasicE820 (s : E820) : E820 :=
  exec addRegion s
    [ ⟨0x00000000, 0x00300000, e820TypeReserved, 0⟩,
      ⟨0x00300000, 0x10000000 - 0x00300000, e820TypeRam, 0⟩,
      ⟨0xE0000000, 0x10000000, e820TypeReserved, 0⟩,
      ⟨0xFEC00000, 0x00001000, e820TypeReserved, 0⟩,
      ⟨0xFEE00000, 0x00001000, e820TypeReserved, 0⟩,
      ⟨0xFF000000, 0x01000000, e820TypeReserved, 0⟩ ]

section Table

variable {s : E820} {calls : List RegionArgs}

/-- While there is room the next entry goes behind the others. -/
theorem E820.slot_eq (h : s.entryCount ≤ maxE820Entries) : s.slot = s.entryCount :=
  if_neg (Nat.not_lt.mpr h)

/-- The table has as many entries as the count says. -/
theorem E820.table_length (s : E820) : s.table.length = s.entryCount := by
  unfold table
  rw [List.length_map, List.length_range]

/-- A call appends its region, up to and with the 129th. -/
theorem table_addRegion (h : s.entryCount ≤ maxE820Entries) (r : RegionArgs) :
    (addRegion s r).table = s.table ++ [r.stored] := by
  unfold E820.table addRegion
  dsimp only
  rw [E820.slot_eq h, List.range_succ, List.map_append, List.map_singleton, Function.update_self]
  congr 1
  refine List.map_congr_left (fun i hi => ?_)
  rw [Function.update_of_ne (Nat.ne_of_lt (List.mem_range.mp hi))]

/-- Each entry counts. -/
theorem entryCount_addRegion (h : s.entryCount ≤ maxE820Entries) (r : RegionArgs) :
    (addRegion s r).entryCount = s.entryCount + 1 := by
  unfold addRegion
  rw [E820.slot_eq h]

/-- The table after calls for which it has room. -/
theorem table_run (h : s.entryCount + calls.length ≤ maxE820Entries) :
    (exec addRegion s calls).table = s.table ++ calls.map RegionArgs.stored := by
  induction calls generalizing s with
  | nil => exact (List.append_nil _).symm
  | cons r calls ih =>
      rw [List.length_cons] at h
      have hle : s.entryCount ≤ maxE820Entries := by omega
      have hnext : (addRegion s r).entryCount + calls.length ≤ maxE820Entries := by
        rw [entryCount_addRegion hle]
        omega
      rw [exec_cons, ih hnext, table_addRegion hle, List.append_assoc]
      rfl

/-- Each store goes to an entry as long as there is room. -/
theorem stores_run (h : s.entryCount + calls.length ≤ maxE820Entries) :
    Along addRegion (fun s _ => s.slot < maxE820Entries) s calls := by
  induction calls generalizing s with
  | nil => trivial
  | cons r calls ih =>
      rw [List.length_cons] at h
      have hle : s.entryCount ≤ maxE820Entries := by omega
      refine ⟨?_, ih ?_⟩
      · show s.slot < maxE820Entries
        rw [E820.slot_eq hle]
        omega
      · rw [entryCount_addRegion hle]
        omega

/-- The count passes the capacity with the first call for which there is no
    room. -/
theorem count_run_iff (h : s.entryCount ≤ maxE820Entries) :
    Throughout addRegion (fun s => s.entryCount ≤ maxE820Entries) s calls ↔
      s.entryCount + calls.length ≤ maxE820Entries := by
  induction calls generalizing s with
  | nil => exact Iff.rfl
  | cons r calls ih =>
      have hcount := entryCount_addRegion h r
      rw [List.length_cons]
      constructor
      · rintro ⟨-, hrest⟩
        have hnext := hrest.head
        have hlen := (ih hnext).mp hrest
        omega
      · intro hlen
        refine ⟨h, (ih ?_).mpr ?_⟩
        · omega
        · omega

end Table

/-! ## The scan of `pager_init` -/

/-- The variables of the loop. -/
structure E820Scan where
  maxPhysAddr : Nat
  basePhys : Nat → Nat
  limitPhys : Nat → Nat
  physIdx : Nat

/-- The test for an entry that goes into the arrays. -/
def E820Region.Usable (e : E820Region) : Prop := e.len ≠ 0 ∧ e.type = e820TypeRam

instance (e : E820Region) : Decidable e.Usable := inferInstanceAs (Decidable (_ ∧ _))

/-- The scan takes over the range of an entry that is usable. -/
def scanEntry (t : E820Scan) (e : E820Region) : E820Scan :=
  let endAddr := add64 e.base e.len
  if e.len = 0 then t
  else if e.type = e820TypeRam then
    { maxPhysAddr := if t.maxPhysAddr < endAddr then endAddr else t.maxPhysAddr
      basePhys := Function.update t.basePhys t.physIdx e.base
      limitPhys := Function.update t.limitPhys t.physIdx endAddr
      physIdx := t.physIdx + 1 }
  else t

/-- The loop, on arrays that are not initialised. -/
def pagerScan (s : E820) (basePhys limitPhys : Nat → Nat) : E820Scan :=
  exec scanEntry ⟨0, basePhys, limitPhys, 0⟩ s.table

/-- The first `n` ranges of two arrays. -/
def rangesOf (basePhys limitPhys : Nat → Nat) (n : Nat) : List (Nat × Nat) :=
  (List.range n).map (fun i => (basePhys i, limitPhys i))

section Scan

variable {t : E820Scan} {e : E820Region} {es : List E820Region}

/-- The other entries are skipped. -/
theorem scanEntry_skip (h : ¬ e.Usable) : scanEntry t e = t := by
  unfold scanEntry
  dsimp only
  by_cases hlen : e.len = 0
  · rw [if_pos hlen]
  · rw [if_neg hlen, if_neg (fun htype => h ⟨hlen, htype⟩)]

/-- A usable entry adds its range behind the others. -/
theorem scanEntry_usable (h : e.Usable) :
    (scanEntry t e).physIdx = t.physIdx + 1 ∧
      rangesOf (scanEntry t e).basePhys (scanEntry t e).limitPhys (t.physIdx + 1)
        = rangesOf t.basePhys t.limitPhys t.physIdx ++ [(e.base, add64 e.base e.len)] := by
  unfold scanEntry
  dsimp only
  rw [if_neg h.1, if_pos h.2]
  refine ⟨rfl, ?_⟩
  unfold rangesOf
  rw [List.range_succ, List.map_append, List.map_singleton]
  dsimp only
  rw [Function.update_self, Function.update_self]
  congr 1
  refine List.map_congr_left (fun i hi => ?_)
  have hne := Nat.ne_of_lt (List.mem_range.mp hi)
  rw [Function.update_of_ne hne, Function.update_of_ne hne]

/-- The ranges of the first entry and of the others. -/
theorem ramRanges_cons (e : E820Region) (es : List E820Region) :
    ramRanges ((e :: es).map E820Region.toE820Entry)
      = (if e.Usable then [(e.base, add64 e.base e.len)] else [])
        ++ ramRanges (es.map E820Region.toE820Entry) := by
  unfold ramRanges
  rw [List.map_cons, List.filter_cons]
  by_cases h : e.Usable
  · have hkeep : decide (e.len ≠ 0 ∧ e.type = e820TypeRam) = true := decide_eq_true h
    rw [if_pos h]
    simp only [hkeep, if_true]
    rfl
  · have hdrop : decide (e.len ≠ 0 ∧ e.type = e820TypeRam) = false := decide_eq_false h
    rw [if_neg h]
    simp only [hdrop, Bool.false_eq_true, if_false]
    rfl

/-- The arrays get the RAM entries that are not empty, in their order. -/
theorem scan_ranges (t : E820Scan) (es : List E820Region) :
    rangesOf (exec scanEntry t es).basePhys (exec scanEntry t es).limitPhys
        (exec scanEntry t es).physIdx
      = rangesOf t.basePhys t.limitPhys t.physIdx
        ++ ramRanges (es.map E820Region.toE820Entry) := by
  induction es generalizing t with
  | nil => exact (List.append_nil _).symm
  | cons e es ih =>
      rw [exec_cons, ih, ramRanges_cons]
      by_cases h : e.Usable
      · obtain ⟨hidx, hranges⟩ := scanEntry_usable (t := t) h
        rw [if_pos h, hidx, hranges, List.append_assoc]
      · rw [if_neg h, scanEntry_skip h]
        rfl

/-- An index of the arrays is at most the number of entries before it. -/
theorem scan_indices (h : t.physIdx + es.length ≤ maxE820Entries) :
    Along scanEntry (fun t e => e.Usable → t.physIdx < maxE820Entries) t es := by
  induction es generalizing t with
  | nil => trivial
  | cons e es ih =>
      rw [List.length_cons] at h
      refine ⟨fun _ => by omega, ih ?_⟩
      by_cases husable : e.Usable
      · rw [(scanEntry_usable husable).1]
        omega
      · rw [scanEntry_skip husable]
        omega

/-- The scan gives the ranges of the usable entries, in order. -/
theorem pagerScan_ranges (s : E820) (basePhys limitPhys : Nat → Nat) :
    rangesOf (pagerScan s basePhys limitPhys).basePhys (pagerScan s basePhys limitPhys).limitPhys
        (pagerScan s basePhys limitPhys).physIdx
      = ramRanges (s.table.map E820Region.toE820Entry) :=
  scan_ranges ⟨0, basePhys, limitPhys, 0⟩ s.table

/-- As many ranges as the count says. -/
theorem rangesOf_length (basePhys limitPhys : Nat → Nat) (n : Nat) :
    (rangesOf basePhys limitPhys n).length = n := by
  unfold rangesOf
  rw [List.length_map, List.length_range]

/-- There are no more ranges than entries. -/
theorem ramRanges_length_le (es : List E820Entry) : (ramRanges es).length ≤ es.length := by
  unfold ramRanges
  rw [List.length_map]
  exact List.length_filter_le _ _

end Scan

/-! ## What `avmf_init` gets -/

/-- The scan and the call of `avmf_init`; the number of ranges is a `uint8_t`. -/
def E820.handOver (s : E820) (basePhys limitPhys : Nat → Nat) (a : Avmf) : Avmf :=
  let t := pagerScan s basePhys limitPhys
  avmfInit a t.basePhys t.limitPhys t.physIdx

/-! ## No overflow -/

/-- Calls of `add_region` from the start, and then the scan: the stores stay in
    the table and in the arrays, the first 128 regions are kept, and `avmf_init`
    gets the RAM among them. -/
structure E820Safe (behind : Nat → E820Region) (calls : List RegionArgs)
    (basePhys limitPhys : Nat → Nat) : Prop where
  stores : Along addRegion (fun s _ => s.slot < maxE820Entries) (e820Boot behind) calls
  count : Throughout addRegion (fun s => s.entryCount ≤ maxE820Entries) (e820Boot behind) calls
  kept : (exec addRegion (e820Boot behind) calls).table
    = (calls.take maxE820Entries).map RegionArgs.stored
  indices : Along scanEntry (fun t e => e.Usable → t.physIdx < maxE820Entries)
    ⟨0, basePhys, limitPhys, 0⟩ (exec addRegion (e820Boot behind) calls).table
  handed : ∀ a : Avmf,
    let n := (ramRanges ((calls.take maxE820Entries).map (fun r => r.stored.toE820Entry))).length
    let a' := (exec addRegion (e820Boot behind) calls).handOver basePhys limitPhys a
    (pagerScan (exec addRegion (e820Boot behind) calls) basePhys limitPhys).physIdx = n ∧
      rangesOf a'.avmfBase a'.avmfLimit n
        = ramRanges ((calls.take maxE820Entries).map (fun r => r.stored.toE820Entry))

/-- `add_region` and the scan are safe exactly for up to 128 regions. -/
theorem e820_safe_iff (behind : Nat → E820Region) (calls : List RegionArgs)
    (basePhys limitPhys : Nat → Nat) :
    E820Safe behind calls basePhys limitPhys ↔ calls.length ≤ maxE820Entries := by
  have hstart : (e820Boot behind).entryCount = 0 := rfl
  have hcount := @count_run_iff (e820Boot behind) calls (Nat.zero_le _)
  rw [hstart, Nat.zero_add] at hcount
  refine ⟨fun h => hcount.mp h.count, fun h => ?_⟩
  have hroom : (e820Boot behind).entryCount + calls.length ≤ maxE820Entries := by
    rw [hstart, Nat.zero_add]
    exact h
  have htable : (exec addRegion (e820Boot behind) calls).table = calls.map RegionArgs.stored :=
    table_run hroom
  have hlength := E820.table_length (exec addRegion (e820Boot behind) calls)
  rw [htable, List.length_map] at hlength
  refine ⟨stores_run hroom, hcount.mpr h, ?_, scan_indices ?_, fun a => ?_⟩
  · rw [List.take_of_length_le h]
    exact htable
  · rw [htable, List.length_map, Nat.zero_add]
    exact h
  · have hranges := pagerScan_ranges (exec addRegion (e820Boot behind) calls) basePhys limitPhys
    rw [htable, List.map_map] at hranges
    have hidx := congrArg List.length hranges
    rw [rangesOf_length] at hidx
    have hle := ramRanges_length_le (calls.map (E820Region.toE820Entry ∘ RegionArgs.stored))
    rw [List.length_map, ← hidx] at hle
    dsimp only
    rw [List.take_of_length_le h]
    refine ⟨hidx, ?_⟩
    refine Eq.trans ?_ hranges
    unfold E820.handOver
    generalize pagerScan (exec addRegion (e820Boot behind) calls) basePhys limitPhys = t
      at hidx hle
    rw [show (ramRanges (calls.map (fun r => r.stored.toE820Entry))).length = t.physIdx from
      hidx.symm]
    refine List.map_congr_left (fun i hi => ?_)
    have hi := List.mem_range.mp hi
    unfold maxE820Entries at h
    obtain ⟨hbase, hlimit⟩ := @avmfInit_range t.basePhys t.limitPhys t.physIdx i a
      (by rw [Nat.mod_eq_of_lt (by omega)]; exact hi) (by omega)
    rw [hbase, hlimit]

/-- The 129th region goes behind the table. -/
theorem e820_overflows :
    ¬ E820Safe (fun _ => ⟨⟨0, 0, 0⟩, 0⟩) (List.replicate 129 ⟨0, 4096, e820TypeRam, 0⟩)
      (fun _ => 0) (fun _ => 0) := by
  intro h
  exact absurd h.stores (by decide +kernel)

/-- The map of the firmware is what the pager is started with. -/
example (behind : Nat → E820Region) :
    (initBasicE820 (e820Boot behind)).table.map E820Region.toE820Entry = basicE820 := rfl

end Pfi
