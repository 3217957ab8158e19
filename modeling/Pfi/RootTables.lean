import Pfi.MadtIds

/-! # The RSDT and the XSDT

    `acpi_parse_rsdt` is two copies of one loop.  The descriptor decides which
    one runs: from revision 2 on over the 8-byte entries of the XSDT, before
    over the 4-byte entries of the RSDT (`rsdtRoot`).

    The number of entries is computed on 64 bits and narrowed to `int`.  A
    length below the header wraps to a negative count, and every other length
    of 32 bits gives the number of whole entries (`acpiEntryCount_eq`).  So
    every entry that is read lies inside the length that was summed.  Of a table
    that passes its checksum each whole entry is read once, unless the loop does
    not come back from a table that is listed before it
    (`acpi_parse_rsdt_inside`); of any other none is
    (`acpi_parse_rsdt_refused`).

    Both copies do the same with every table.  Two root tables that list the
    same addresses leave the same state, from every state
    (`acpi_parse_rsdt_agree`). -/

namespace Pfi

open Words

/-! ## The root table -/

/-- The root table of a descriptor and the width of its entries. -/
def rsdtRoot (m : PhysMem) (rsdp : Nat) : Nat × Nat :=
  if 2 ≤ m.byte (add64 rsdp 15) then (add64 (m.load (add64 rsdp 24) 8) aosDirectMapBase, 8)
  else (add64 (m.load (add64 rsdp 16) 4) aosDirectMapBase, 4)

/-- `header.length`. -/
def rootLength (m : PhysMem) (root : Nat) : Nat := m.load (add64 root 4) 4

/-- The entry at an index, as the address of a table. -/
def rootEntry (m : PhysMem) (root width i : Nat) : Nat :=
  add64 (m.load (add64 root (sdtHeaderSize + i * width)) width) aosDirectMapBase

/-- The indices that the loop reads from `i` on.  The loop does not come back
    from a table whose parse has no end. -/
def entriesRead (m : PhysMem) (fuel root width : Nat) : Nat → Nat → Acpi → List Nat
  | 0, _, _ => []
  | n + 1, i, s =>
      i :: match acpiParseTable m fuel (rootEntry m root width i) s with
        | some s => entriesRead m fuel root width n (i + 1) s
        | none => []

/-- The indices that `acpi_parse_rsdt` reads. -/
def rsdtEntriesRead (m : PhysMem) (fuel rsdp : Nat) (s : Acpi) : List Nat :=
  let (root, width) := rsdtRoot m rsdp
  if acpiChecksum m root (rootLength m root) ≠ 0 then []
  else entriesRead m fuel root width (acpiEntryCount (rootLength m root) width) 0 s

section Root

variable {m : PhysMem}

theorem acpiParseRsdt_eq (fuel rsdp : Nat) (s : Acpi) :
    acpiParseRsdt m fuel rsdp s
      = acpiParseRoot m fuel (rsdtRoot m rsdp).1 (rsdtRoot m rsdp).2 s := by
  unfold acpiParseRsdt rsdtRoot
  by_cases hrev : 2 ≤ m.byte (add64 rsdp 15)
  · rw [if_pos hrev, if_pos hrev]
  · rw [if_neg hrev, if_neg hrev]

theorem rsdtRoot_width (rsdp : Nat) : (rsdtRoot m rsdp).2 = 8 ∨ (rsdtRoot m rsdp).2 = 4 := by
  unfold rsdtRoot
  by_cases hrev : 2 ≤ m.byte (add64 rsdp 15)
  · rw [if_pos hrev]
    exact Or.inl rfl
  · rw [if_neg hrev]
    exact Or.inr rfl

/-! ## The number of entries -/

theorem rootLength_lt (root : Nat) : rootLength m root < 2 ^ 32 :=
  PhysMem.load_lt m (add64 root 4) 4

/-- The count is that of the whole entries, and zero where the difference
    wraps. -/
theorem acpiEntryCount_eq {length width : Nat} (hlength : length < 2 ^ 32)
    (hwidth : width = 8 ∨ width = 4) :
    acpiEntryCount length width = (length - sdtHeaderSize) / width := by
  have hwrap : (2 : Nat) ^ 64 - sdtHeaderSize = 0xFFFFFFFFFFFFFFDC := rfl
  unfold acpiEntryCount add64
  rw [hwrap]
  dsimp only
  by_cases hshort : length < sdtHeaderSize
  · -- the wrapped difference is negative as an `int`
    rw [Nat.sub_eq_zero_of_le (Nat.le_of_lt hshort), Nat.zero_div]
    rcases hwidth with rfl | rfl
    · exact if_neg (by omega)
    · exact if_neg (by omega)
  · have hdiff : (length + 0xFFFFFFFFFFFFFFDC) % 2 ^ 64 = length - sdtHeaderSize := by
      omega
    rw [hdiff]
    rcases hwidth with rfl | rfl
    · rw [if_pos (by omega)]
      omega
    · rw [if_pos (by omega)]
      omega

/-- The indices of the whole entries. -/
theorem lt_acpiEntryCount {length width i : Nat} (hlength : length < 2 ^ 32)
    (hwidth : width = 8 ∨ width = 4) :
    i < acpiEntryCount length width ↔ sdtHeaderSize + (i + 1) * width ≤ length := by
  rw [acpiEntryCount_eq hlength hwidth]
  rcases hwidth with rfl | rfl
  · omega
  · omega

/-! ## The entries that are read -/

/-- Entries are read in order, each at most once. -/
theorem entriesRead_initial (fuel root width n : Nat) : ∀ (i : Nat) (s : Acpi),
    entriesRead m fuel root width n i s <+: List.range' i n := by
  induction n with
  | zero =>
      intro i s
      exact List.prefix_refl _
  | succ n ih =>
      intro i s
      unfold entriesRead
      rw [List.range'_succ, List.prefix_cons_inj]
      cases acpiParseTable m fuel (rootEntry m root width i) s with
      | none => exact List.nil_prefix
      | some s' => exact ih (i + 1) s'

/-- More fuel does not change a parse that ends. -/
theorem acpiParseTable_mono {fuel fuel' hdr : Nat} {s t : Acpi} (hle : fuel ≤ fuel')
    (h : acpiParseTable m fuel hdr s = some t) : acpiParseTable m fuel' hdr s = some t := by
  by_cases hmadt : m.bytes hdr 4 = [0x41, 0x50, 0x49, 0x43]
  · unfold acpiParseTable acpiParseMadt at h ⊢
    rw [hmadt, if_neg (by decide), if_pos rfl, acpiMadtLoop_eq] at h ⊢
    obtain ⟨ptrs, hvisits, hparse⟩ := Option.bind_eq_some_iff.mp h
    obtain ⟨k, hk, hends, rfl⟩ := Walk.visits_eq_some.mp hvisits
    rw [Walk.visits_eq_some.mpr ⟨k, Nat.le_trans hk hle, hends, rfl⟩]
    exact hparse
  · -- the other tables are parsed without a loop
    obtain ⟨t', hsame, -⟩ := acpiParseTable_other s hmadt
    rw [hsame fuel] at h
    rw [hsame fuel']
    exact h

theorem acpiParseTables_mono {fuel fuel' root width n : Nat} (hle : fuel ≤ fuel') :
    ∀ {i : Nat} {s t : Acpi}, acpiParseTables m fuel root width n i s = some t →
      acpiParseTables m fuel' root width n i s = some t := by
  induction n with
  | zero =>
      intro i s t h
      exact h
  | succ n ih =>
      intro i s t h
      rw [acpiParseTables_succ] at h ⊢
      obtain ⟨s', hhead, htail⟩ := Option.bind_eq_some_iff.mp h
      exact Option.bind_eq_some_iff.mpr ⟨s', acpiParseTable_mono hle hhead, ih htail⟩

/-- The loop comes from index `i` to the table `d` indices behind it, and does
    not come back from there. -/
def StuckAt (m : PhysMem) (root width i : Nat) (s : Acpi) (d : Nat) : Prop :=
  ∃ fuel s', acpiParseTables m fuel root width d i s = some s' ∧
    ∀ fuel', acpiParseTable m fuel' (rootEntry m root width (i + d)) s' = none

/-- An entry is read, with enough fuel, unless the loop is stuck in a table
    before it. -/
theorem mem_entriesRead {root width n : Nat} : ∀ {i j : Nat} {s : Acpi}, i ≤ j → j < i + n →
    (∃ fuel, ∀ fuel', fuel ≤ fuel' → j ∈ entriesRead m fuel' root width n i s) ∨
      ∃ d, i + d < j ∧ StuckAt m root width i s d := by
  induction n with
  | zero =>
      intro i j s hlow hhigh
      exact absurd hhigh (Nat.not_lt_of_le hlow)
  | succ n ih =>
      intro i j s hlow hhigh
      rcases Nat.eq_or_lt_of_le hlow with rfl | hlt
      · refine Or.inl ⟨0, fun fuel _ => ?_⟩
        unfold entriesRead
        exact List.mem_cons_self
      · by_cases hstuck : ∀ fuel, acpiParseTable m fuel (rootEntry m root width i) s = none
        · exact Or.inr ⟨0, hlt, 0, s, rfl, hstuck⟩
        · push Not at hstuck
          obtain ⟨fuel₁, hends⟩ := hstuck
          obtain ⟨s', hhead⟩ := Option.ne_none_iff_exists'.mp hends
          rcases ih (s := s') hlt (by omega) with ⟨fuel₂, hmem⟩ | ⟨d, hd, fuel₂, u, hparse, hnone⟩
          · refine Or.inl ⟨max fuel₁ fuel₂, fun fuel hfuel => ?_⟩
            have hhere := acpiParseTable_mono (Nat.le_trans (Nat.le_max_left _ _) hfuel) hhead
            unfold entriesRead
            rw [hhere]
            exact List.mem_cons_of_mem _ (hmem fuel (Nat.le_trans (Nat.le_max_right _ _) hfuel))
          · refine Or.inr ⟨d + 1, by omega, max fuel₁ fuel₂, u, ?_, ?_⟩
            · rw [acpiParseTables_succ]
              exact Option.bind_eq_some_iff.mpr
                ⟨s', acpiParseTable_mono (Nat.le_max_left _ _) hhead,
                  acpiParseTables_mono (Nat.le_max_right _ _) hparse⟩
            · intro fuel
              have hidx : i + (d + 1) = i + 1 + d := by omega
              rw [hidx]
              exact hnone fuel

/-- Every entry that is read lies inside the length of the table, none is read
    twice, and of a table that passes its checksum each whole entry is read
    once, with enough fuel, unless the loop is stuck in a table that an
    earlier entry lists. -/
theorem acpi_parse_rsdt_inside (m : PhysMem) (rsdp : Nat) (s : Acpi) :
    (∀ fuel, (∀ i ∈ rsdtEntriesRead m fuel rsdp s,
      sdtHeaderSize + (i + 1) * (rsdtRoot m rsdp).2 ≤ rootLength m (rsdtRoot m rsdp).1) ∧
      (rsdtEntriesRead m fuel rsdp s).Nodup) ∧
    (acpiChecksum m (rsdtRoot m rsdp).1 (rootLength m (rsdtRoot m rsdp).1) = 0 →
      ∀ i, sdtHeaderSize + (i + 1) * (rsdtRoot m rsdp).2 ≤ rootLength m (rsdtRoot m rsdp).1 →
        (∃ fuel, ∀ fuel', fuel ≤ fuel' → (rsdtEntriesRead m fuel' rsdp s).count i = 1) ∨
          ∃ q, q < i ∧ StuckAt m (rsdtRoot m rsdp).1 (rsdtRoot m rsdp).2 0 s q) := by
  have hwidth := @rsdtRoot_width m rsdp
  have hlength := @rootLength_lt m (rsdtRoot m rsdp).1
  unfold rsdtEntriesRead
  generalize rsdtRoot m rsdp = r at hwidth hlength ⊢
  obtain ⟨root, width⟩ := r
  dsimp only at hwidth hlength ⊢
  by_cases hsum : acpiChecksum m root (rootLength m root) = 0
  · simp only [if_neg (not_not.mpr hsum)]
    have hinitial : ∀ fuel, entriesRead m fuel root width
        (acpiEntryCount (rootLength m root) width) 0 s
          <+: List.range' 0 (acpiEntryCount (rootLength m root) width) :=
      fun fuel => entriesRead_initial fuel root width _ 0 s
    have hnodup := fun fuel => (hinitial fuel).sublist.nodup List.nodup_range'
    refine ⟨fun fuel => ⟨fun i hi => ?_, hnodup fuel⟩, fun _ i hi => ?_⟩
    · have hmem := List.mem_range'_1.mp ((hinitial fuel).subset hi)
      exact (lt_acpiEntryCount hlength hwidth).mp (by omega)
    · have hlt := (lt_acpiEntryCount hlength hwidth).mpr hi
      rcases mem_entriesRead (s := s) (Nat.zero_le i) (by rw [Nat.zero_add]; exact hlt)
        with ⟨fuel, hmem⟩ | ⟨q, hq, hstuck⟩
      · exact Or.inl ⟨fuel, fun fuel' hfuel =>
          List.count_eq_one_of_mem (hnodup fuel') (hmem fuel' hfuel)⟩
      · rw [Nat.zero_add] at hq
        exact Or.inr ⟨q, hq, hstuck⟩
  · simp only [if_pos hsum]
    exact ⟨fun fuel => ⟨fun i hi => absurd hi List.not_mem_nil, List.nodup_nil⟩,
      fun hc => absurd hc hsum⟩

/-- An RSDT at 64 with one entry, whose bytes do not add up to zero. -/
def unsummedRsdt : PhysMem := fun p =>
  match p with
  | 16 => 64
  | 68 => 40 | 100 => 220
  | _ => 0

/-- The RSDT has a whole entry, but its checksum is wrong and the entry is never
    read. -/
theorem acpi_parse_rsdt_refused :
    rsdtRoot unsummedRsdt aosDirectMapBase = (64 + aosDirectMapBase, 4) ∧
      sdtHeaderSize ≤ rootLength unsummedRsdt (64 + aosDirectMapBase) ∧
      sdtHeaderSize + (0 + 1) * 4 ≤ rootLength unsummedRsdt (64 + aosDirectMapBase) ∧
      ∀ fuel,
        (rsdtEntriesRead unsummedRsdt fuel aosDirectMapBase { iflag := false }).count 0 = 0 := by
  have hroot : rsdtRoot unsummedRsdt aosDirectMapBase = (64 + aosDirectMapBase, 4) := by
    decide +kernel
  have hsum : acpiChecksum unsummedRsdt (64 + aosDirectMapBase)
      (rootLength unsummedRsdt (64 + aosDirectMapBase)) ≠ 0 := by decide +kernel
  refine ⟨hroot, by decide +kernel, by decide +kernel, fun fuel => ?_⟩
  unfold rsdtEntriesRead
  rw [hroot]
  dsimp only
  rw [if_pos hsum]
  rfl

/-! ## Two root tables with the same list -/

/-- A root table that passes its checksum and lists these addresses. -/
structure HoldsTables (m : PhysMem) (root width : Nat) (addrs : List Nat) : Prop where
  checksum : acpiChecksum m root (rootLength m root) = 0
  lower : sdtHeaderSize + addrs.length * width ≤ rootLength m root
  upper : rootLength m root < sdtHeaderSize + (addrs.length + 1) * width
  entries : ∀ i, i < addrs.length →
    m.load (add64 root (sdtHeaderSize + i * width)) width = addrs.getD i 0

/-- The loop, as a fold over the addresses that are listed. -/
theorem acpiParseTables_fold {fuel root width : Nat} (addrs : List Nat) : ∀ {i : Nat} {s : Acpi},
    (∀ j, j < addrs.length →
      m.load (add64 root (sdtHeaderSize + (i + j) * width)) width = addrs.getD j 0) →
    acpiParseTables m fuel root width addrs.length i s
      = addrs.foldlM (fun s a => acpiParseTable m fuel (add64 a aosDirectMapBase) s) s := by
  induction addrs with
  | nil =>
      intro i s _
      rfl
  | cons a addrs ih =>
      intro i s hentries
      have hhead := hentries 0 (Nat.succ_pos _)
      rw [Nat.add_zero, List.getD_cons_zero] at hhead
      rw [List.length_cons, acpiParseTables_succ, hhead, List.foldlM_cons]
      refine congrArg _ (funext fun s' => ih ?_)
      intro j hj
      have hnext := hentries (j + 1) (Nat.succ_lt_succ hj)
      rw [List.getD_cons_succ] at hnext
      rw [← hnext, Nat.add_assoc, Nat.add_comm 1 j]

/-- What the parse of a root table does depends on its list only. -/
theorem HoldsTables.parse {root width : Nat} {addrs : List Nat}
    (h : HoldsTables m root width addrs) (hwidth : width = 8 ∨ width = 4) (fuel : Nat) (s : Acpi) :
    acpiParseRoot m fuel root width s
      = addrs.foldlM (fun s a => acpiParseTable m fuel (add64 a aosDirectMapBase) s) s := by
  have hcount : acpiEntryCount (rootLength m root) width = addrs.length := by
    have hlower := h.lower
    have hupper := h.upper
    rw [acpiEntryCount_eq (rootLength_lt root) hwidth]
    rcases hwidth with rfl | rfl
    · omega
    · omega
  have hparse : acpiParseRoot m fuel root width s
      = acpiParseTables m fuel root width (acpiEntryCount (rootLength m root) width) 0 s :=
    if_neg (not_not.mpr h.checksum)
  rw [hparse, hcount]
  refine acpiParseTables_fold addrs (fun j hj => ?_)
  rw [Nat.zero_add]
  exact h.entries j hj

/-- A descriptor of revision 2 and one of an earlier revision whose root
    tables list the same addresses are parsed to the same state, or neither
    parse ends. -/
theorem acpi_parse_rsdt_agree {rsdp rsdp' : Nat} {addrs : List Nat}
    (hrev : 2 ≤ m.byte (add64 rsdp 15)) (hrev' : m.byte (add64 rsdp' 15) < 2)
    (hxsdt : HoldsTables m (add64 (m.load (add64 rsdp 24) 8) aosDirectMapBase) 8 addrs)
    (hrsdt : HoldsTables m (add64 (m.load (add64 rsdp' 16) 4) aosDirectMapBase) 4 addrs)
    (fuel : Nat) (s : Acpi) :
    acpiParseRsdt m fuel rsdp s = acpiParseRsdt m fuel rsdp' s := by
  unfold acpiParseRsdt
  rw [if_pos hrev, if_neg (Nat.not_le_of_lt hrev'), hxsdt.parse (Or.inl rfl),
    hrsdt.parse (Or.inr rfl)]

/-- A descriptor at 0 with an RSDT at 64, one of revision 2 at 128 with an
    XSDT at 160, and an MCFG at 220 and a MADT with one processor at 300 that
    both list. -/
def bothRoots : PhysMem := fun p =>
  match p with
  | 16 => 64
  | 68 => 44 | 73 => 203 | 100 => 220 | 104 => 44 | 105 => 1
  | 143 => 2 | 152 => 160
  | 164 => 52 | 169 => 195 | 196 => 220 | 204 => 44 | 205 => 1
  | 220 => 0x4D | 221 => 0x43 | 222 => 0x46 | 223 => 0x47
  | 300 => 0x41 | 301 => 0x50 | 302 => 0x49 | 303 => 0x43 | 304 => 52
  | 345 => 8 | 347 => 7 | 348 => 1
  | _ => 0

theorem acpi_parse_rsdt_agree_both :
    acpiParseRsdt bothRoots 2 (128 + aosDirectMapBase) { iflag := false }
      = acpiParseRsdt bothRoots 2 aosDirectMapBase { iflag := false } ∧
    acpiParseRsdt bothRoots 2 aosDirectMapBase { iflag := false }
      = some { iflag := false, mcfgTable := 220 + aosDirectMapBase
               madtTable := 300 + aosDirectMapBase, apicIds := [7] } := by
  have hxsdt : HoldsTables bothRoots (160 + aosDirectMapBase) 8 [220, 300] :=
    ⟨by decide +kernel, by decide, by decide, by decide +kernel⟩
  have hrsdt : HoldsTables bothRoots (64 + aosDirectMapBase) 4 [220, 300] :=
    ⟨by decide +kernel, by decide, by decide, by decide +kernel⟩
  have hroot : add64 (bothRoots.load (add64 (128 + aosDirectMapBase) 24) 8) aosDirectMapBase
      = 160 + aosDirectMapBase := by decide +kernel
  have hroot' : add64 (bothRoots.load (add64 aosDirectMapBase 16) 4) aosDirectMapBase
      = 64 + aosDirectMapBase := by decide +kernel
  rw [← hroot] at hxsdt
  rw [← hroot'] at hrsdt
  exact ⟨acpi_parse_rsdt_agree (by decide) (by decide) hxsdt hrsdt 2 _, by decide +kernel⟩

end Root

end Pfi
