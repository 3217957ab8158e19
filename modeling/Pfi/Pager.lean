import Pfi.Avmf
import Pfi.RadixTable

/-! # The pager

    The model of `pager.c`: page-table allocation, `pager_map`,
    `pager_map_range`, `pager_unmap`, `pager_load`, and the 4-level walk the
    processor makes over the tables.

    Physical memory is read and written by page frame and 8-byte entry.  A
    table pointer of the code is an address: `tableFrame` says which frame is
    meant by it, in the identity view before `pager_ready` is set and in the
    direct map afterwards, and an access through a pointer that the tables in
    force do not translate to that frame is put on record.  A table has 512
    entries. -/

namespace Pfi

open Words

/-! ## Constants -/

abbrev pagePresent : Nat := 0x1
abbrev pageRw : Nat := 0x2
abbrev pageUser : Nat := 0x4
abbrev pagePwt : Nat := 0x8
abbrev pagePcd : Nat := 0x10
abbrev pageGlobal : Nat := 0x100
abbrev pageHuge : Nat := 0x80

/-! ## The processor's walk -/

/-- How the processor reads an entry of level `lvl` (3 for the PML4, 0 for a
    page table): bit 0 is PRESENT, bit 7 makes a leaf of an entry of level 1
    or 2, and bits 51:12 are the frame. -/
def x86Kind (lvl e : Nat) : RadixTable.Kind :=
  if e &&& pagePresent = 0 then .absent
  else if lvl = 0 then .leaf
  else if lvl ≤ 2 ∧ e &&& pageHuge ≠ 0 then .leaf
  else .link (e % 2 ^ 52 / pageSize)

/-- The four table indices of page number `n`. -/
def pagePath (n : Nat) : List (Fin 512) :=
  [Fin.ofNat 512 (n / 2 ^ 27), Fin.ofNat 512 (n / 2 ^ 18), Fin.ofNat 512 (n / 2 ^ 9),
    Fin.ofNat 512 n]

/-- The leaf that translates page number `n`, with its level. -/
def walkPage (mem : Nat → Fin 512 → Nat) (root n : Nat) : Option (Nat × Nat) :=
  RadixTable.walk x86Kind mem 3 root (pagePath n)

/-- The physical address that a leaf of level `lvl` gives to address `a`. -/
def leafAddress (lvl e a : Nat) : Nat :=
  e % 2 ^ 52 / 2 ^ (12 + 9 * lvl) * 2 ^ (12 + 9 * lvl) + a % 2 ^ (12 + 9 * lvl)

/-- The translation of address `a` by the tables under frame `root`: the
    physical address and the low 12 bits of the leaf. -/
def hwWalk (mem : Nat → Fin 512 → Nat) (root a : Nat) : Option (Nat × Nat) :=
  (walkPage mem root (a / pageSize)).map
    (fun leaf => (leafAddress leaf.1 leaf.2 a, leaf.2 % 2 ^ 12))

/-- An address is canonical: bits 63:47 are equal. -/
def Canonical (a : Nat) : Prop := a < 2 ^ 47 ∨ (2 ^ 64 - 2 ^ 47 ≤ a ∧ a < 2 ^ 64)

instance (a : Nat) : Decidable (Canonical a) :=
  inferInstanceAs (Decidable (_ ∨ _))

/-! ## State -/

/-- The statics of `pager.c` and `avmf.c`, physical memory and `CR3`.
    `tableLog`, `touched` and `faults` are read by no code: the first records
    what each call of `alloc_page_table` obtained (`0` for a failure), the
    second the frames in which the pager read or stored an entry, the third
    the table pointers through which it could not (see `Machine.Reaches`). -/
structure Machine where
  avmf         : Avmf := {}
  mem          : Nat → Fin 512 → Nat := fun _ _ => 0
  firmwarePml4 : Nat := 0
  mappedPml4   : Nat := 0
  pagerReady   : Bool := false
  cpuPhysBits  : Nat := 0
  cr3          : Nat := 0
  tableLog     : List Nat := []
  touched      : List Nat := []
  faults       : List Nat := []

/-! ## Access to the tables

    The code reads and stores entries through a table pointer, which the
    processor translates like any other address.  `tableFrame` is the frame
    that the code means by the pointer; the access is to that frame just when
    the tables in force translate the pointer to it.  Where they do not, the
    real access faults or strays: the model puts the pointer on record in
    `faults` and goes on with the frame meant, so what it computes from there
    on is no longer what the code does. -/

/-- The translation in force. -/
def Machine.translate (m : Machine) (a : Nat) : Option (Nat × Nat) :=
  hwWalk m.mem (m.cr3 / pageSize) a

/-- The physical address that the processor reaches at `a`; `none` if it
    faults.  `CR3` is `0` as long as the boot tables of `entry.asm` are loaded,
    which are the identity below 1 GiB. -/
def Machine.physical (m : Machine) (a : Nat) : Option Nat :=
  if Canonical a then
    if m.cr3 = 0 then (if a < 2 ^ 30 then some a else none)
    else (m.translate a).map Prod.fst
  else none

/-- The frame that is meant by a table pointer. -/
def tableFrame (ptr : Nat) : Nat :=
  (if aosDirectMapBase ≤ ptr then ptr - aosDirectMapBase else ptr) / pageSize

/-- An access through a table pointer is to the frame that is meant by it. -/
def Machine.Reaches (m : Machine) (tbl : Nat) : Prop :=
  m.physical tbl = some (tableFrame tbl * pageSize)

instance (m : Machine) (tbl : Nat) : Decidable (m.Reaches tbl) :=
  inferInstanceAs (Decidable (_ = _))

/-- The record of an access through a table pointer. -/
def Machine.faultsAt (m : Machine) (tbl : Nat) : List Nat :=
  if m.Reaches tbl then m.faults else tbl :: m.faults

/-- The frame of `firmware_pml4`. -/
def Machine.root (m : Machine) : Nat := tableFrame m.firmwarePml4

/-- `tbl->entries[i]`. -/
def Machine.entry (m : Machine) (tbl : Nat) (i : Fin 512) : Nat :=
  m.mem (tableFrame tbl) i

/-- The pager reads an entry of `tbl`. -/
def Machine.touch (m : Machine) (tbl : Nat) : Machine :=
  { m with touched := tableFrame tbl :: m.touched, faults := m.faultsAt tbl }

/-- `tbl->entries[i] = e`. -/
def Machine.setEntry (m : Machine) (tbl : Nat) (i : Fin 512) (e : Nat) : Machine :=
  { m with
    mem := RadixTable.store m.mem (tableFrame tbl) i e
    touched := tableFrame tbl :: m.touched
    faults := m.faultsAt tbl }

/-- The loop that zeroes the 512 entries of a new table. -/
def Machine.zeroTable (m : Machine) (tbl : Nat) : Machine :=
  { m with
    mem := fun f i => if f = tableFrame tbl then 0 else m.mem f i
    touched := tableFrame tbl :: m.touched
    faults := m.faultsAt tbl }

section Access

variable (m : Machine) (tbl : Nat) (i : Fin 512) (e : Nat)

@[simp] theorem touch_avmf : (m.touch tbl).avmf = m.avmf := rfl
@[simp] theorem touch_mem : (m.touch tbl).mem = m.mem := rfl
@[simp] theorem touch_tableLog : (m.touch tbl).tableLog = m.tableLog := rfl
@[simp] theorem touch_touched :
    (m.touch tbl).touched = tableFrame tbl :: m.touched := rfl
@[simp] theorem setEntry_avmf : (m.setEntry tbl i e).avmf = m.avmf := rfl
@[simp] theorem setEntry_mem :
    (m.setEntry tbl i e).mem = RadixTable.store m.mem (tableFrame tbl) i e := rfl
@[simp] theorem setEntry_tableLog : (m.setEntry tbl i e).tableLog = m.tableLog := rfl
@[simp] theorem setEntry_touched :
    (m.setEntry tbl i e).touched = tableFrame tbl :: m.touched := rfl
@[simp] theorem touch_faults : (m.touch tbl).faults = m.faultsAt tbl := rfl
@[simp] theorem setEntry_faults : (m.setEntry tbl i e).faults = m.faultsAt tbl := rfl

end Access

/-! ## Tables -/

/-- `pager_phys_to_virt`. -/
def pagerPhysToVirt (m : Machine) (phys : Nat) : Nat :=
  if m.pagerReady then add64 phys aosDirectMapBase else phys

/-- What `alloc_page_table` gives: the table pointer (`NULL` on failure) and
    what it leaves in `*phys_out`, which callers preset to `0`. -/
structure TableAlloc where
  tbl : Nat
  phys : Nat
  m : Machine

/-- `alloc_page_table`. -/
def allocPageTable (m : Machine) : TableAlloc :=
  let p := avmfAllocPhysContiguous m.avmf pageSize
  let v := avmfAllocVirt p.2 pageSize .sensitive
  if v.1 = 0 then ⟨0, 0, { m with avmf := v.2, tableLog := m.tableLog ++ [0] }⟩
  else
    let r := avmfAllocRegion v.2 v.1 p.1 pageSize (avmfFlagPresent ||| avmfFlagWriteable)
    let tbl := if m.pagerReady then add64 aosDirectMapBase p.1 else p.1
    if tbl = 0 then ⟨0, 0, { m with avmf := r.2, tableLog := m.tableLog ++ [0] }⟩
    else
      ⟨tbl, p.1, { m with avmf := r.2, tableLog := m.tableLog ++ [p.1] }.zeroTable tbl⟩

/-- `(virt >> shift) & 0x1FF`. -/
def tableIndex (virt shift : Nat) : Fin 512 := Fin.ofNat 512 (virt >>> shift)

/-- One level of the descent of `pager_map`, which the code spells out for the
    PML4, the PDPT and the page directory: the table that entry `i` of `tbl`
    points to, allocated and linked first if the entry is not present. -/
def nextTable (m : Machine) (tbl : Nat) (i : Fin 512) : Nat × Machine :=
  let m := m.touch tbl
  if m.entry tbl i &&& pagePresent = 0 then
    let r := allocPageTable m
    (r.tbl, r.m.setEntry tbl i (r.phys ||| pagePresent ||| pageRw))
  else (pagerPhysToVirt m (m.entry tbl i &&& not64 0xFFF), m)

/-- `phys & ~((1ULL << cpu_phys_bits) - 1)`: the bits a physical address must
    not have. -/
def exceedsCpu (m : Machine) (phys : Nat) : Bool :=
  decide (phys &&& not64 ((1 <<< m.cpuPhysBits) - 1) ≠ 0)

/-- The entry of a 2 MiB leaf. -/
def hugeEntry (phys flags : Nat) : Nat :=
  (phys &&& not64 0x1FFFFF) ||| (flags &&& 0xFFF) ||| pagePresent

/-- The entry of a 4 KiB leaf. -/
def pageEntry (phys flags : Nat) : Nat :=
  (phys &&& not64 0xFFF) ||| (flags &&& 0xFFF) ||| pagePresent

/-- The part of `pager_map` down to the page directory of `virt`. -/
def pageDirectory (m : Machine) (virt : Nat) : Nat × Machine :=
  let pdpt := nextTable m m.firmwarePml4 (tableIndex virt 39)
  nextTable pdpt.2 pdpt.1 (tableIndex virt 30)

/-- `pager_map`: the table pointer it returns (`NULL` on failure) and the
    state. -/
def pagerMap (m : Machine) (virt phys flags : Nat) : Nat × Machine :=
  if exceedsCpu m phys then (0, m)
  else
    let pml4 := m.firmwarePml4
    let pd := pageDirectory m virt
    if flags &&& pageHuge ≠ 0 then
      (pml4, pd.2.setEntry pd.1 (tableIndex virt 21) (hugeEntry phys flags))
    else
      let pt := nextTable pd.2 pd.1 (tableIndex virt 21)
      (pml4, pt.2.setEntry pt.1 (tableIndex virt 12) (pageEntry phys flags))

/-- The loop of `pager_map_range`, at most `fuel` times. -/
def pagerMapRangeLoop (virt phys size flags : Nat) :
    (fuel : Nat) → Machine → (offset : Nat) → Machine
  | 0, m, _ => m
  | fuel + 1, m, offset =>
      if offset < size then
        let remaining := size - offset
        let curVirt := add64 virt offset
        let curPhys := add64 phys offset
        if 0x200000 ≤ remaining ∧ curVirt % 0x200000 = 0 ∧ curPhys % 0x200000 = 0 then
          pagerMapRangeLoop virt phys size flags fuel
            (pagerMap m curVirt curPhys (flags ||| pageHuge)).2 (add64 offset 0x200000)
        else
          pagerMapRangeLoop virt phys size flags fuel
            (pagerMap m curVirt curPhys flags).2 (add64 offset pageSize)
      else m

/-- `pager_map_range`.  Each turn of the loop advances by at least a page, so
    this many turns end it for every size up to `2 ^ 64 - 4096`; for a larger
    one the offset of the C loop wraps to `0` and it does not end. -/
def pagerMapRange (m : Machine) (virt phys size flags : Nat) : Machine :=
  pagerMapRangeLoop virt phys size flags (size / pageSize + 1) m 0

/-- `pager_unmap`. -/
def pagerUnmap (m : Machine) (virt : Nat) : Machine :=
  let pml4 := m.mappedPml4
  if pml4 = 0 then m
  else
    let m := m.touch pml4
    let e4 := m.entry pml4 (tableIndex virt 39)
    if e4 &&& pagePresent = 0 then m
    else
      let pdpt := pagerPhysToVirt m (e4 &&& not64 0xFFF)
      let m := m.touch pdpt
      let e3 := m.entry pdpt (tableIndex virt 30)
      if e3 &&& pagePresent = 0 then m
      else
        let pd := pagerPhysToVirt m (e3 &&& not64 0xFFF)
        let m := m.touch pd
        let e2 := m.entry pd (tableIndex virt 21)
        if e2 &&& pageHuge ≠ 0 then
          m.setEntry pd (tableIndex virt 21) (e2 &&& not64 pagePresent)
        else if e2 &&& pagePresent = 0 then m
        else
          let pt := pagerPhysToVirt m (e2 &&& not64 0xFFF)
          let m := m.touch pt
          m.setEntry pt (tableIndex virt 12)
            (m.entry pt (tableIndex virt 12) &&& not64 pagePresent)

end Pfi
