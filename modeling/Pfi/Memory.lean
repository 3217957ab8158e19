import Pfi.Pager

/-! # The memory system: `avmf_alloc`, `avmf_free` and `pager_init`

    The part of `avmf.c` that calls the pager, and the start of both from an
    E820 map.  `pager_init` retries the allocation of the PML4 until it
    succeeds; the model bounds the retries and gives `none` when they run
    out. -/

namespace Pfi

open Words

/-! ## Allocation and release -/

/-- What `avmf_alloc` gives: the address (`0` on failure), what it stores in
    `*phys_out` (nothing on failure), and the state. -/
structure AllocResult where
  virt : Nat
  physOut : Option Nat
  m : Machine

/-- `avmf_alloc`.  `flags` is the `int` argument widened to 64 bits. -/
def avmfAlloc (m : Machine) (size : Nat) (type : MemoryAllocType) (flags : Nat) :
    AllocResult :=
  let v := avmfAllocVirt m.avmf size type
  if v.1 = 0 then ⟨0, none, { m with avmf := v.2 }⟩
  else
    let trueSize := align4k size
    let p := avmfAllocPhysContiguous v.2 trueSize
    if p.1 = 0 then ⟨0, none, { m with avmf := p.2 }⟩
    else
      let r := avmfAllocRegion p.2 v.1 p.1 trueSize flags
      if r.1 = 0 then ⟨0, none, { m with avmf := r.2 }⟩
      else ⟨v.1, some p.1, pagerMapRange { m with avmf := r.2 } v.1 p.1 trueSize flags⟩

/-- `avmf_free`. -/
def avmfFree (m : Machine) (virt : Nat) : Machine :=
  match avmfFind m.avmf virt with
  | (none, a) => { m with avmf := a }
  | (some j, a) =>
      let hdr := a.header j
      pagerUnmap
        { m with
          avmf :=
            { a with
              avmfBitmap :=
                bitmapClearRun a.avmfBitmap (hdr.physAddr / pageSize) (hdr.size / pageSize) } }
        virt

/-! ## Starting -/

/-- `struct e820_entry`, without the attribute word that nothing here
    reads. -/
structure E820Entry where
  base : Nat
  len : Nat
  type : Nat
deriving Repr, DecidableEq

abbrev e820TypeRam : Nat := 1
abbrev e820TypeReserved : Nat := 2

/-- The map that `init_basic_e820` builds. -/
def basicE820 : List E820Entry :=
  [ ⟨0x00000000, 0x00300000, e820TypeReserved⟩,
    ⟨0x00300000, 0x10000000 - 0x00300000, e820TypeRam⟩,
    ⟨0xE0000000, 0x10000000, e820TypeReserved⟩,
    ⟨0xFEC00000, 0x00001000, e820TypeReserved⟩,
    ⟨0xFEE00000, 0x00001000, e820TypeReserved⟩,
    ⟨0xFF000000, 0x01000000, e820TypeReserved⟩ ]

/-- The base and limit of each RAM entry, as `pager_init` collects them. -/
def ramRanges (e820 : List E820Entry) : List (Nat × Nat) :=
  (e820.filter (fun e => decide (e.len ≠ 0 ∧ e.type = e820TypeRam))).map
    (fun e => (e.base, add64 e.base e.len))

/-- The loop that allocates the PML4, with at most `retries` calls. -/
def allocPml4 : (retries : Nat) → Machine → Option Machine
  | 0, m => if m.firmwarePml4 = 0 then none else some m
  | retries + 1, m =>
      if m.firmwarePml4 = 0 then
        let r := allocPageTable m
        allocPml4 retries { r.m with firmwarePml4 := r.tbl }
      else some m

/-- `start` in the loop over the direct map: the hole before an entry is
    mapped with it. -/
def directStart (lastMapEnd : Nat) (e : E820Entry) : Nat :=
  if lastMapEnd < e.base then lastMapEnd else e.base

/-- `len` in the loop over the direct map. -/
def directLen (lastMapEnd : Nat) (e : E820Entry) : Nat :=
  if lastMapEnd < e.base then add64 (e.base - lastMapEnd) e.len else e.len

/-- The loop that maps the direct map. -/
def mapDirect : List E820Entry → (lastMapEnd : Nat) → Machine → Machine
  | [], _, m => m
  | e :: es, lastMapEnd, m =>
      if e.len < 1 then mapDirect es lastMapEnd m
      else
        let start := directStart lastMapEnd e
        let len := directLen lastMapEnd e
        let endAddr := add64 start len
        if exceedsCpu m endAddr then m
        else
          mapDirect es endAddr
            (pagerMapRange m (add64 aosDirectMapBase start) start len
              (pagePresent ||| pageRw ||| pagePcd))

/-- The three identity windows. -/
def mapIdentity (m : Machine) : Machine :=
  let m := pagerMapRange m 0xFF000000 0xFF000000 0x00FFFFFF (pagePresent ||| pageRw)
  let m := pagerMapRange m 0x0 0x0 0x80000 (pagePresent ||| pageRw)
  pagerMapRange m 0x100000 0x100000 0x200000 (pagePresent ||| pageRw)

theorem mapIdentity_eq (m : Machine) :
    mapIdentity m
      = pagerMapRange
          (pagerMapRange
            (pagerMapRange m 0xFF000000 0xFF000000 0x00FFFFFF (pagePresent ||| pageRw))
            0x0 0x0 0x80000 (pagePresent ||| pageRw))
          0x100000 0x100000 0x200000 (pagePresent ||| pageRw) := rfl

/-- `pager_load`. -/
def pagerLoad (m : Machine) (pml4 : Nat) : Machine :=
  if m.pagerReady then
    let r := avmfVirtToPhys m.avmf pml4
    { m with avmf := r.2, cr3 := if r.1 = 0 then pml4 else r.1, mappedPml4 := pml4 }
  else { m with cr3 := pml4, mappedPml4 := pml4 }

/-- The end of `pager_init`: the tables are loaded, and the pager goes over to
    the direct map. -/
def loadTables (m : Machine) : Machine :=
  { pagerLoad m m.firmwarePml4 with pagerReady := true }

/-- `pager_init` up to the return of `avmf_init`.  `bits` is what `cpuid`
    reports. -/
def initAvmf (m : Machine) (e820 : List E820Entry) (bits : Nat) : Machine :=
  let ranges := ramRanges e820
  { m with
    pagerReady := false
    cpuPhysBits := bits
    avmf := avmfInit m.avmf (fun i => (ranges.getD i (0, 0)).1)
      (fun i => (ranges.getD i (0, 0)).2) ranges.length }

/-- `pager_init` from the return of `avmf_init` on. -/
def buildTables (m : Machine) (e820 : List E820Entry) (retries : Nat) : Option Machine :=
  (allocPml4 retries m).map (fun m => loadTables (mapIdentity (mapDirect e820 0 m)))

/-- `pager_init`. -/
def pagerInit (m : Machine) (e820 : List E820Entry) (bits retries : Nat) : Option Machine :=
  buildTables (initAvmf m e820 bits) e820 retries

end Pfi
