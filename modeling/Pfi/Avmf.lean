import Pfi.Words

/-! # The AOS virtual memory format: allocator state and primitives

    The model of `avmf.c` below `avmf_alloc`: the physical bitmap with its
    configured ranges and next-fit hint, the four virtual heaps, and the list
    of region headers with its one-entry lookup cache.  `avmf_alloc` and
    `avmf_free` also call the pager and follow in `Pfi.Memory`.

    The code runs under `avmf_lock`; what is modelled here is one core.  Words
    are natural numbers, and every sum the code forms on 64 bits is reduced
    explicitly.  The console messages are left out. -/

namespace Pfi

open Words

/-! ## Constants -/

abbrev pageSize : Nat := 4096
abbrev pageShift : Nat := 12

abbrev avmfStaticSize : Nat := 2048
abbrev bitmapSize : Nat := 131072

abbrev aosUserSpaceBase : Nat := 0x0000000000001000
abbrev aosDirectMapBase : Nat := 0xFFFF800000000000
abbrev aosKernelSpaceBase : Nat := 0xFFFFA00000000000
abbrev aosDriverSpaceBase : Nat := 0xFFFFC00000000000
abbrev aosSensitiveSpaceBase : Nat := 0xFFFFE00000000000
abbrev aosPCIeVirtBase : Nat := 0xFFFFF00000000000
abbrev aosAHCIVirtBase : Nat := 0xFFFFF80000000000
abbrev aosXHCIVirtBase : Nat := 0xFFFFF90000000000

abbrev avmfVersion : Nat := 0
abbrev avmfSignature : Nat := 0xA1322F

abbrev avmfFlagPresent : Nat := 1
abbrev avmfFlagWriteable : Nat := 2

/-! ## State -/

/-- `avmf_header_t`.  Headers are taken from `static_headers` in index order
    and appended at the tail, so `next` of a listed header is the header of
    the following index and is not stored. -/
structure AvmfHeader where
  signature  : Nat := 0
  version    : Nat := 0
  virtAddr   : Nat := 0
  physAddr   : Nat := 0
  size       : Nat := 0
  used       : Nat := 0
  flags      : Nat := 0
  attributes : Nat := 0
deriving Repr, DecidableEq, Inhabited

inductive MemoryAllocType where
  | unknown
  | user
  | kernel
  | driver
  | sensitive
deriving Repr, DecidableEq

/-- First address of the space a type allocates from. -/
def spaceBase : MemoryAllocType → Nat
  | .unknown => 0
  | .user => aosUserSpaceBase
  | .kernel => aosKernelSpaceBase
  | .driver => aosDriverSpaceBase
  | .sensitive => aosSensitiveSpaceBase

/-- `heap_end` as `avmf_alloc_virt` selects it. -/
def heapEnd : MemoryAllocType → Nat
  | .unknown => 0
  | .user => aosDirectMapBase
  | .kernel => aosDriverSpaceBase
  | .driver => aosSensitiveSpaceBase
  | .sensitive => 2 ^ 64 - 1

/-- The static variables of `avmf.c`.  `staticHeaders` is the used part of
    `static_headers`, so `header_index` is its length; `avmfHead` and
    `lastFound` point into it.  The bitmap is kept word by word.  `heap`
    holds `heap_user`, `heap_kernel`, `heap_driver` and `heap_sensitive`.
    `wrapped` is read by no code: it records that a 64-bit sum of
    `avmf_alloc_virt` wrapped. -/
structure Avmf where
  avmfHead      : Option Nat := none
  lastFound     : Option Nat := none
  staticHeaders : List AvmfHeader := []
  avmfLimit     : Nat → Nat := fun _ => 0
  avmfBase      : Nat → Nat := fun _ => 0
  avmfBitmap    : Nat → Nat := fun _ => 0
  heap          : MemoryAllocType → Nat := spaceBase
  lastAllocPage : Nat := 0
  wrapped       : Bool := false

/-- The statics as the loader leaves them. -/
def Avmf.boot : Avmf := {}

def Avmf.headerIndex (a : Avmf) : Nat := a.staticHeaders.length

/-- `align4k`. -/
def align4k (value : Nat) : Nat :=
  add64 value (pageSize - 1) &&& not64 (pageSize - 1)

/-! ## The bitmap -/

/-- `bitmap_set`. -/
def bitmapSet (b : Nat → Nat) (pageIdx : Nat) : Nat → Nat := fun w =>
  if w = pageIdx >>> 6 then b w ||| (1 <<< (pageIdx &&& 63)) else b w

/-- `bitmap_clear`. -/
def bitmapClear (b : Nat → Nat) (pageIdx : Nat) : Nat → Nat := fun w =>
  if w = pageIdx >>> 6 then b w &&& not64 (1 <<< (pageIdx &&& 63)) else b w

/-- `bitmap_test`. -/
def bitmapTest (b : Nat → Nat) (pageIdx : Nat) : Nat :=
  (b (pageIdx >>> 6) >>> (pageIdx &&& 63)) &&& 1

/-- The loop that marks the pages `start .. start + n - 1`. -/
def bitmapSetRun (b : Nat → Nat) (start : Nat) : Nat → Nat → Nat
  | 0 => b
  | n + 1 => bitmapSet (bitmapSetRun b start n) (start + n)

/-- The loop that releases the pages `start .. start + n - 1`. -/
def bitmapClearRun (b : Nat → Nat) (start : Nat) : Nat → Nat → Nat
  | 0 => b
  | n + 1 => bitmapClear (bitmapClearRun b start n) (start + n)

/-! ## Physical pages -/

/-- The inner scan of `avmf_alloc_phys_contiguous` over the `n` pages from
    `p` on, with the run that ends just below `p`. -/
def scanRun (b : Nat → Nat) (pagesNeeded : Nat) :
    (n p runStart runLen : Nat) → Option Nat
  | 0, _, _, _ => none
  | n + 1, p, runStart, runLen =>
      if bitmapTest b p = 0 then
        let runStart' := if runLen = 0 then p else runStart
        if pagesNeeded ≤ runLen + 1 then some runStart'
        else scanRun b pagesNeeded n (p + 1) runStart' (runLen + 1)
      else scanRun b pagesNeeded n (p + 1) runStart 0

/-- `start_page` of configured range `i`. -/
def Avmf.startPage (a : Avmf) (i : Nat) : Nat := align4k (a.avmfBase i) >>> pageShift

/-- `end_page` of configured range `i`. -/
def Avmf.endPage (a : Avmf) (i : Nat) : Nat := a.avmfLimit i >>> pageShift

/-- Where the scan of a range starts: at the next-fit hint if it lies in the
    range. -/
def Avmf.scanStart (a : Avmf) (i : Nat) : Nat :=
  if a.startPage i ≤ a.lastAllocPage ∧ a.lastAllocPage < a.endPage i
    then a.lastAllocPage else a.startPage i

/-- The loop over the configured ranges. -/
def searchRanges (a : Avmf) (pagesNeeded : Nat) : List Nat → Option Nat
  | [] => none
  | i :: is =>
      if a.avmfLimit i ≤ a.avmfBase i then searchRanges a pagesNeeded is
      else if a.endPage i ≤ a.startPage i then searchRanges a pagesNeeded is
      else
        match scanRun a.avmfBitmap pagesNeeded (a.endPage i - a.scanStart i)
            (a.scanStart i) 0 0 with
        | some runStart => some runStart
        | none => searchRanges a pagesNeeded is

/-- `avmf_alloc_phys_contiguous`: the physical address of the run taken, `0`
    on failure. -/
def avmfAllocPhysContiguous (a : Avmf) (size : Nat) : Nat × Avmf :=
  let pagesNeeded := align4k size / pageSize
  if pagesNeeded = 0 then (0, a)
  else
    match searchRanges a pagesNeeded (List.range 128) with
    | some runStart =>
        (runStart <<< pageShift,
          { a with
            avmfBitmap := bitmapSetRun a.avmfBitmap runStart pagesNeeded
            lastAllocPage := runStart + pagesNeeded })
    | none => (0, a)

/-! ## Virtual addresses -/

/-- `avmf_alloc_virt`: the address taken from the heap of `type`, `0` on
    failure. -/
def avmfAllocVirt (a : Avmf) (size : Nat) (type : MemoryAllocType) : Nat × Avmf :=
  if type = .unknown then (0, a)
  else
    let trueSize := align4k size
    let wraps := decide (2 ^ 64 ≤ size + (pageSize - 1)) ||
      decide (2 ^ 64 ≤ a.heap type + trueSize)
    let a' := { a with wrapped := a.wrapped || wraps }
    if heapEnd type < add64 (a.heap type) trueSize then (0, a')
    else
      (a.heap type,
        { a' with
          heap := fun t => if t = type then add64 (a.heap t) trueSize else a.heap t })

/-! ## Regions -/

/-- `avmf_alloc_region`: `1` if a header was free. -/
def avmfAllocRegion (a : Avmf) (virt phys size flags : Nat) : Nat × Avmf :=
  if avmfStaticSize ≤ a.headerIndex then (0, a)
  else
    let node : AvmfHeader :=
      { virtAddr := virt, physAddr := phys, size := align4k size
        flags := flags % 2 ^ 32, used := 1, attributes := 0
        version := avmfVersion, signature := avmfSignature }
    (1,
      { a with
        staticHeaders := a.staticHeaders ++ [node]
        avmfHead := some (a.avmfHead.getD a.headerIndex) })

/-- `virt >= cur->virt_addr && virt < cur->virt_addr + cur->size`. -/
def AvmfHeader.contains (h : AvmfHeader) (virt : Nat) : Bool :=
  decide (h.virtAddr ≤ virt) && decide (virt < add64 h.virtAddr h.size)

/-- The header a pointer into `static_headers` designates. -/
def Avmf.header (a : Avmf) (i : Nat) : AvmfHeader := a.staticHeaders.getD i default

/-- The scan of `avmf_find` along the list from `avmf_head`. -/
def Avmf.scanRegions (a : Avmf) (virt : Nat) : Option Nat :=
  match a.avmfHead with
  | none => none
  | some k => ((a.staticHeaders.drop k).findIdx? (·.contains virt)).map (k + ·)

/-- `avmf_find`, with the update of `last_found`. -/
def avmfFind (a : Avmf) (virt : Nat) : Option Nat × Avmf :=
  match a.lastFound with
  | some i =>
      if (a.header i).contains virt then (some i, a)
      else
        match a.scanRegions virt with
        | some j => (some j, { a with lastFound := some j })
        | none => (none, a)
  | none =>
      match a.scanRegions virt with
      | some j => (some j, { a with lastFound := some j })
      | none => (none, a)

/-- `avmf_virt_to_phys`: `0` for an address of no region. -/
def avmfVirtToPhys (a : Avmf) (virt : Nat) : Nat × Avmf :=
  if aosDirectMapBase ≤ virt ∧ virt < aosKernelSpaceBase then (virt - aosDirectMapBase, a)
  else
    match avmfFind a virt with
    | (some j, a') => (add64 (a.header j).physAddr (virt - (a.header j).virtAddr), a')
    | (none, a') => (0, a')

/-- `cur->phys_addr <= phys && phys < cur->phys_addr + cur->size`. -/
def AvmfHeader.holds (h : AvmfHeader) (phys : Nat) : Bool :=
  decide (h.physAddr ≤ phys) && decide (phys < add64 h.physAddr h.size)

/-- `avmf_phys_to_virt`: the first region of the list that holds the address
    gives the result, `0` if none does. -/
def avmfPhysToVirt (a : Avmf) (phys : Nat) : Nat :=
  match a.avmfHead with
  | none => 0
  | some k =>
      match (a.staticHeaders.drop k).find? (·.holds phys) with
      | some h => add64 h.virtAddr (phys - h.physAddr)
      | none => 0

/-- `avmf_free_phys`. -/
def avmfFreePhys (a : Avmf) (virt : Nat) : Avmf :=
  match avmfFind a virt with
  | (none, a) => a
  | (some j, a) =>
      let hdr := a.header j
      { a with
        avmfBitmap :=
          bitmapClearRun a.avmfBitmap (hdr.physAddr / pageSize) (hdr.size / pageSize) }

/-- `avmf_init` on the arrays `base_phys`, `limit_phys` and their length. -/
def avmfInit (a : Avmf) (basePhys limitPhys : Nat → Nat) (entries : Nat) : Avmf :=
  let ent := if entries % 256 ≤ 128 then entries % 256 else 128
  { a with
    avmfBase := fun i => if i < ent then basePhys i else a.avmfBase i
    avmfLimit := fun i => if i < ent then limitPhys i else a.avmfLimit i
    avmfHead := none
    avmfBitmap := fun w => if w < 200 then 0 else a.avmfBitmap w }

end Pfi
