import Pfi.TableAccess

/-! # Allocations that are served

    `avmf_alloc` takes a virtual range, a physical range and a header, and
    then hands the block to `pager_map_range`: `allocRecorded` is the machine
    at that point.  As long as the search stands before free pages, which
    `Supply` says, each of the three is granted (`Supply.records`), and on a
    memory map whose RAM starts in a window `pager_init` leaves such a state,
    with its tables within reach (`lowE820_fresh`). -/

namespace Pfi

open Words RadixTable Run

/-! ## The block before it is mapped -/

/-- The virtual and the physical base that `avmf_alloc` hands to
    `pager_map_range`, with the machine at that point; `none` if it has failed
    before. -/
def allocRecorded (m : Machine) (size : Nat) (type : MemoryAllocType) (flags : Nat) :
    Option (Nat × Nat × Machine) :=
  let v := avmfAllocVirt m.avmf size type
  let p := avmfAllocPhysContiguous v.2 (align4k size)
  let r := avmfAllocRegion p.2 v.1 p.1 (align4k size) flags
  if v.1 = 0 ∨ p.1 = 0 ∨ r.1 = 0 then none
  else some (v.1, p.1, { m with avmf := r.2 })

section Recorded

variable {m m' : Machine} {size flags virt phys : Nat} {type : MemoryAllocType}

/-- The three resources of a recorded block. -/
theorem allocRecorded_some (h : allocRecorded m size type flags = some (virt, phys, m')) :
    ∃ v p : Avmf, ∃ r : Nat × Avmf, avmfAllocVirt m.avmf size type = (virt, v) ∧
      avmfAllocPhysContiguous v (align4k size) = (phys, p) ∧
      avmfAllocRegion p virt phys (align4k size) flags = r ∧
      virt ≠ 0 ∧ phys ≠ 0 ∧ r.1 ≠ 0 ∧ m' = { m with avmf := r.2 } := by
  unfold allocRecorded at h
  dsimp only at h
  split at h
  · cases h
  · rename_i hne
    obtain ⟨rfl, hrest⟩ := Prod.mk.inj (Option.some.inj h)
    obtain ⟨rfl, hm⟩ := Prod.mk.inj hrest
    exact ⟨_, _, _, rfl, rfl, rfl, fun hc => hne (Or.inl hc), fun hc => hne (Or.inr (Or.inl hc)),
      fun hc => hne (Or.inr (Or.inr hc)), hm.symm⟩

theorem avmfAlloc_of_recorded (h : allocRecorded m size type flags = some (virt, phys, m')) :
    avmfAlloc m size type flags
      = ⟨virt, some phys, pagerMapRange m' virt phys (align4k size) flags⟩ := by
  obtain ⟨v, p, r, hv, hp, hr, hv0, hp0, hr0, hm⟩ := allocRecorded_some h
  rcases avmfAlloc_cases hv hp hr with ⟨hc, -⟩ | ⟨-, hc, -⟩ | ⟨-, -, hc, -⟩ | ⟨-, -, -, hres⟩
  · exact absurd hc hv0
  · exact absurd hc hp0
  · exact absurd hc hr0
  · rw [hres, hm]

/-- The marks of the three allocators: none is cleared. -/
theorem alloc_marks (a : Avmf) (size : Nat) (type : MemoryAllocType) (flags : Nat) {f : Nat}
    (hf : bitmapTest a.avmfBitmap f = 1) {v p r : Nat × Avmf} (hv : avmfAllocVirt a size type = v)
    (hp : avmfAllocPhysContiguous v.2 (align4k size) = p)
    (hr : avmfAllocRegion p.2 v.1 p.1 (align4k size) flags = r) :
    bitmapTest v.2.avmfBitmap f = 1 ∧ bitmapTest p.2.avmfBitmap f = 1 ∧
      bitmapTest r.2.avmfBitmap f = 1 := by
  have hfv : bitmapTest v.2.avmfBitmap f = 1 := by
    rw [← hv, (avmfAllocVirt_bitmap a size type).1]
    exact hf
  have hfp : bitmapTest p.2.avmfBitmap f = 1 := by
    rw [← hp]
    exact allocPhys_marks v.2 (align4k size) hfv
  refine ⟨hfv, hfp, ?_⟩
  rw [← hr, (avmfAllocRegion_bitmap p.2 v.1 p.1 (align4k size) flags).1]
  exact hfp

/-- A call that records no block fails, and changes the allocator only. -/
theorem avmfAlloc_of_failed (h : allocRecorded m size type flags = none) :
    ∃ v p r : Nat × Avmf, avmfAllocVirt m.avmf size type = v ∧
      avmfAllocPhysContiguous v.2 (align4k size) = p ∧
      avmfAllocRegion p.2 v.1 p.1 (align4k size) flags = r ∧
      (avmfAlloc m size type flags = ⟨0, none, { m with avmf := v.2 }⟩ ∨
        avmfAlloc m size type flags = ⟨0, none, { m with avmf := p.2 }⟩ ∨
        avmfAlloc m size type flags = ⟨0, none, { m with avmf := r.2 }⟩) := by
  refine ⟨_, _, _, rfl, rfl, rfl, ?_⟩
  rcases @avmfAlloc_cases m size flags type _ _ _ rfl rfl rfl
    with ⟨-, hres⟩ | ⟨-, -, hres⟩ | ⟨-, -, -, hres⟩ | ⟨hv, hp, hr, -⟩
  · exact Or.inl hres
  · exact Or.inr (Or.inl hres)
  · exact Or.inr (Or.inr hres)
  · unfold allocRecorded at h
    dsimp only at h
    rw [if_neg (by rintro (hc | hc | hc); exacts [hv hc, hp hc, hr hc])] at h
    cases h

/-- A call of `avmf_alloc` that reports no block accesses no page table. -/
theorem avmfAlloc_failed_faults (h : (avmfAlloc m size type flags).virt = 0) :
    (avmfAlloc m size type flags).m.faults = m.faults := by
  rcases @avmfAlloc_cases m size flags type _ _ _ rfl rfl rfl
    with ⟨-, hres⟩ | ⟨-, -, hres⟩ | ⟨-, -, -, hres⟩ | ⟨hv, -, -, hres⟩
  · rw [hres]
  · rw [hres]
  · rw [hres]
  · rw [hres] at h
    exact absurd h hv

end Recorded

/-! ## Blocks of one page -/

theorem step_alloc_machine (s : Sys) (size : Nat) (type : MemoryAllocType) (flags : Nat) :
    (s.step (.alloc size type flags)).m = (avmfAlloc s.m size type flags).m := rfl

/-- A range of one page is one call. -/
theorem rangeCalls_page {virt phys : Nat} (flags : Nat) (hvirt : virt < 2 ^ 64)
    (hphys : phys < 2 ^ 64) : rangeCalls virt phys 4096 flags = [⟨virt, phys, flags⟩] := by
  have h0 : ∀ {x : Nat}, x < 2 ^ 64 → add64 x 0 = x := fun hx => by
    rw [add64_of_lt hx, Nat.add_zero]
  unfold rangeCalls
  simp only [rangeCallsFrom, pageSize]
  rw [if_pos (by decide), if_neg (by omega), h0 hvirt, h0 hphys, if_neg (by decide)]

/-! ## Blocks from the supply -/

/-- A request whose sums do not wrap puts nothing on record. -/
theorem avmfAllocVirt_same_wrapped {a : Avmf} {size : Nat} {type : MemoryAllocType}
    (hsize : size + 4095 < 2 ^ 64) (hsum : a.heap type + align4k size < 2 ^ 64) :
    (avmfAllocVirt a size type).2.wrapped = a.wrapped := by
  have h1 : ¬ 2 ^ 64 ≤ size + (pageSize - 1) := by
    simp only [pageSize]
    omega
  unfold avmfAllocVirt
  dsimp only
  rw [decide_eq_false h1, decide_eq_false (by omega), Bool.or_self, Bool.or_false]
  split
  · rfl
  · split
    · rfl
    · rfl

/-- With a header left the region is recorded. -/
theorem avmfAllocRegion_room {a : Avmf} (virt phys size flags : Nat)
    (h : a.headerIndex < avmfStaticSize) :
    (avmfAllocRegion a virt phys size flags).1 = 1 ∧
      (avmfAllocRegion a virt phys size flags).2.headerIndex = a.headerIndex + 1 := by
  unfold avmfAllocRegion
  rw [if_neg (Nat.not_le_of_lt h)]
  exact ⟨rfl, List.length_append⟩

/-- What is left of the allocator when a block of `k` pages from page `g` on
    is recorded. -/
structure Records (a : Avmf) (type : MemoryAllocType) (g k n : Nat) (a' : Avmf) : Prop where
  supply : Supply a' (g + k) (n - k)
  heap : ∀ t, a'.heap t = if t = type then a.heap t + 4096 * k else a.heap t
  index : a'.headerIndex = a.headerIndex + 1
  wrapped : a'.wrapped = a.wrapped
  ranges : RangesAre a a'

theorem Supply.records {m : Machine} {g n k : Nat} (type : MemoryAllocType) (flags : Nat)
    (h : Supply m.avmf g n) (hk : 0 < k) (hkn : k ≤ n)
    (ht : type ≠ .unknown ∧ type ≠ .sensitive) (hpos : 0 < m.avmf.heap type)
    (hfits : m.avmf.heap type + 4096 * k ≤ heapEnd type)
    (hindex : m.avmf.headerIndex < avmfStaticSize) :
    ∃ a, allocRecorded m (4096 * k) type flags
        = some (m.avmf.heap type, g * 4096, { m with avmf := a }) ∧
      Records m.avmf type g k n a := by
  have hroom := h.room
  have hin := h.inBitmap
  have hsens := h.heap
  simp only [bitmapSize] at hin
  have hend : heapEnd type < 2 ^ 64 := by
    cases type <;> decide
  have hround : align4k (4096 * k) = 4096 * k := by
    rw [align4k_of_lt (by omega)]
    omega
  obtain ⟨hvirt, hheap⟩ := avmfAllocVirt_served (a := m.avmf) (4096 * k) ht.1
    (by rw [hround]; omega) (by rw [hround]; exact hfits)
  rw [hround] at hheap
  obtain ⟨hvb, hvl, hvbase⟩ := avmfAllocVirt_bitmap m.avmf (4096 * k) type
  obtain ⟨hvindex, hvlast⟩ := avmfAllocVirt_index m.avmf (4096 * k) type
  have hvwrapped : (avmfAllocVirt m.avmf (4096 * k) type).2.wrapped = m.avmf.wrapped :=
    avmfAllocVirt_same_wrapped (by omega) (by rw [hround]; omega)
  unfold allocRecorded
  dsimp only
  rw [hvirt, hround]
  generalize (avmfAllocVirt m.avmf (4096 * k) type).2 = v
    at hheap hvb hvl hvbase hvindex hvlast hvwrapped ⊢
  have hv : Supply v g n := by
    refine h.of_eq hvbase hvl hvb hvlast ?_
    rw [hheap, if_neg ht.2.symm]
    exact hsens
  -- the physical pages
  have hrest := hv.rest hkn
  rw [hv.takes hk hkn]
  generalize hp : { v with avmfBitmap := bitmapSetRun v.avmfBitmap g k
                           lastAllocPage := g + k } = p at hrest ⊢
  have hpheap : p.heap = v.heap := by rw [← hp]
  have hpindex : p.headerIndex = v.headerIndex := by rw [← hp]; rfl
  have hpwrapped : p.wrapped = v.wrapped := by rw [← hp]
  have hpranges : RangesAre v p := by
    rw [← hp]
    exact ⟨rfl, rfl⟩
  -- the header
  obtain ⟨hrb, hrl, hrbase⟩ := avmfAllocRegion_bitmap p (m.avmf.heap type) (g * 4096) (4096 * k)
    flags
  have hrheap := avmfAllocRegion_heap p (m.avmf.heap type) (g * 4096) (4096 * k) flags
  have hrwrapped := avmfAllocRegion_wrapped p (m.avmf.heap type) (g * 4096) (4096 * k) flags
  have hrlast := (avmfAllocRegion_index p (m.avmf.heap type) (g * 4096) (4096 * k) flags).2
  obtain ⟨hrone, hrindex⟩ := avmfAllocRegion_room (a := p) (m.avmf.heap type) (g * 4096)
    (4096 * k) flags (by omega)
  generalize avmfAllocRegion p (m.avmf.heap type) (g * 4096) (4096 * k) flags = r
    at hrb hrl hrbase hrheap hrwrapped hrlast hrone hrindex ⊢
  have hpage : g * 4096 ≠ 0 := by
    have := h.pos
    omega
  refine ⟨r.2, if_neg ?_, ?_, ?_, ?_, ?_,
    RangesAre.trans ⟨hvbase, hvl⟩ (hpranges.trans ⟨hrbase, hrl⟩)⟩
  · rintro (hc | hc | hc)
    · omega
    · exact hpage hc
    · omega
  · exact hrest.of_eq hrbase hrl hrb hrlast (by rw [hrheap]; exact hrest.heap)
  · intro t
    rw [hrheap, hpheap]
    exact hheap t
  · omega
  · rw [hrwrapped, hpwrapped, hvwrapped]

/-- A range of `k` pages makes `k + 1` calls at most, each with three tables at
    most. -/
theorem pagerMapRange_count_calls (m : Machine) (virt phys size flags : Nat) :
    (pagerMapRange m virt phys size flags).tableLog.length
      ≤ m.tableLog.length + 3 * (size / pageSize + 1) := by
  have hcalls : ∀ fuel offset,
      (rangeCallsFrom virt phys size flags fuel offset).length ≤ fuel := by
    intro fuel
    induction fuel with
    | zero => exact fun _ => Nat.le_refl 0
    | succ fuel ih =>
        intro offset
        simp only [rangeCallsFrom]
        split
        · split
          · exact Nat.succ_le_succ (ih _)
          · exact Nat.succ_le_succ (ih _)
        · exact Nat.zero_le _
  have hcount : ∀ (calls : List MapCall) (m : Machine),
      (exec mapStep m calls).tableLog.length ≤ m.tableLog.length + 3 * calls.length := by
    intro calls
    induction calls with
    | nil => exact fun _ => Nat.le_refl _
    | cons c calls ih =>
        intro m
        have hfirst := pagerMap_count m c.virt c.phys c.flags
        have hrest := ih (mapStep m c)
        unfold mapStep at hrest
        rw [exec_cons, List.length_cons]
        unfold mapStep
        omega
  rw [pagerMapRange_eq_exec]
  exact Nat.le_trans (hcount _ m)
    (Nat.add_le_add_left (Nat.mul_le_mul_left 3 (hcalls _ 0)) _)

/-- The range mapped then gets its tables, and the other pages are left. -/
theorem Records.mapped {m : Machine} {a : Avmf} {type : MemoryAllocType} {g k n : Nat}
    (h : Records m.avmf type g k n a) (hn : k + 3 * (k + 1) ≤ n)
    (hgranted : Sys.Granted { m := m }) (virt phys flags : Nat) :
    let m' := pagerMapRange { m with avmf := a } virt phys (4096 * k) flags
    Sys.Granted { m := m' } ∧ ∃ g', Supply m'.avmf g' (n - (k + 3 * (k + 1))) := by
  have hstock : Stocked (m.tableLog.length + (n - k)) a m.tableLog := by
    intro _
    refine ⟨hgranted.2, h.wrapped.trans hgranted.1, g + k, ?_⟩
    rw [Nat.add_sub_cancel_left]
    exact h.supply
  have hcount : (pagerMapRange { m with avmf := a } virt phys (4096 * k) flags).tableLog.length
      ≤ m.tableLog.length + 3 * (k + 1) := by
    have hcalls := pagerMapRange_count_calls { m with avmf := a } virt phys (4096 * k) flags
    rw [show 4096 * k / pageSize = k from Nat.mul_div_cancel_left k (by decide)] at hcalls
    exact hcalls
  obtain ⟨hlog, hwrapped, g', hsupply⟩ := pagerMapRange_stocked (m := { m with avmf := a })
    virt phys (4096 * k) flags hstock (by omega)
  exact ⟨⟨hwrapped, hlog⟩, g', hsupply.le (by omega)⟩

/-- The block is then the live one. -/
theorem Records.allocated {m : Machine} {a : Avmf} {type : MemoryAllocType}
    {g k n virt flags : Nat} (h : Records m.avmf type g k n a)
    (hrec : allocRecorded m (4096 * k) type flags = some (virt, g * 4096, { m with avmf := a }))
    (hk : k < 2 ^ 40) (hn : k + 3 * (k + 1) ≤ n) (hgranted : Sys.Granted { m := m }) :
    (Sys.step { m := m } (.alloc (4096 * k) type flags)).live = [⟨virt, g * 4096, 4096 * k⟩] ∧
      (Sys.step { m := m } (.alloc (4096 * k) type flags)).Granted ∧
      ∃ g', Supply (Sys.step { m := m } (.alloc (4096 * k) type flags)).m.avmf g'
        (n - (k + 3 * (k + 1))) := by
  obtain ⟨hmapped, hsupply⟩ := h.mapped hn hgranted virt (g * 4096) flags
  have hround : align4k (4096 * k) = 4096 * k := by
    rw [align4k_of_lt (by omega)]
    omega
  have hresult := avmfAlloc_of_recorded hrec
  rw [hround] at hresult
  obtain ⟨-, -, -, -, -, -, hbase, -⟩ := allocRecorded_some hrec
  refine ⟨?_, ?_, ?_⟩
  · unfold Sys.step
    dsimp only
    rw [hresult]
    unfold AllocResult.live AllocResult.block
    rw [if_neg hbase, hround]
    rfl
  · unfold Sys.Granted
    rw [step_alloc_machine, hresult]
    exact hmapped
  · rw [step_alloc_machine, hresult]
    exact hsupply

/-! ## Maps whose RAM starts in a window -/

/-- A state that `pager_init` leaves with `n` pages from page `g` on to
    spare, and with its tables within reach. -/
structure FreshStart (m : Machine) (g n : Nat) : Prop where
  ok : Sys.Ok { m := m }
  done : InitDone (2 ^ 45) 36 m
  granted : Sys.Granted { m := m }
  supply : Supply m.avmf g n
  first : 0x200 ≤ g
  limits : ∀ i, m.avmf.avmfLimit i ≤ 0x4000000
  index : m.avmf.headerIndex ≤ 130
  heap : ∀ t, t ≠ .sensitive → m.avmf.heap t = spaceBase t
  reach : WithinReach m
  pml4 : m.firmwarePml4 = 0x200000

/-- RAM that starts at 2 MiB: the PML4 is its first page, which lies in a
    window. -/
theorem pagerInit_fresh (mem : Nat → Fin 512 → Nat) {e820 : List E820Entry} {e N : Nat}
    (hmap : E820Ok e820 36 (2 ^ 45)) (hlen : ∀ r ∈ e820, 0 < r.len)
    (hranges : 0 < (ramRanges e820).length ∧ (ramRanges e820).length ≤ 128)
    (hfirst : (ramRanges e820).getD 0 (0, 0) = (4096 * 0x200, 4096 * e))
    (hroom : 0x200 + N < e) (hend : e ≤ 0x4000) (hram : RamBelow e820 (4096 * e))
    (hdirect : e ≤ directPages e820 (2 ^ 36)) (htables : tablesNeeded e820 ≤ 130)
    (hN : tablesNeeded e820 ≤ N) :
    ∃ m g, pagerInit (bootMachine mem) e820 36 1 = some m ∧
      FreshStart m g (N - tablesNeeded e820) := by
  have hsupply0 : Supply (initAvmf (bootMachine mem) e820 36).avmf 0x200 N :=
    supply_init hranges hfirst (by decide) hroom (by simp only [bitmapSize]; omega)
  obtain ⟨m, hres, hcount, hstock⟩ := pagerInit_succeeds mem 1 hmap (by decide) (by decide)
    Nat.one_pos hsupply0 hN
  obtain ⟨hlog, hwrapped, g, hsupply⟩ := hstock (by omega)
  have hgranted : Sys.Granted { m := m } := ⟨hwrapped, hlog⟩
  have hready : (initAvmf (bootMachine mem) e820 36).pagerReady = false := rfl
  have hindex : m.avmf.headerIndex ≤ m.tableLog.length :=
    buildTables_keeps (P := fun a log => a.headerIndex + 0 ≤ log.length + 0)
      (fun _ hm => allocPageTable_index hm) hready (Nat.le_refl 0) hres
  have hheap : ∀ t, t ≠ .sensitive → m.avmf.heap t = spaceBase t := fun t ht =>
    buildTables_keeps (P := fun a _ => a.heap t = spaceBase t)
      (fun _ hm => allocPageTable_heap ht hm) hready rfl hres
  have hent : (if (ramRanges e820).length % 256 ≤ 128 then (ramRanges e820).length % 256
      else 128) = (ramRanges e820).length := by
    rw [Nat.mod_eq_of_lt (by omega), if_pos hranges.2]
  have hbase : m.avmf.avmfBase 0 = 4096 * 0x200 := by
    rw [(started_ranges (pagerInit_started hres)).base]
    unfold avmfInit
    dsimp only
    rw [hent, if_pos hranges.1, hfirst]
  have hstart := hsupply.start
  unfold Avmf.startPage at hstart
  rw [hbase] at hstart
  have hlimits := pagerInit_limits hram hres
  have hpml4 := pagerInit_pml4 hsupply0 (by unfold tablesNeeded at hN; omega) hres hlog
  refine ⟨m, g, hres, pagerInit_ok hmap (by decide)
      (fun r hr ht => Nat.le_trans (hram r hr ht) (by omega)) hres hgranted,
    pagerInit_done hmap (by decide) (by decide) hres hlog, hgranted, hsupply.le (by omega),
    hstart, fun i => Nat.le_trans (hlimits i) (by omega), by omega, hheap, ?_, hpml4⟩
  refine pagerInit_withinReach hmap hlen (by decide) hres hlog
    (fun r hr ht => Nat.le_trans (hram r hr ht) (Nat.mul_le_mul_left 4096 hdirect)) ?_
  rw [hpml4]
  decide

/-- Two megabytes reserved and one of RAM. -/
def lowE820 : List E820Entry :=
  [⟨0x0, 0x200000, e820TypeReserved⟩, ⟨0x200000, 0x100000, e820TypeRam⟩]

theorem lowE820_ok : E820Ok lowE820 36 (2 ^ 45) := ⟨by decide, by decide, by decide⟩

theorem lowE820_fresh (mem : Nat → Fin 512 → Nat) :
    ∃ m g, pagerInit (bootMachine mem) lowE820 36 1 = some m ∧ FreshStart m g 215 :=
  @pagerInit_fresh mem _ 0x300 255 lowE820_ok (by decide) (by decide) (by decide) (by decide)
    (by decide) (by decide) (by decide) (by decide) (by decide)

/-- The block of `k` pages that a fresh heap gives. -/
theorem FreshStart.pages {m : Machine} {g k n : Nat} (h : FreshStart m g n) (hk : 0 < k)
    (hkn : k ≤ n) (hsmall : k ≤ 0x1000) (type : MemoryAllocType) (flags : Nat)
    (ht : type ≠ .unknown ∧ type ≠ .sensitive) :
    ∃ a, allocRecorded m (4096 * k) type flags
        = some (spaceBase type, g * 4096, { m with avmf := a }) ∧
      Records m.avmf type g k n a := by
  have hheap := h.heap type ht.2
  have hindex := h.index
  have hspace : 0 < spaceBase type ∧ spaceBase type + 0x1000000 ≤ heapEnd type := by
    cases type with
    | unknown => exact absurd rfl ht.1
    | user => decide
    | kernel => decide
    | driver => decide
    | sensitive => exact absurd rfl ht.2
  rw [← hheap] at hspace ⊢
  exact h.supply.records type flags hk hkn ht hspace.1 (by omega)
    (by simp only [avmfStaticSize]; omega)

/-- The block of one page. -/
theorem FreshStart.page {m : Machine} {g n : Nat} (h : FreshStart m g n) (hn : 0 < n)
    (type : MemoryAllocType) (flags : Nat) (ht : type ≠ .unknown ∧ type ≠ .sensitive) :
    ∃ a, allocRecorded m 4096 type flags
        = some (spaceBase type, g * 4096, { m with avmf := a }) ∧
      Records m.avmf type g 1 n a := by
  have hpages := h.pages Nat.one_pos hn (by decide) type flags ht
  rw [Nat.mul_one] at hpages
  exact hpages

/-- It stands at the base of its space. -/
theorem FreshStart.reported {m : Machine} {g k n : Nat} (h : FreshStart m g n) (hk : 0 < k)
    (hkn : k ≤ n) (hsmall : k ≤ 0x1000) (type : MemoryAllocType) (flags : Nat)
    (ht : type ≠ .unknown ∧ type ≠ .sensitive) :
    (avmfAlloc m (4096 * k) type flags).virt = spaceBase type := by
  obtain ⟨a, hrec, -⟩ := h.pages hk hkn hsmall type flags ht
  rw [avmfAlloc_of_recorded hrec]

/-- On a fresh heap it is the live block, with every table granted. -/
theorem FreshStart.allocated {m : Machine} {g k n : Nat} (h : FreshStart m g n) (hk : 0 < k)
    (hkn : k + 3 * (k + 1) ≤ n) (hsmall : k ≤ 0x1000) (type : MemoryAllocType) (flags : Nat)
    (ht : type ≠ .unknown ∧ type ≠ .sensitive) :
    (Sys.step { m := m } (.alloc (4096 * k) type flags)).live
        = [⟨spaceBase type, g * 4096, 4096 * k⟩] ∧
      (Sys.step { m := m } (.alloc (4096 * k) type flags)).Granted := by
  obtain ⟨a, hrec, hrecords⟩ := h.pages hk (by omega) hsmall type flags ht
  obtain ⟨hlive, hgranted, -⟩ := hrecords.allocated hrec (by omega) hkn h.granted
  exact ⟨hlive, hgranted⟩

end Pfi
