import Pfi.FailedAllocs
import Pfi.PhysSearch
import Pfi.RoundTrip
import Pfi.Served

/-! # Cycles of allocation and release

    A block of the kernel space is allocated and released, again and again.
    Three things are used up and only one of them comes back: the pages are
    free again after each cycle, but the region keeps its header, and the
    virtual addresses are not used twice.  The search for pages goes on from
    where it last ended, so it also fails when the rest of the range is too
    short, with the same pages free as before.

    With room in the kernel space, and as long as the pager reaches its tables,
    the cycles succeed exactly as long as each of them finds a header left and
    a run of pages ahead (`cycles_succeed_iff`), and there are at most as many
    of them as headers left (`CycleOk.bounded`).  On a map with RAM enough the
    headers are what runs out (`cycles_wear_out`). -/

namespace Pfi

open Words FirstFit

/-- A block of the kernel space is allocated, and the result is released. -/
def cycle (size flags : Nat) (m : Machine) : Machine :=
  avmfFree (avmfAlloc m size .kernel flags).m (avmfAlloc m size .kernel flags).virt

/-- Both calls of a cycle do their work: `avmf_alloc` reports a block,
    `avmf_free` finds the region of its address, and neither faults on a page
    table. -/
structure CycleSucceeds (size flags : Nat) (m : Machine) : Prop where
  reported : (avmfAlloc m size .kernel flags).virt ≠ 0
  found : (avmfFind (avmfAlloc m size .kernel flags).m.avmf
    (avmfAlloc m size .kernel flags).virt).1 ≠ none
  returns : (cycle size flags m).faults = m.faults

/-- No access of the first `k` cycles to a page table faults. -/
def CyclesReach (size flags k : Nat) (m : Machine) : Prop :=
  ∀ j, j < k → (cycle size flags ((cycle size flags)^[j] m)).faults
    = ((cycle size flags)^[j] m).faults

/-- A header is left, and the search takes a run of pages that is not at
    page 0. -/
structure CycleReady (size : Nat) (a : Avmf) : Prop where
  header : a.headerIndex < avmfStaticSize
  pages : ∃ i s, i < 128 ∧ 0 < s ∧ a.Takes i (align4k size / pageSize) s

/-! ## The search after the virtual request -/

section Search

variable {a a' : Avmf} (hbase : a'.avmfBase = a.avmfBase) (hlimit : a'.avmfLimit = a.avmfLimit)
  (hbits : a'.avmfBitmap = a.avmfBitmap) (hlast : a'.lastAllocPage = a.lastAllocPage)

include hbase hlimit hbits hlast

/-- The search sees the ranges, the bitmap and the hint. -/
theorem reaches_congr {i n s : Nat} : a'.Reaches i n s ↔ a.Reaches i n s := by
  have hscan : a'.scanStart i = a.scanStart i := by
    unfold Avmf.scanStart Avmf.startPage Avmf.endPage
    rw [hbase, hlimit, hlast]
  have hend : a'.endPage i = a.endPage i := by
    unfold Avmf.endPage
    rw [hlimit]
  constructor
  · rintro ⟨hnonempty, hfits⟩
    rw [hbase, hlimit] at hnonempty
    rw [hscan, hend, hbits] at hfits
    exact ⟨hnonempty, hfits⟩
  · rintro ⟨hnonempty, hfits⟩
    refine ⟨?_, ?_⟩
    · rw [hbase, hlimit]
      exact hnonempty
    · rw [hscan, hend, hbits]
      exact hfits

theorem takes_congr {i n s : Nat} : a'.Takes i n s ↔ a.Takes i n s := by
  have hreach : ∀ {i s}, a'.Reaches i n s ↔ a.Reaches i n s :=
    fun {i s} => reaches_congr hbase hlimit hbits hlast
  constructor
  · rintro ⟨hr, hleast, hskips⟩
    exact ⟨hreach.mp hr, fun s' h' => hleast s' (hreach.mpr h'),
      fun i' hi' s' h' => hskips i' hi' s' (hreach.mpr h')⟩
  · rintro ⟨hr, hleast, hskips⟩
    exact ⟨hreach.mpr hr, fun s' h' => hleast s' (hreach.mp h'),
      fun i' hi' s' h' => hskips i' hi' s' (hreach.mp h')⟩

end Search

/-- A physical request for at least one page is served if and only if the
    search takes a run that is not at page 0. -/
theorem avmfAllocPhys_served_iff {a : Avmf} {size : Nat} (hn : 0 < align4k size / pageSize) :
    (avmfAllocPhysContiguous a size).1 ≠ 0 ↔
      ∃ i s, i < 128 ∧ 0 < s ∧ a.Takes i (align4k size / pageSize) s := by
  constructor
  · intro hres
    rcases avmfAllocPhys_search a hn with ⟨i, s, hi, htakes⟩ | ⟨hnone, -⟩
    · rw [avmfAllocPhys_of_takes hn hi htakes] at hres
      refine ⟨i, s, hi, Nat.pos_of_ne_zero ?_, htakes⟩
      rintro rfl
      exact hres (Nat.zero_mul 4096)
    · rw [hnone] at hres
      exact absurd rfl hres
  · rintro ⟨i, s, hi, hs, htakes⟩
    rw [avmfAllocPhys_of_takes hn hi htakes]
    exact Nat.ne_of_gt (Nat.mul_pos hs (by decide))

/-! ## One cycle -/

section Cycle

variable {m : Machine} {size flags : Nat}

/-- The block that a successful call reports has at least one page. -/
theorem avmfAlloc_reported_pages {type : MemoryAllocType}
    (hres : (avmfAlloc m size type flags).virt ≠ 0) : 0 < align4k size / pageSize := by
  by_contra h0
  have hzero : align4k size = 0 := by
    have hmod := align4k_mod size
    simp only [pageSize] at h0
    omega
  rcases @avmfAlloc_cases m size flags type _ _ _ rfl rfl rfl with
      ⟨-, h⟩ | ⟨-, -, h⟩ | ⟨-, hp, -⟩ | ⟨-, hp, -⟩
  · rw [h] at hres
    exact hres rfl
  · rw [h] at hres
    exact hres rfl
  · exact hp (congrArg Prod.fst (avmfAllocPhys_none hzero))
  · exact hp (congrArg Prod.fst (avmfAllocPhys_none hzero))

variable (hpos : 0 < m.avmf.heap .kernel)
  (hspace : m.avmf.heap .kernel + align4k size ≤ heapEnd .kernel)

include hspace

/-- With room in the kernel space the virtual request is served. -/
theorem kernel_virt : (avmfAllocVirt m.avmf size .kernel).1 = m.avmf.heap .kernel ∧
    (avmfAllocVirt m.avmf size .kernel).2.heap .kernel
      = m.avmf.heap .kernel + align4k size := by
  obtain ⟨hvirt, hheap⟩ := @avmfAllocVirt_served m.avmf size .kernel (by decide)
    (Nat.lt_of_le_of_lt hspace (by decide)) hspace
  exact ⟨hvirt, (hheap .kernel).trans (if_pos rfl)⟩

include hpos

/-- Then the block is reported if and only if a header and pages are left. -/
theorem avmfAlloc_reported_iff (hn : 0 < align4k size / pageSize) :
    (avmfAlloc m size .kernel flags).virt ≠ 0 ↔ CycleReady size m.avmf := by
  obtain ⟨hvirt, -⟩ := kernel_virt hspace
  obtain ⟨hbits, hlimit, hbase⟩ := avmfAllocVirt_bitmap m.avmf size .kernel
  obtain ⟨hindex, hlast⟩ := avmfAllocVirt_index m.avmf size .kernel
  have hpages : (avmfAllocPhysContiguous (avmfAllocVirt m.avmf size .kernel).2
      (align4k size)).1 ≠ 0 ↔
      ∃ i s, i < 128 ∧ 0 < s ∧ m.avmf.Takes i (align4k size / pageSize) s := by
    rw [avmfAllocPhys_served_iff (by rw [align4k_align4k]; exact hn), align4k_align4k]
    simp only [takes_congr hbase hlimit hbits hlast]
  have hkept : (avmfAllocPhysContiguous (avmfAllocVirt m.avmf size .kernel).2
      (align4k size)).2.headerIndex = m.avmf.headerIndex :=
    (congrArg List.length (sameRegions_allocPhys _ _).headers).trans hindex
  have hregion : ∀ p : Nat × Avmf, p.2.headerIndex = m.avmf.headerIndex →
      ((avmfAllocRegion p.2 (avmfAllocVirt m.avmf size .kernel).1 p.1 (align4k size) flags).1 ≠ 0 ↔
        m.avmf.headerIndex < avmfStaticSize) := by
    intro p hp
    unfold avmfAllocRegion
    rw [hp]
    by_cases hfull : avmfStaticSize ≤ m.avmf.headerIndex
    · rw [if_pos hfull]
      exact iff_of_false (fun h => h rfl) (Nat.not_lt_of_le hfull)
    · rw [if_neg hfull]
      exact iff_of_true Nat.one_ne_zero (Nat.lt_of_not_le hfull)
  have hheader := hregion _ hkept
  have hready : CycleReady size m.avmf ↔
      m.avmf.headerIndex < avmfStaticSize ∧
        ∃ i s, i < 128 ∧ 0 < s ∧ m.avmf.Takes i (align4k size / pageSize) s :=
    ⟨fun h => ⟨h.header, h.pages⟩, fun h => ⟨h.1, h.2⟩⟩
  rw [hready, ← hpages, ← hheader]
  rcases @avmfAlloc_cases m size flags .kernel _ _ _ rfl rfl rfl with
      ⟨hv, -⟩ | ⟨-, hp, h⟩ | ⟨-, -, hr, h⟩ | ⟨hv, hp, hr, h⟩
  · rw [hvirt] at hv
    omega
  · rw [h]
    exact iff_of_false (fun hc => hc rfl) (fun hc => hc.2 hp)
  · rw [h]
    exact iff_of_false (fun hc => hc rfl) (fun hc => hc.1 hr)
  · rw [h]
    exact iff_of_true hv ⟨hr, hp⟩

end Cycle

/-! ## The release -/

/-- The list starts at the first header, if there is one. -/
theorem head_invariant :
    AllocInvariant (fun a => a.avmfHead = a.staticHeaders.head?.map (fun _ => 0))
      (fun _ _ => True) := by
  refine ⟨?_, trivial, ?_, ?_, ?_⟩
  · intro a size h
    have hkept := sameRegions_allocPhys a size
    refine ⟨?_, fun _ => trivial⟩
    rw [hkept.head, hkept.headers]
    exact h
  · intro a size type h
    rw [avmfAllocVirt_headers, avmfAllocVirt_head]
    exact h
  · intro a virt phys size flags h _
    unfold avmfAllocRegion
    by_cases hfull : avmfStaticSize ≤ a.headerIndex
    · rw [if_pos hfull]
      exact h
    · rw [if_neg hfull]
      unfold Avmf.headerIndex
      dsimp only
      rw [h]
      cases a.staticHeaders with
      | nil => rfl
      | cons hd rest => rfl
  · intro a virt h
    unfold avmfFreePhys
    rcases avmfFind_cases a virt with ⟨j, hfind, -, -⟩ | ⟨hfind, -⟩
    · rw [hfind]
      exact h
    · rw [hfind]
      exact h

section Release

variable {m : Machine} {size flags : Nat}

/-- The region of a reported block is found. -/
theorem avmfAlloc_found (hhead : m.avmf.avmfHead = m.avmf.staticHeaders.head?.map (fun _ => 0))
    (hspace : m.avmf.heap .kernel + align4k size ≤ heapEnd .kernel)
    (hres : (avmfAlloc m size .kernel flags).virt ≠ 0) :
    (avmfFind (avmfAlloc m size .kernel flags).m.avmf
      (avmfAlloc m size .kernel flags).virt).1 ≠ none := by
  have hn := avmfAlloc_reported_pages hres
  have hend : heapEnd .kernel < 2 ^ 64 := by decide
  have hvirt : (avmfAlloc m size .kernel flags).virt = m.avmf.heap .kernel := by
    rcases @avmfAlloc_cases m size flags .kernel _ _ _ rfl rfl rfl with
        ⟨-, h⟩ | ⟨-, -, h⟩ | ⟨-, -, -, h⟩ | ⟨-, -, -, h⟩
    · rw [h] at hres
      exact absurd rfl hres
    · rw [h] at hres
      exact absurd rfl hres
    · rw [h] at hres
      exact absurd rfl hres
    · rw [h]
      exact (kernel_virt hspace).1
  obtain ⟨hd, post, hlist, hstart, -, hsize⟩ := avmfAlloc_records hres
  have hlisted := head_invariant.alloc hhead size .kernel flags
  rw [hlist] at hlisted
  rcases avmfFind_cases (avmfAlloc m size .kernel flags).m.avmf
      (avmfAlloc m size .kernel flags).virt with ⟨j, hfind, -, -⟩ | ⟨-, hnone⟩
  · rw [hfind]
    exact Option.some_ne_none j
  · -- the header of the block is on the list and contains its address
    exfalso
    have hindex : (avmfAlloc m size .kernel flags).m.avmf.headerIndex
        = m.avmf.headerIndex + (post.length + 1) := by
      unfold Avmf.headerIndex
      rw [hlist, List.length_append, List.length_cons]
    have hheader : (avmfAlloc m size .kernel flags).m.avmf.header m.avmf.headerIndex = hd := by
      unfold Avmf.header Avmf.headerIndex
      rw [hlist, List.getD_append_right _ _ _ _ (Nat.le_refl _), Nat.sub_self]
      rfl
    have hno := hnone m.avmf.headerIndex ⟨0, ?_, Nat.zero_le _, by rw [hindex]; omega⟩
    · rw [hheader, ← Bool.not_eq_true, contains_iff, hstart, hsize] at hno
      unfold AllocResult.block at hno
      dsimp only at hno
      rw [hvirt, add64_of_lt (by omega)] at hno
      simp only [pageSize] at hn
      omega
    · rw [hlisted]
      cases m.avmf.staticHeaders with
      | nil => rfl
      | cons => rfl

end Release

/-! ## Runs -/

section Runs

variable {m : Machine} {size flags : Nat}

/-- A cycle leaves the kernel heap a block further on. -/
theorem cycle_heap (hspace : m.avmf.heap .kernel + align4k size ≤ heapEnd .kernel) :
    (cycle size flags m).avmf.heap .kernel = m.avmf.heap .kernel + align4k size := by
  have hheap := (kernel_virt hspace).2
  have hphys : (avmfAllocPhysContiguous (avmfAllocVirt m.avmf size .kernel).2
      (align4k size)).2.heap .kernel = m.avmf.heap .kernel + align4k size := by
    rw [(sameRegions_allocPhys _ _).heap]
    exact hheap
  have halloc : (avmfAlloc m size .kernel flags).m.avmf.heap .kernel
      = m.avmf.heap .kernel + align4k size := by
    rcases @avmfAlloc_cases m size flags .kernel _ _ _ rfl rfl rfl with
        ⟨-, h⟩ | ⟨-, -, h⟩ | ⟨-, -, -, h⟩ | ⟨-, -, -, h⟩
    · rw [h]
      exact hheap
    · rw [h]
      exact hphys
    · rw [h]
      dsimp only
      rw [avmfAllocRegion_heap]
      exact hphys
    · rw [h]
      generalize m.avmf.heap .kernel + align4k size = x at hphys
      refine pagerMapRange_keeps (P := fun a _ => a.heap .kernel = x)
        (fun _ hm => allocPageTable_heap (by decide) hm) ?_
      dsimp only
      rw [avmfAllocRegion_heap]
      exact hphys
  unfold cycle
  rw [avmfFree_avmf]
  unfold avmfFreePhys
  rcases avmfFind_cases (avmfAlloc m size .kernel flags).m.avmf
      (avmfAlloc m size .kernel flags).virt with ⟨j, hfind, -, -⟩ | ⟨hfind, -⟩
  · rw [hfind]
    exact halloc
  · rw [hfind]
    exact halloc

/-- A cycle keeps what every operation keeps. -/
theorem AllocInvariant.cycle {I : Avmf → Prop} {Q : Nat → Nat → Prop} (hI : AllocInvariant I Q)
    (h : I m.avmf) : I (cycle size flags m).avmf := by
  unfold Pfi.cycle
  rw [avmfFree_avmf]
  exact hI.free _ _ (hI.alloc h size .kernel flags)

/-- A successful cycle uses up a header. -/
theorem cycle_headers (hres : CycleSucceeds size flags m) :
    m.avmf.headerIndex < (cycle size flags m).avmf.headerIndex := by
  obtain ⟨hd, post, hlist, -⟩ := avmfAlloc_records hres.reported
  have hkept := (headers_invariant (avmfAlloc m size .kernel flags).m.avmf.staticHeaders).free
    _ (avmfAlloc m size .kernel flags).virt (List.prefix_refl _)
  have hle := hkept.length_le
  rw [hlist, List.length_append, List.length_cons] at hle
  unfold cycle Avmf.headerIndex
  rw [avmfFree_avmf]
  omega

/-- The state of the kernel space before each cycle. -/
structure CycleOk (size k : Nat) (m : Machine) : Prop where
  heap : 0 < m.avmf.heap .kernel
  space : m.avmf.heap .kernel + k * align4k size ≤ heapEnd .kernel
  head : m.avmf.avmfHead = m.avmf.staticHeaders.head?.map (fun _ => 0)

theorem CycleOk.fits {k : Nat} (h : CycleOk size (k + 1) m) :
    m.avmf.heap .kernel + align4k size ≤ heapEnd .kernel := by
  have hspace := h.space
  rw [Nat.succ_mul] at hspace
  omega

theorem CycleOk.cycle {k : Nat} (h : CycleOk size (k + 1) m) :
    CycleOk size k (cycle size flags m) := by
  have hheap : (Pfi.cycle size flags m).avmf.heap .kernel = m.avmf.heap .kernel + align4k size :=
    cycle_heap h.fits
  have hspace := h.space
  have hpos := h.heap
  rw [Nat.succ_mul] at hspace
  refine ⟨?_, ?_, head_invariant.cycle h.head⟩
  · rw [hheap]
    omega
  · rw [hheap]
    omega

theorem CycleOk.iterate {j k : Nat} (h : CycleOk size (k + j) m) :
    CycleOk size k ((Pfi.cycle size flags)^[j] m) := by
  induction j generalizing m with
  | zero => exact h
  | succ j ih =>
      rw [Function.iterate_succ_apply]
      exact ih h.cycle

theorem CycleOk.succeeds_iff {k : Nat} (h : CycleOk size (k + 1) m)
    (hn : 0 < align4k size / pageSize) (hreach : (Pfi.cycle size flags m).faults = m.faults) :
    CycleSucceeds size flags m ↔ CycleReady size m.avmf := by
  have hreported : (avmfAlloc m size .kernel flags).virt ≠ 0 ↔ CycleReady size m.avmf :=
    avmfAlloc_reported_iff h.heap h.fits hn
  rw [← hreported]
  exact ⟨fun hres => hres.reported,
    fun hres => ⟨hres, avmfAlloc_found h.head h.fits hres, hreach⟩⟩

theorem CycleOk.run {k : Nat} (h : CycleOk size k m) (hn : 0 < align4k size / pageSize)
    (hreach : CyclesReach size flags k m) :
    (∀ j, j < k → CycleSucceeds size flags ((Pfi.cycle size flags)^[j] m)) ↔
      ∀ j, j < k → CycleReady size ((Pfi.cycle size flags)^[j] m).avmf := by
  refine forall_congr' fun j => forall_congr' fun hj => ?_
  refine CycleOk.succeeds_iff (k := k - (j + 1)) (CycleOk.iterate ?_) hn (hreach j hj)
  rw [show k - (j + 1) + 1 + j = k by omega]
  exact h

/-- Successful cycles use up a header each. -/
theorem cycles_headers {k : Nat}
    (hres : ∀ j, j < k → CycleSucceeds size flags ((cycle size flags)^[j] m)) :
    m.avmf.headerIndex + k ≤ ((cycle size flags)^[k] m).avmf.headerIndex := by
  induction k generalizing m with
  | zero => exact Nat.le_refl _
  | succ k ih =>
      rw [Nat.forall_lt_succ_left] at hres
      have hstep : m.avmf.headerIndex < (cycle size flags m).avmf.headerIndex :=
        cycle_headers hres.1
      have hrest := ih (m := cycle size flags m) hres.2
      rw [Function.iterate_succ_apply]
      omega

/-- So there are no more of them than headers left. -/
theorem CycleOk.bounded {k : Nat} (h : CycleOk size (k + 1) m)
    (hn : 0 < align4k size / pageSize)
    (hres : ∀ j, j < k + 1 → CycleSucceeds size flags ((Pfi.cycle size flags)^[j] m)) :
    m.avmf.headerIndex + k < avmfStaticSize := by
  have hready := (h.run hn (fun j hj => (hres j hj).returns)).mp hres k (Nat.lt_succ_self k)
  have hused := cycles_headers (fun j hj => hres j (Nat.lt_succ_of_lt hj))
  exact Nat.lt_of_le_of_lt hused hready.header

end Runs

/-! ## After `pager_init` -/

section Init

variable {mem : Nat → Fin 512 → Nat} {e820 : List E820Entry} {bits retries k size flags : Nat}
  {m : Machine}

/-- The kernel space after `pager_init`, with room for `k` blocks. -/
theorem pagerInit_cycleOk (hres : pagerInit (bootMachine mem) e820 bits retries = some m)
    (hspace : k * align4k size ≤ aosDriverSpaceBase - aosKernelSpaceBase) : CycleOk size k m := by
  have hready : (initAvmf (bootMachine mem) e820 bits).pagerReady = false := rfl
  have hheap : m.avmf.heap .kernel = aosKernelSpaceBase :=
    buildTables_keeps (P := fun a _ => a.heap .kernel = aosKernelSpaceBase)
      (fun _ hm => allocPageTable_heap (by decide) hm) hready rfl hres
  have hend : heapEnd .kernel = aosDriverSpaceBase := rfl
  refine ⟨?_, ?_, head_invariant.started (pagerInit_started hres) rfl⟩
  · rw [hheap]
    decide
  · rw [hheap, hend]
    simp only [aosDriverSpaceBase, aosKernelSpaceBase] at hspace ⊢
    omega

/-- With room in the kernel space for `k` blocks, and tables that the pager
    reaches, `k` cycles succeed if and only if each of them finds a header and
    a run of pages. -/
theorem cycles_succeed_iff (hres : pagerInit (bootMachine mem) e820 bits retries = some m)
    (hfirst : (avmfAlloc m size .kernel flags).virt ≠ 0)
    (hspace : k * align4k size ≤ aosDriverSpaceBase - aosKernelSpaceBase)
    (hreach : CyclesReach size flags k m) :
    (∀ j, j < k → CycleSucceeds size flags ((cycle size flags)^[j] m)) ↔
      ∀ j, j < k → CycleReady size ((cycle size flags)^[j] m).avmf :=
  (pagerInit_cycleOk hres hspace).run (avmfAlloc_reported_pages hfirst) hreach

end Init

/-! ## Blocks of a few pages -/

/-- Nothing is allocated, the tables are within reach, and there are addresses
    for `n` cycles of `k` pages, and pages for them and for their tables. -/
structure Provided (k n : Nat) (m : Machine) : Prop where
  ok : Sys.Ok { m := m }
  granted : Sys.Granted { m := m }
  reach : WithinReach m
  heap : aosKernelSpaceBase ≤ m.avmf.heap .kernel ∧
    m.avmf.heap .kernel + n * (4096 * k) ≤ heapEnd .kernel
  supply : ∃ g, Supply m.avmf g (n * (k + 3 * (k + 1)))

theorem FreshStart.provided {m : Machine} {g k n N : Nat} (h : FreshStart m g N)
    (hN : n * (k + 3 * (k + 1)) ≤ N) : Provided k n m := by
  have hroom := h.supply.room
  have hin := h.supply.inBitmap
  have hheap := h.heap .kernel (by decide)
  have hle := Nat.mul_le_mul_left n (Nat.le_add_right k (3 * (k + 1)))
  refine ⟨h.ok, h.granted, h.reach, ?_, g, h.supply.le hN⟩
  rw [hheap, Nat.mul_left_comm]
  simp only [bitmapSize] at hin
  simp only [spaceBase, heapEnd, aosKernelSpaceBase, aosDriverSpaceBase]
  omega

/-- A release leaves what is ahead of the search. -/
theorem Supply.released {m : Machine} {g n : Nat} (h : Supply m.avmf g n) (virt : Nat) :
    Supply (avmfFree m virt).avmf g n := by
  rw [avmfFree_avmf]
  unfold avmfFreePhys
  rcases avmfFind_cases m.avmf virt with ⟨j, hfind, -, -⟩ | ⟨hfind, -⟩
  · rw [hfind]
    dsimp only
    refine ⟨h.nonempty, h.start, h.scan, h.room, h.pos, h.inBitmap, fun q hlo hhi => ?_, h.heap⟩
    dsimp only
    rw [bitmapTest_clearRun]
    split
    · rfl
    · exact h.free q hlo hhi
  · rw [hfind]
    exact h

/-- A release of the only block leaves none. -/
theorem Sys.Within.freeOnly {s : Sys} {b : Block} (h : s.Within) (hok : s.Ok)
    (hgranted : s.Granted) (hlive : s.live = [b]) :
    (avmfFree s.m b.virt).faults = s.m.faults ∧ Sys.Ok { m := avmfFree s.m b.virt } ∧
      Sys.Granted { m := avmfFree s.m b.virt } ∧ WithinReach (avmfFree s.m b.virt) := by
  have hmem : b ∈ s.live := by
    rw [hlive]
    exact List.mem_singleton_self b
  obtain ⟨hfaults, hwithin⟩ := h.free hok hgranted.2 hmem
  obtain ⟨hw, -, -, -, hlog⟩ := avmfFree_allocator s.m b.virt
  have hgranted' : Sys.Granted { m := avmfFree s.m b.virt } := by
    refine ⟨hw.trans hgranted.1, ?_⟩
    unfold TablesGranted
    rw [hlog]
    exact hgranted.2
  have hok' := @ok_step s (.free b.virt) hok ⟨b, hmem, rfl⟩ trivial hgranted'
  have hnone : (s.step (.free b.virt)).live = [] := by
    unfold Sys.step
    rw [hlive]
    exact List.filter_eq_nil_iff.mpr (fun c hc => by
      rw [List.mem_singleton.mp hc]
      simp)
  refine ⟨hfaults, ⟨?_, ?_⟩, hgranted', hwithin.reach⟩
  · have howned := hok'.owned
    rw [hnone] at howned
    exact howned
  · have hagrees := hok'.agrees
    rw [hnone] at hagrees
    exact hagrees

section Cycles

variable {m : Machine} {j k n : Nat}

/-- A cycle for which a header is left faults on no table, and uses up what is
    there for one. -/
theorem Provided.cycle (h : Provided k (n + 1) m) (hk : 0 < k ∧ k ≤ 0x1000)
    (hindex : m.avmf.headerIndex < avmfStaticSize) :
    (Pfi.cycle (4096 * k) 3 m).faults = m.faults ∧ Provided k n (Pfi.cycle (4096 * k) 3 m) := by
  obtain ⟨hlow, hhigh⟩ := h.heap
  obtain ⟨g, hsupply⟩ := h.supply
  have hpml4 := h.reach.pml4_low h.ok.agrees.tables
  have hround : align4k (4096 * k) = 4096 * k := by
    rw [align4k_of_lt (by omega)]
    omega
  rw [Nat.succ_mul] at hhigh hsupply
  have hpos : 0 < m.avmf.heap .kernel := Nat.lt_of_lt_of_le (by decide) hlow
  obtain ⟨a, hrec, hrecords⟩ := hsupply.records (k := k) .kernel 3 hk.1 (by omega)
    (by decide) hpos (by omega) hindex
  have hvirt : (avmfAlloc m (4096 * k) .kernel 3).virt = m.avmf.heap .kernel := by
    rw [avmfAlloc_of_recorded hrec]
  obtain ⟨hlive, hgranted, g', hrest⟩ :=
    hrecords.allocated hrec (by omega) (by omega) h.granted
  have hspares : SparesPml4 m (4096 * k) .kernel 3 := by
    intro _
    right
    rw [hvirt]
    exact Nat.le_trans hpml4 (Nat.le_trans (by decide) hlow)
  obtain ⟨hfaults, hwithin⟩ := h.reach.sys.alloc h.ok (by decide) (by decide)
    (fun _ hc => by cases hc) hspares hgranted
  have hok := @ok_step { m := m } (.alloc (4096 * k) .kernel 3) h.ok
    ⟨Nat.mul_pos (by decide) hk.1, by decide⟩ ⟨by decide, fun hc => by cases hc⟩ hgranted
  obtain ⟨hreleased, hok', hgranted', hreach⟩ := hwithin.freeOnly hok hgranted hlive
  have hheap : (Pfi.cycle (4096 * k) 3 m).avmf.heap .kernel
      = m.avmf.heap .kernel + 4096 * k := by
    rw [cycle_heap (by omega), hround]
  have hcycle : Pfi.cycle (4096 * k) 3 m
      = avmfFree (Sys.step { m := m } (.alloc (4096 * k) .kernel 3)).m
          (m.avmf.heap .kernel) := by
    unfold Pfi.cycle
    rw [hvirt]
    rfl
  have hsupply' := hrest.released (m.avmf.heap .kernel)
  rw [← hcycle] at hreleased hok' hgranted' hreach hsupply'
  refine ⟨hreleased.trans hfaults, hok', hgranted', hreach, ?_, g', hsupply'.le (by omega)⟩
  rw [hheap]
  exact ⟨by omega, by omega⟩

/-- Cycles for which headers are left. -/
theorem Provided.cycles (h : Provided k (n + j) m) (hk : 0 < k ∧ k ≤ 0x1000)
    (hindex : ∀ i, i < j → ((Pfi.cycle (4096 * k) 3)^[i] m).avmf.headerIndex < avmfStaticSize) :
    CyclesReach (4096 * k) 3 j m ∧ Provided k n ((Pfi.cycle (4096 * k) 3)^[j] m) := by
  induction j generalizing m with
  | zero => exact ⟨fun i hi => absurd hi (Nat.not_lt_zero i), h⟩
  | succ j ih =>
      rw [Nat.forall_lt_succ_left] at hindex
      obtain ⟨hfirst, hnext⟩ := Provided.cycle (n := n + j) h hk hindex.1
      obtain ⟨hrest, hlast⟩ := ih hnext hindex.2
      refine ⟨?_, hlast⟩
      unfold CyclesReach
      rw [Nat.forall_lt_succ_left]
      exact ⟨hfirst, hrest⟩

/-- The first cycle that does not succeed is one for which no block is given. -/
theorem Provided.refused (h : Provided k (n + 1 + j) m) (hk : 0 < k ∧ k ≤ 0x1000)
    (hok : CycleOk (4096 * k) (n + 1 + j) m)
    (hbefore : ∀ i, i < j → CycleSucceeds (4096 * k) 3 ((Pfi.cycle (4096 * k) 3)^[i] m))
    (hfails : ¬ CycleSucceeds (4096 * k) 3 ((Pfi.cycle (4096 * k) 3)^[j] m)) :
    (avmfAlloc ((Pfi.cycle (4096 * k) 3)^[j] m) (4096 * k) .kernel 3).virt = 0 := by
  have hround : align4k (4096 * k) = 4096 * k := by
    rw [align4k_of_lt (by omega)]
    omega
  have hn : 0 < align4k (4096 * k) / pageSize := by
    rw [hround]
    simp only [pageSize]
    omega
  have hless : CycleOk (4096 * k) j m :=
    ⟨hok.heap, Nat.le_trans (Nat.add_le_add_left
      (Nat.mul_le_mul_right _ (Nat.le_add_left j (n + 1))) _) hok.space, hok.head⟩
  have hready := (hless.run hn (fun i hi => (hbefore i hi).returns)).mp hbefore
  have hprovided := (h.cycles hk (fun i hi => (hready i hi).header)).2
  have hok' : CycleOk (4096 * k) (n + 1) ((Pfi.cycle (4096 * k) 3)^[j] m) := hok.iterate
  by_contra hvirt
  have hheader := ((avmfAlloc_reported_iff hok'.heap hok'.fits hn).mp hvirt).header
  exact hfails ⟨hvirt, avmfAlloc_found hok'.head hok'.fits hvirt, (hprovided.cycle hk hheader).1⟩

end Cycles

/-- On a fresh heap a page of kernel memory can be allocated. -/
theorem FreshStart.kernelPage {m : Machine} {g n : Nat} (h : FreshStart m g n) (hn : 0 < n) :
    (avmfAlloc m (4096 * 1) .kernel 3).virt ≠ 0 := by
  rw [h.reported Nat.one_pos hn (by decide) .kernel 3 (by decide)]
  exact Nat.succ_ne_zero _

/-- The first cycle is one for which a header and a page are left. -/
theorem cycles_succeed_one :
    ∃ m, pagerInit (bootMachine (fun _ _ => 0)) lowE820 36 1 = some m ∧
      ((∀ j, j < 1 → CycleSucceeds 0x1000 3 ((cycle 0x1000 3)^[j] m)) ↔
        ∀ j, j < 1 → CycleReady 0x1000 ((cycle 0x1000 3)^[j] m).avmf) := by
  obtain ⟨m, g, hres, h⟩ := lowE820_fresh (fun _ _ => 0)
  have hindex := h.index
  have hprovided : Provided 1 (0 + 1) m := h.provided (by decide)
  have hreach := (hprovided.cycles (by decide) (fun j hj => by
    obtain rfl := Nat.lt_one_iff.mp hj
    simp only [Function.iterate_zero, id, avmfStaticSize]
    omega)).1
  have hfirst := h.kernelPage (by decide)
  rw [Nat.mul_one] at hreach hfirst
  exact ⟨m, hres, cycles_succeed_iff hres hfirst (by decide) hreach⟩

/-! ## More cycles than headers -/

/-- Two megabytes reserved and 62 of RAM. -/
def wideE820 : List E820Entry :=
  [⟨0x0, 0x200000, e820TypeReserved⟩, ⟨0x200000, 0x3E00000, e820TypeRam⟩]

theorem wideE820_fresh (mem : Nat → Fin 512 → Nat) :
    ∃ m g, pagerInit (bootMachine mem) wideE820 36 1 = some m ∧ FreshStart m g 15741 :=
  @pagerInit_fresh mem _ 0x4000 15871 ⟨by decide, by decide, by decide⟩ (by decide) (by decide)
    (by decide) (by decide) (by decide) (by decide) (by decide) (by decide) (by decide)

/-- Of 2049 cycles with one page each, one is refused its page, with nearly all
    of the kernel space left; no call up to then faults. -/
theorem cycles_wear_out :
    ∃ m, pagerInit (bootMachine (fun _ _ => 0)) wideE820 36 1 = some m ∧
      (avmfAlloc m 0x1000 .kernel 3).virt ≠ 0 ∧
      2049 * align4k 0x1000 ≤ aosDriverSpaceBase - aosKernelSpaceBase ∧
      (∃ j, j < 2049 ∧ (∀ i, i < j → CycleSucceeds 0x1000 3 ((cycle 0x1000 3)^[i] m)) ∧
        (avmfAlloc ((cycle 0x1000 3)^[j] m) 0x1000 .kernel 3).virt = 0 ∧
        (avmfAlloc ((cycle 0x1000 3)^[j] m) 0x1000 .kernel 3).m.faults
          = ((cycle 0x1000 3)^[j] m).faults) ∧
      ¬ ∀ j, j < 2049 → CycleSucceeds 0x1000 3 ((cycle 0x1000 3)^[j] m) := by
  obtain ⟨m, g, hres, h⟩ := wideE820_fresh (fun _ _ => 0)
  have hspace : 2049 * align4k (4096 * 1) ≤ aosDriverSpaceBase - aosKernelSpaceBase := by decide
  have hfirst := h.kernelPage (by decide)
  have hok := pagerInit_cycleOk hres hspace
  have hnot : ¬ ∀ j, j < 2049 → CycleSucceeds (4096 * 1) 3 ((cycle (4096 * 1) 3)^[j] m) := by
    intro hall
    have hlt := hok.bounded (avmfAlloc_reported_pages hfirst) hall
    simp only [avmfStaticSize] at hlt
    omega
  -- the first cycle that does not succeed
  obtain ⟨j, ⟨hj, hfails⟩, hleast⟩ : ∃ j, (j < 2049 ∧
      ¬ CycleSucceeds (4096 * 1) 3 ((cycle (4096 * 1) 3)^[j] m)) ∧
      ∀ i, i < j → CycleSucceeds (4096 * 1) 3 ((cycle (4096 * 1) 3)^[i] m) := by
    classical
    have hex : ∃ j, j < 2049 ∧ ¬ CycleSucceeds (4096 * 1) 3 ((cycle (4096 * 1) 3)^[j] m) := by
      by_contra hc
      exact hnot (fun j hj => by_contra fun hf => hc ⟨j, hj, hf⟩)
    refine ⟨Nat.find hex, Nat.find_spec hex, fun i hi => by_contra fun hf => ?_⟩
    exact Nat.find_min hex hi ⟨Nat.lt_trans hi (Nat.find_spec hex).1, hf⟩
  have hsum : 2048 - j + 1 + j = 2049 := by omega
  have hvirt := Provided.refused (n := 2048 - j) (by rw [hsum]; exact h.provided (by decide))
    (by decide) (by rw [hsum]; exact hok) hleast hfails
  rw [Nat.mul_one] at hspace hfirst hnot hleast hvirt
  exact ⟨m, hres, hfirst, hspace, ⟨j, hj, hleast, hvirt, avmfAlloc_failed_faults hvirt⟩, hnot⟩

end Pfi
