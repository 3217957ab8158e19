import Pfi.MemoryRuns

/-! # What a failed `avmf_alloc` leaves behind

    `avmf_alloc` takes virtual addresses, then pages, then a header, and each
    of the last two exits keeps what was taken before it.  So a call that
    fails changes nothing just when the first of the three fails, or when the
    size rounds to nothing (`failed_alloc_keeps_iff`). -/

namespace Pfi

open Words

/-- What a failed call should leave alone: the bitmap, the heap pointers, the
    region list and the page tables. -/
structure SameResources (m m' : Machine) : Prop where
  bitmap : m'.avmf.avmfBitmap = m.avmf.avmfBitmap
  heap : ∀ t, t ≠ .unknown → m'.avmf.heap t = m.avmf.heap t
  headers : m'.avmf.staticHeaders = m.avmf.staticHeaders
  head : m'.avmf.avmfHead = m.avmf.avmfHead
  tables : m'.mem = m.mem

/-- `avmf_alloc_virt` refuses the request, or it asks for no page. -/
def Refused (a : Avmf) (size : Nat) (type : MemoryAllocType) : Prop :=
  type = .unknown ∨ align4k size = 0 ∨ heapEnd type < add64 (a.heap type) (align4k size)

instance (a : Avmf) (size : Nat) (type : MemoryAllocType) : Decidable (Refused a size type) :=
  inferInstanceAs (Decidable (_ ∨ _ ∨ _))

/-! ## The three steps -/

section Steps

variable {a : Avmf} {size : Nat} {type : MemoryAllocType}

/-- A sum of at least one page moves a heap pointer. -/
theorem add64_align4k_ne (h : Nat) (hsize : align4k size ≠ 0) :
    add64 h (align4k size) ≠ h := by
  have hlt : align4k size < 2 ^ 64 := align4k_lt size
  intro heq
  unfold add64 at heq
  omega

/-- A refused request moves no heap pointer. -/
theorem avmfAllocVirt_refused (hword : ∀ t, a.heap t < 2 ^ 64) (h : Refused a size type) :
    (avmfAllocVirt a size type).2.heap = a.heap := by
  by_cases htype : type = .unknown
  · unfold avmfAllocVirt
    rw [if_pos htype]
  · obtain ⟨w, -, hcases⟩ := avmfAllocVirt_cases a size htype
    rcases hcases with ⟨-, hres⟩ | ⟨hfits, hres⟩
    · rw [hres]
    · -- the request is served, so it asks for no page
      rcases h with h | h | h
      · exact absurd h htype
      · rw [hres]
        funext t
        show (if t = type then add64 (a.heap t) (align4k size) else a.heap t) = a.heap t
        have hsum := hword t
        rw [h, add64_of_lt (by omega), Nat.add_zero, ite_self]
      · omega

/-- A request that is not refused moves its heap pointer. -/
theorem avmfAllocVirt_moves (h : ¬ Refused a size type) :
    (avmfAllocVirt a size type).2.heap type ≠ a.heap type := by
  have htype : type ≠ .unknown := fun hc => h (Or.inl hc)
  have hsize : align4k size ≠ 0 := fun hc => h (Or.inr (Or.inl hc))
  obtain ⟨w, -, hcases⟩ := avmfAllocVirt_cases a size htype
  rcases hcases with ⟨hend, -⟩ | ⟨-, hres⟩
  · exact absurd (Or.inr (Or.inr hend)) h
  · rw [hres]
    show (if type = type then add64 (a.heap type) (align4k size) else a.heap type) ≠ _
    rw [if_pos rfl]
    exact add64_align4k_ne _ hsize

/-- A request for no page is not served with pages. -/
theorem avmfAllocPhys_none (hsize : align4k size = 0) :
    avmfAllocPhysContiguous a (align4k size) = (0, a) := by
  have hzero : align4k (align4k size) / pageSize = 0 := by
    rw [align4k_align4k, hsize]
    rfl
  unfold avmfAllocPhysContiguous
  dsimp only
  rw [if_pos hzero]

end Steps

/-! ## `avmf_alloc` -/

section Alloc

variable {m : Machine} {size flags : Nat} {type : MemoryAllocType}

/-- Only the first step of `avmf_alloc` moves a heap pointer. -/
theorem avmfAlloc_failed_heap (hfail : (avmfAlloc m size type flags).virt = 0) :
    (avmfAlloc m size type flags).m.avmf.heap = (avmfAllocVirt m.avmf size type).2.heap ∧
      (avmfAlloc m size type flags).m.mem = m.mem := by
  generalize hv : avmfAllocVirt m.avmf size type = v
  generalize hp : avmfAllocPhysContiguous v.2 (align4k size) = p
  generalize hr : avmfAllocRegion p.2 v.1 p.1 (align4k size) flags = r
  have hpheap : p.2.heap = v.2.heap := by
    rw [← hp]
    exact (sameRegions_allocPhys v.2 (align4k size)).heap
  rcases avmfAlloc_cases hv hp hr with ⟨-, hres⟩ | ⟨-, -, hres⟩ | ⟨-, -, -, hres⟩ |
      ⟨hv0, -, -, hres⟩
  · rw [hres]
    exact ⟨rfl, rfl⟩
  · rw [hres]
    exact ⟨hpheap, rfl⟩
  · rw [hres]
    refine ⟨?_, rfl⟩
    show r.2.heap = v.2.heap
    rw [← hr, avmfAllocRegion_heap]
    exact hpheap
  · -- a call that maps its block returns the block's address
    rw [hres] at hfail
    exact absurd hfail hv0

/-- A refused request ends before anything else is taken. -/
theorem avmfAlloc_refused (hword : ∀ t, m.avmf.heap t < 2 ^ 64)
    (h : Refused m.avmf size type) :
    SameResources m (avmfAlloc m size type flags).m := by
  have hheap := avmfAllocVirt_refused hword h
  have hheaders := avmfAllocVirt_headers m.avmf size type
  obtain ⟨hbitmap, -, -⟩ := avmfAllocVirt_bitmap m.avmf size type
  have hhead := avmfAllocVirt_head m.avmf size type
  have hsame : SameResources m { m with avmf := (avmfAllocVirt m.avmf size type).2 } :=
    ⟨hbitmap, fun t _ => congrFun hheap t, hheaders, hhead, rfl⟩
  generalize hv : avmfAllocVirt m.avmf size type = v at hsame
  generalize hp : avmfAllocPhysContiguous v.2 (align4k size) = p
  generalize hr : avmfAllocRegion p.2 v.1 p.1 (align4k size) flags = r
  have hnone : v.1 ≠ 0 → p = (0, v.2) := by
    intro hv0
    rcases h with h | h | h
    · rw [← hv, h] at hv0
      exact absurd rfl hv0
    · rw [← hp]
      exact avmfAllocPhys_none h
    · have htype : type ≠ .unknown := by
        rintro rfl
        rw [← hv] at hv0
        exact hv0 rfl
      obtain ⟨w, -, hcases⟩ := avmfAllocVirt_cases m.avmf size htype
      rcases hcases with ⟨-, hres⟩ | ⟨hfits, -⟩
      · rw [← hv, hres] at hv0
        exact absurd rfl hv0
      · omega
  rcases avmfAlloc_cases hv hp hr with ⟨-, hres⟩ | ⟨hv0, -, hres⟩ | ⟨hv0, hp0, -, -⟩ |
      ⟨hv0, hp0, -, -⟩
  · rw [hres]
    exact hsame
  · rw [hres, hnone hv0]
    exact hsame
  · exact absurd (congrArg Prod.fst (hnone hv0)) hp0
  · exact absurd (congrArg Prod.fst (hnone hv0)) hp0

/-- A failed `avmf_alloc` leaves everything as it was if and only if it was
    refused before anything was taken. -/
theorem failed_alloc_keeps_iff (hword : ∀ t, m.avmf.heap t < 2 ^ 64)
    (hfail : (avmfAlloc m size type flags).virt = 0) :
    SameResources m (avmfAlloc m size type flags).m ↔ Refused m.avmf size type := by
  constructor
  · intro hsame
    by_contra h
    have htype : type ≠ .unknown := fun hc => h (Or.inl hc)
    have hheap := hsame.heap type htype
    rw [(avmfAlloc_failed_heap hfail).1] at hheap
    exact avmfAllocVirt_moves h hheap
  · intro h
    exact avmfAlloc_refused hword h

end Alloc

/-- A request beyond the end of the kernel space. -/
theorem failed_alloc_keeps_refused :
    (SameResources smallRam (avmfAlloc smallRam (2 ^ 46) .kernel 3).m ↔
      Refused smallRam.avmf (2 ^ 46) .kernel) ∧ Refused smallRam.avmf (2 ^ 46) .kernel :=
  ⟨failed_alloc_keeps_iff (fun t => by cases t <;> decide) (by decide), by decide⟩

/-- With 48 pages of RAM, a request for 64 pages fails and the kernel heap has
    moved by 64 pages. -/
theorem failed_alloc_moves_heap :
    Started (fun _ => 0x10000) (fun _ => 0x40000) 1 smallRam ∧
      (avmfAlloc smallRam 0x40000 .kernel 3).virt = 0 ∧
      ¬ SameResources smallRam (avmfAlloc smallRam 0x40000 .kernel 3).m := by
  refine ⟨smallRam_started, by decide +kernel, ?_⟩
  intro hsame
  have hheap := hsame.heap .kernel (by decide)
  have hmoved : (avmfAlloc smallRam 0x40000 .kernel 3).m.avmf.heap .kernel
      = aosKernelSpaceBase + 0x40000 := by decide +kernel
  have hbefore : smallRam.avmf.heap .kernel = aosKernelSpaceBase := by decide +kernel
  rw [hmoved, hbefore] at hheap
  omega

end Pfi
