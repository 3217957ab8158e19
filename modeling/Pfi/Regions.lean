import Pfi.PagerRange
import Pfi.Memory
import Mathlib.Data.List.Pairwise

/-! # Regions and virtual spaces

    `RegionsOk` is the invariant of the region list: every header, live or
    stale, keeps its own part of the space of its type below the heap
    pointer, all headers are on the list, and the cache points to one of
    them.  It needs that no sum of `avmf_alloc_virt` wrapped, since a wrapped
    heap pointer starts a space again.  Under it a lookup finds the one header
    that contains the address (`avmfFind_of_mem`). -/

namespace Pfi

open Words

/-- The end of the space of a type. -/
def spaceEnd : MemoryAllocType → Nat
  | .unknown => 0
  | .user => aosDirectMapBase
  | .kernel => aosDriverSpaceBase
  | .driver => aosSensitiveSpaceBase
  | .sensitive => 2 ^ 64

theorem heapEnd_le_spaceEnd (t : MemoryAllocType) : heapEnd t ≤ spaceEnd t := by
  cases t <;> decide

theorem spaceEnd_le (t : MemoryAllocType) : spaceEnd t ≤ 2 ^ 64 := by
  cases t <;> decide

theorem spaceBase_pos {t : MemoryAllocType} (ht : t ≠ .unknown) : 0 < spaceBase t := by
  cases t with
  | unknown => exact absurd rfl ht
  | user => decide
  | kernel => decide
  | driver => decide
  | sensitive => decide

/-- The spaces of different types do not meet. -/
theorem spaces_apart {t t' : MemoryAllocType} (h : t ≠ t') :
    spaceEnd t ≤ spaceBase t' ∨ spaceEnd t' ≤ spaceBase t := by
  revert h
  cases t <;> cases t' <;> decide

/-- Two ranges of virtual addresses do not meet. -/
def Apart (virt size virt' size' : Nat) : Prop :=
  virt + size ≤ virt' ∨ virt' + size' ≤ virt

theorem Apart.symm {virt size virt' size' : Nat} (h : Apart virt size virt' size') :
    Apart virt' size' virt size :=
  Or.symm h

/-- Two headers do not meet. -/
def AvmfHeader.ApartFrom (h h' : AvmfHeader) : Prop :=
  Apart h.virtAddr h.size h'.virtAddr h'.size

instance : Std.Symm AvmfHeader.ApartFrom := ⟨fun _ _ h => Apart.symm h⟩

/-- The invariant of heaps, headers and cache. -/
structure RegionsOk (a : Avmf) : Prop where
  heap : ∀ t, t ≠ .unknown →
    spaceBase t ≤ a.heap t ∧ a.heap t ≤ spaceEnd t ∧ a.heap t < 2 ^ 64 ∧ a.heap t % 4096 = 0
  placed : ∀ h ∈ a.staticHeaders, ∃ t, t ≠ .unknown ∧
    spaceBase t ≤ h.virtAddr ∧ h.virtAddr + h.size ≤ a.heap t
  sized : ∀ h ∈ a.staticHeaders, 0 < h.size ∧ h.size % 4096 = 0 ∧ h.virtAddr % 4096 = 0
  apart : a.staticHeaders.Pairwise AvmfHeader.ApartFrom
  head : ∀ k, a.avmfHead = some k → k < a.headerIndex
  listed : ∀ i, i < a.headerIndex → a.Listed i
  cached : ∀ j, a.lastFound = some j → j < a.headerIndex

/-- The regions see neither the bitmap nor the ranges. -/
theorem RegionsOk.of_eq {a a' : Avmf} (h : RegionsOk a) (hheap : a'.heap = a.heap)
    (hheaders : a'.staticHeaders = a.staticHeaders) (hhead : a'.avmfHead = a.avmfHead)
    (hlast : ∀ j, a'.lastFound = some j → j < a.headerIndex) : RegionsOk a' := by
  have hindex : a'.headerIndex = a.headerIndex := by
    unfold Avmf.headerIndex
    rw [hheaders]
  refine ⟨?_, ?_, ?_, ?_, ?_, ?_, ?_⟩
  · rw [hheap]; exact h.heap
  · rw [hheap, hheaders]; exact h.placed
  · rw [hheaders]; exact h.sized
  · rw [hheaders]; exact h.apart
  · rw [hhead, hindex]; exact h.head
  · intro i hi
    unfold Avmf.Listed
    rw [hhead, hindex]
    exact h.listed i (by rw [← hindex]; exact hi)
  · rw [hindex]; exact hlast

/-- Before the first header. -/
theorem regionsOk_empty {a : Avmf} (hheap : a.heap = spaceBase)
    (hheaders : a.staticHeaders = []) (hhead : a.avmfHead = none)
    (hlast : a.lastFound = none) : RegionsOk a := by
  refine ⟨?_, ?_, ?_, ?_, ?_, ?_, ?_⟩
  · intro t ht
    rw [hheap]
    cases t with
    | unknown => exact absurd rfl ht
    | user => decide
    | kernel => decide
    | driver => decide
    | sensitive => decide
  · rw [hheaders]; exact fun h hh => nomatch hh
  · rw [hheaders]; exact fun h hh => nomatch hh
  · rw [hheaders]; exact List.Pairwise.nil
  · intro k hk
    rw [hhead] at hk
    cases hk
  · intro i hi
    unfold Avmf.headerIndex at hi
    rw [hheaders] at hi
    exact absurd hi (Nat.not_lt_zero i)
  · intro j hj
    rw [hlast] at hj
    cases hj

/-! ## Lookup -/

section Find

variable {a : Avmf} (hok : RegionsOk a)

include hok

theorem header_end {h : AvmfHeader} (hh : h ∈ a.staticHeaders) :
    h.virtAddr + h.size < 2 ^ 64 := by
  obtain ⟨t, ht, -, hend⟩ := hok.placed h hh
  have := (hok.heap t ht).2.2.1
  omega

/-- The test of the code, without wrap. -/
theorem contains_mem {h : AvmfHeader} (hh : h ∈ a.staticHeaders) {v : Nat} :
    h.contains v = true ↔ h.virtAddr ≤ v ∧ v < h.virtAddr + h.size := by
  rw [contains_iff, add64_of_lt (header_end hok hh)]

/-- An address lies in one header only. -/
theorem header_unique {h h' : AvmfHeader} (hh : h ∈ a.staticHeaders)
    (hh' : h' ∈ a.staticHeaders) {v : Nat} (hv : h.virtAddr ≤ v ∧ v < h.virtAddr + h.size)
    (hv' : h'.virtAddr ≤ v ∧ v < h'.virtAddr + h'.size) : h = h' := by
  by_contra hne
  have hap := hok.apart.forall hh hh' hne
  unfold AvmfHeader.ApartFrom Apart at hap
  omega

/-- What a lookup finds is the header that contains the address. -/
theorem avmfFind_some {v : Nat} {j : Nat} (hj : (avmfFind a v).1 = some j) :
    a.header j ∈ a.staticHeaders ∧ avmfFind a v = (some j, { a with lastFound := some j }) ∧
      (a.header j).virtAddr ≤ v ∧ v < (a.header j).virtAddr + (a.header j).size := by
  rcases avmfFind_cases a v with ⟨j', hfind, hc, hwhere⟩ | ⟨hfind, -⟩
  · rw [hfind] at hj
    have hjj : j' = j := Option.some.inj hj
    subst hjj
    have hlt : j' < a.headerIndex := by
      rcases hwhere with hl | ⟨k, -, -, hl⟩
      · exact hok.cached j' hl
      · exact hl
    have hmem := header_mem hlt
    exact ⟨hmem, hfind, (contains_mem hok hmem).mp hc⟩
  · rw [hfind] at hj
    cases hj

/-- A lookup of an address of a header finds that header. -/
theorem avmfFind_of_mem {h : AvmfHeader} (hh : h ∈ a.staticHeaders) {v : Nat}
    (hv : h.virtAddr ≤ v ∧ v < h.virtAddr + h.size) :
    ∃ j, j < a.headerIndex ∧ a.header j = h ∧
      avmfFind a v = (some j, { a with lastFound := some j }) := by
  rcases hres : (avmfFind a v).1 with _ | j
  · exfalso
    rcases avmfFind_cases a v with ⟨j', hfind, -, -⟩ | ⟨-, hnone⟩
    · rw [hfind] at hres
      cases hres
    · obtain ⟨i, hi, hget⟩ := List.mem_iff_getElem.mp hh
      have hno := hnone i (hok.listed i hi)
      rw [header_eq_getElem hi, List.get_eq_getElem, hget] at hno
      rw [(contains_mem hok hh).mpr hv] at hno
      cases hno
  · obtain ⟨hmem, hfind, hc⟩ := avmfFind_some hok hres
    have heq := header_unique hok hmem hh hc hv
    refine ⟨j, ?_, heq, hfind⟩
    by_contra hge
    rcases avmfFind_cases a v with ⟨j', hfind', -, hwhere⟩ | ⟨hfind', -⟩
    · rw [hfind'] at hres
      have hjj : j' = j := Option.some.inj hres
      rcases hwhere with hl | ⟨k, -, -, hl⟩
      · exact hge (by rw [← hjj]; exact hok.cached j' hl)
      · exact hge (by rw [← hjj]; exact hl)
    · rw [hfind'] at hres
      cases hres

end Find

/-! ## Taking a virtual range -/

/-- A range taken from a heap: it lies below the heap pointer and meets no
    header. -/
structure RangeTaken (a : Avmf) (t : MemoryAllocType) (virt size : Nat) : Prop where
  base : spaceBase t ≤ virt
  top : virt + size ≤ a.heap t
  aligned : virt % 4096 = 0
  apart : ∀ h ∈ a.staticHeaders, Apart h.virtAddr h.size virt size

/-- `avmf_alloc_virt` without wrap. -/
theorem avmfAllocVirt_regions {a : Avmf} (hok : RegionsOk a) (size : Nat)
    {t : MemoryAllocType} (ht : t ≠ .unknown)
    (hw : (avmfAllocVirt a size t).2.wrapped = false) :
    a.wrapped = false ∧ size + 4095 < 2 ^ 64 ∧ RegionsOk (avmfAllocVirt a size t).2 ∧
      ((avmfAllocVirt a size t).1 ≠ 0 →
        (avmfAllocVirt a size t).1 = a.heap t ∧
        RangeTaken (avmfAllocVirt a size t).2 t (avmfAllocVirt a size t).1 (align4k size)) := by
  obtain ⟨w, hnowrap, hcases⟩ := avmfAllocVirt_cases a size ht
  rcases hcases with ⟨-, hres⟩ | ⟨hfits, hres⟩
  · rw [hres] at hw ⊢
    obtain ⟨h1, h2, -⟩ := hnowrap hw
    exact ⟨h1, h2, hok.of_eq rfl rfl rfl hok.cached, fun h0 => absurd rfl h0⟩
  · rw [hres] at hw ⊢
    obtain ⟨h1, h2, h3⟩ := hnowrap hw
    rw [add64_of_lt h3] at hfits
    obtain ⟨hbase, hend, hlt, hmod⟩ := hok.heap t ht
    have hspace := heapEnd_le_spaceEnd t
    have hsizemod := align4k_mod size
    have hheap : ∀ t', (if t' = t then add64 (a.heap t') (align4k size) else a.heap t')
        = if t' = t then a.heap t + align4k size else a.heap t' := by
      intro t'
      by_cases htt : t' = t
      · rw [if_pos htt, if_pos htt, htt, add64_of_lt h3]
      · rw [if_neg htt, if_neg htt]
    refine ⟨h1, h2, ⟨?_, ?_, hok.sized, hok.apart, hok.head, hok.listed, hok.cached⟩,
      fun _ => ⟨rfl, ?_⟩⟩
    · -- only the heap of the type goes on, and it stays in its space
      intro t' ht'
      show _ ≤ ite _ _ _ ∧ ite _ _ _ ≤ _ ∧ ite _ _ _ < _ ∧ ite _ _ _ % _ = _
      rw [hheap t']
      by_cases htt : t' = t
      · rw [if_pos htt, htt]
        omega
      · rw [if_neg htt]
        exact hok.heap t' ht'
    · -- the recorded regions are below the heap pointers still
      intro h hh
      obtain ⟨t', ht', hb, he⟩ := hok.placed h hh
      refine ⟨t', ht', hb, ?_⟩
      show _ ≤ ite _ _ _
      rw [hheap t']
      by_cases htt : t' = t
      · rw [if_pos htt]
        rw [htt] at he
        omega
      · rw [if_neg htt]
        exact he
    · refine ⟨hbase, ?_, hmod, ?_⟩
      · show _ ≤ ite _ _ _
        rw [hheap t, if_pos rfl]
      · intro h hh
        obtain ⟨t', ht', hb, he⟩ := hok.placed h hh
        by_cases htt : t' = t
        · rw [htt] at he
          exact Or.inl he
        · -- a region of another type lies in another space
          have hend' := (hok.heap t' ht').2.1
          rcases spaces_apart htt with hs | hs
          · exact Or.inl (Nat.le_trans he (Nat.le_trans hend' (Nat.le_trans hs hbase)))
          · right
            show a.heap t + align4k size ≤ h.virtAddr
            omega

/-! ## Recording a region -/

/-- `avmf_alloc_region` on a range taken from a heap. -/
theorem avmfAllocRegion_regions {a : Avmf} (hok : RegionsOk a) {t : MemoryAllocType}
    (ht : t ≠ .unknown) {virt size : Nat} (phys flags : Nat)
    (hsize : size % 4096 = 0) (hpos : 0 < size) (hword : size < 2 ^ 64)
    (hrange : RangeTaken a t virt size) :
    RegionsOk (avmfAllocRegion a virt phys size flags).2 := by
  have hround : align4k size = size := by
    rw [align4k_eq]
    omega
  unfold avmfAllocRegion
  by_cases hfull : avmfStaticSize ≤ a.headerIndex
  · rw [if_pos hfull]
    exact hok
  · rw [if_neg hfull]
    dsimp only
    rw [hround]
    have hmem : ∀ {h node : AvmfHeader}, h ∈ a.staticHeaders ++ [node] →
        h ∈ a.staticHeaders ∨ h = node := by
      intro h node hh
      rcases List.mem_append.mp hh with hl | hr
      · exact Or.inl hl
      · exact Or.inr (List.mem_singleton.mp hr)
    have hindex : ∀ node : AvmfHeader, (a.staticHeaders ++ [node]).length = a.headerIndex + 1 :=
      fun node => List.length_append
    have hhead : a.avmfHead.getD a.headerIndex < a.headerIndex + 1 := by
      cases hk : a.avmfHead with
      | none => exact Nat.lt_succ_self _
      | some k => exact Nat.lt_succ_of_lt (hok.head k hk)
    refine ⟨hok.heap, ?_, ?_, ?_, ?_, ?_, ?_⟩
    · intro h hh
      rcases hmem hh with hold | hnew
      · exact hok.placed h hold
      · rw [hnew]
        exact ⟨t, ht, hrange.base, hrange.top⟩
    · intro h hh
      rcases hmem hh with hold | hnew
      · exact hok.sized h hold
      · rw [hnew]
        exact ⟨hpos, hsize, hrange.aligned⟩
    · refine List.pairwise_append.mpr ⟨hok.apart, List.pairwise_singleton _ _, ?_⟩
      intro h hh h' hh'
      rw [List.mem_singleton.mp hh']
      exact hrange.apart h hh
    · intro k hk
      rw [← Option.some.inj hk]
      exact Nat.lt_of_lt_of_eq hhead (hindex _).symm
    · intro i hi
      have hi' : i < a.headerIndex + 1 := Nat.lt_of_lt_of_eq hi (hindex _)
      refine ⟨a.avmfHead.getD a.headerIndex, rfl, ?_, hi⟩
      by_cases hlt : i < a.headerIndex
      · obtain ⟨k, hk, hki, -⟩ := hok.listed i hlt
        rw [hk]
        exact hki
      · omega
    · intro j hj
      exact Nat.lt_of_lt_of_eq (Nat.lt_succ_of_lt (hok.cached j hj)) (hindex _).symm

end Pfi
