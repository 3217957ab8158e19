import Pfi.MemoryRuns

/-! # Runs of the allocator

    The operations on physical pages, and the rule for what they keep: an
    invariant of the four primitives that allocation and release are made of is
    one of every run (`AllocInvariant.run`).  A mapping does to the allocator
    only what its page-table allocations do (`pagerMapRange_tables`), so what
    the page tables hold does not matter.

    The invariant may demand something of the pages that a region records.  It
    is shown for the pages that a search has just taken, and for page 0, which
    `alloc_page_table` records when its search fails. -/

namespace Pfi

open Words Run

/-- The operations of the allocator on physical pages. -/
inductive AvmfOp where
  | allocPhys (size : Nat)
  | alloc (size : Nat) (type : MemoryAllocType) (flags : Nat)
  | free (virt : Nat)
  | freePhys (virt : Nat)
deriving Repr, DecidableEq

/-- The machine after an operation. -/
def avmfStep (m : Machine) : AvmfOp → Machine
  | .allocPhys size => { m with avmf := (avmfAllocPhysContiguous m.avmf size).2 }
  | .alloc size type flags => (avmfAlloc m size type flags).m
  | .free virt => avmfFree m virt
  | .freePhys virt => { m with avmf := avmfFreePhys m.avmf virt }

/-- The pages of a region. -/
def AvmfHeader.Page (h : AvmfHeader) (p : Nat) : Prop :=
  h.physAddr / 4096 ≤ p ∧ p < h.physAddr / 4096 + h.size / 4096

/-! ## The allocator under a mapping -/

/-- The allocator state after `alloc_page_table`. -/
def afterTable (a : Avmf) : Avmf := (allocPageTable { avmf := a }).m.avmf

/-- What `alloc_page_table` does to the allocator does not depend on the
    machine. -/
theorem allocPageTable_after (m : Machine) : (allocPageTable m).m.avmf = afterTable m.avmf := by
  unfold afterTable
  rcases @allocPageTable_allocator m _ _ rfl rfl with ⟨hv, h, -⟩ | ⟨hv, h, -⟩
  · rcases @allocPageTable_allocator { avmf := m.avmf } _ _ rfl rfl with ⟨-, h', -⟩ | ⟨hv', -⟩
    · rw [h, h']
    · exact absurd hv hv'
  · rcases @allocPageTable_allocator { avmf := m.avmf } _ _ rfl rfl with ⟨hv', -⟩ | ⟨-, h', -⟩
    · exact absurd hv' hv
    · rw [h, h']

/-- A mapping does to the allocator what its page-table allocations do, and
    the log counts them. -/
theorem pagerMapRange_tables (m : Machine) (virt phys size flags : Nat) :
    (pagerMapRange m virt phys size flags).avmf
      = afterTable^[(pagerMapRange m virt phys size flags).tableLog.length - m.tableLog.length]
          m.avmf := by
  have hkeeps : m.tableLog.length ≤ (pagerMapRange m virt phys size flags).tableLog.length ∧
      (pagerMapRange m virt phys size flags).avmf
        = afterTable^[(pagerMapRange m virt phys size flags).tableLog.length - m.tableLog.length]
            m.avmf := by
    refine pagerMapRange_keeps
      (P := fun a log => m.tableLog.length ≤ log.length ∧
        a = afterTable^[log.length - m.tableLog.length] m.avmf)
      (fun m' hm' => ?_) ⟨Nat.le_refl _, by rw [Nat.sub_self]; rfl⟩
    obtain ⟨hle, havmf⟩ := hm'
    obtain ⟨x, hlog⟩ := allocPageTable_log m'
    rw [hlog, List.length_append, List.length_singleton, allocPageTable_after,
      Nat.succ_sub hle, Function.iterate_succ_apply', ← havmf]
    exact ⟨Nat.le_succ_of_le hle, rfl⟩
  exact hkeeps.2

/-- The two releases do the same to the allocator. -/
theorem avmfFree_avmf (m : Machine) (virt : Nat) :
    (avmfFree m virt).avmf = avmfFreePhys m.avmf virt := by
  unfold avmfFree avmfFreePhys
  rcases avmfFind_cases m.avmf virt with ⟨j, hfind, -, -⟩ | ⟨hfind, -⟩
  · rw [hfind]
    dsimp only
    rw [(pagerUnmap_allocator _ virt).1]
  · rw [hfind]

/-! ## Invariants -/

/-- The primitives keep `I`, if a region is recorded only for pages with
    `Q`. -/
structure AllocInvariant (I : Avmf → Prop) (Q : Nat → Nat → Prop) : Prop where
  phys : ∀ a size, I a → I (avmfAllocPhysContiguous a size).2 ∧
    ((avmfAllocPhysContiguous a size).1 ≠ 0 →
      Q (avmfAllocPhysContiguous a size).1 (align4k size))
  zero : Q 0 4096
  virt : ∀ a size type, I a → I (avmfAllocVirt a size type).2
  region : ∀ a virt phys size flags, I a → Q phys (align4k size) →
    I (avmfAllocRegion a virt phys size flags).2
  free : ∀ a virt, I a → I (avmfFreePhys a virt)

/-- The primitives of an allocation keep `I`, if a region is recorded only for
    pages with `Q`. -/
structure GrowInvariant (I : Avmf → Prop) (Q : Nat → Nat → Prop) : Prop where
  phys : ∀ a size, I a → I (avmfAllocPhysContiguous a size).2 ∧
    ((avmfAllocPhysContiguous a size).1 ≠ 0 →
      Q (avmfAllocPhysContiguous a size).1 (align4k size))
  zero : Q 0 4096
  virt : ∀ a size type, I a → I (avmfAllocVirt a size type).2
  region : ∀ a virt phys size flags, I a → Q phys (align4k size) →
    I (avmfAllocRegion a virt phys size flags).2

section Growth

variable {I : Avmf → Prop} {Q : Nat → Nat → Prop} (hI : GrowInvariant I Q)

include hI

/-- A page table is allocated with these primitives. -/
theorem GrowInvariant.afterTable {a : Avmf} (h : I a) : I (afterTable a) := by
  obtain ⟨hphys, hfits⟩ := hI.phys a pageSize h
  have hvirt := hI.virt _ pageSize .sensitive hphys
  unfold Pfi.afterTable
  rcases @allocPageTable_allocator { avmf := a } _ _ rfl rfl with ⟨-, hres, -⟩ | ⟨-, hres, -⟩
  · rw [hres]
    exact hvirt
  · rw [hres]
    refine hI.region _ _ _ _ _ hvirt ?_
    by_cases h0 : (avmfAllocPhysContiguous a pageSize).1 = 0
    · rw [h0]
      exact hI.zero
    · exact hfits h0

/-- So are several. -/
theorem GrowInvariant.tables {a : Avmf} (h : I a) (n : Nat) : I (Pfi.afterTable^[n] a) := by
  induction n generalizing a with
  | zero => exact h
  | succ n ih => exact ih (hI.afterTable h)

/-- Mapping a range allocates page tables only. -/
theorem GrowInvariant.map {m : Machine} (h : I m.avmf) (virt phys size flags : Nat) :
    I (pagerMapRange m virt phys size flags).avmf := by
  rw [pagerMapRange_tables]
  exact hI.tables h _

/-- The stages of `avmf_alloc`. -/
theorem GrowInvariant.stages {a : Avmf} (h : I a) {size flags : Nat} {type : MemoryAllocType}
    {v p r : Nat × Avmf} (hv : avmfAllocVirt a size type = v)
    (hp : avmfAllocPhysContiguous v.2 (align4k size) = p)
    (hr : avmfAllocRegion p.2 v.1 p.1 (align4k size) flags = r) :
    I v.2 ∧ I p.2 ∧ (p.1 ≠ 0 → I r.2) := by
  have hvirt := hI.virt a size type h
  rw [hv] at hvirt
  obtain ⟨hphys, hfits⟩ := hI.phys v.2 (align4k size) hvirt
  rw [hp] at hphys hfits
  refine ⟨hvirt, hphys, fun h0 => ?_⟩
  rw [← hr]
  exact hI.region _ _ _ _ _ hphys (hfits h0)

/-- An allocation keeps the invariant, whichever way it ends. -/
theorem GrowInvariant.alloc {m : Machine} (h : I m.avmf) (size : Nat) (type : MemoryAllocType)
    (flags : Nat) : I (avmfAlloc m size type flags).m.avmf := by
  generalize hv : avmfAllocVirt m.avmf size type = v
  generalize hp : avmfAllocPhysContiguous v.2 (align4k size) = p
  generalize hr : avmfAllocRegion p.2 v.1 p.1 (align4k size) flags = r
  obtain ⟨hvirt, hphys, hregion⟩ := hI.stages h hv hp hr
  rcases avmfAlloc_cases hv hp hr with ⟨-, hres⟩ | ⟨-, -, hres⟩ | ⟨-, hp0, -, hres⟩ |
      ⟨-, hp0, -, hres⟩
  · rw [hres]
    exact hvirt
  · rw [hres]
    exact hphys
  · rw [hres]
    exact hregion hp0
  · rw [hres]
    exact @GrowInvariant.map _ _ hI { m with avmf := r.2 } (hregion hp0) _ _ _ _

end Growth

section Invariants

variable {I : Avmf → Prop} {Q : Nat → Nat → Prop} (hI : AllocInvariant I Q)

include hI

/-- The allocation's part of the primitives. -/
theorem AllocInvariant.grow : GrowInvariant I Q := ⟨hI.phys, hI.zero, hI.virt, hI.region⟩

/-- Mapping a range keeps the invariant. -/
theorem AllocInvariant.map {m : Machine} (h : I m.avmf) (virt phys size flags : Nat) :
    I (pagerMapRange m virt phys size flags).avmf :=
  hI.grow.map h virt phys size flags

/-- So does an allocation. -/
theorem AllocInvariant.alloc {m : Machine} (h : I m.avmf) (size : Nat) (type : MemoryAllocType)
    (flags : Nat) : I (avmfAlloc m size type flags).m.avmf :=
  hI.grow.alloc h size type flags

/-- Every operation keeps the invariant. -/
theorem AllocInvariant.step {m : Machine} (h : I m.avmf) (op : AvmfOp) :
    I (avmfStep m op).avmf := by
  cases op with
  | allocPhys size => exact (hI.phys _ size h).1
  | alloc size type flags => exact hI.alloc h size type flags
  | free virt =>
      show I (avmfFree m virt).avmf
      rw [avmfFree_avmf]
      exact hI.free _ virt h
  | freePhys virt => exact hI.free _ virt h

/-- So does every run. -/
theorem AllocInvariant.run {m : Machine} (h : I m.avmf) (ops : List AvmfOp) :
    I (exec avmfStep m ops).avmf := by
  induction ops generalizing m with
  | nil => exact h
  | cons op ops ih => exact ih (hI.step h op)

/-- It holds when the start is over, if it holds when `avmf_init` returns. -/
theorem AllocInvariant.started {basePhys limitPhys : Nat → Nat} {entries : Nat} {m : Machine}
    (hm : Started basePhys limitPhys entries m)
    (h : I (avmfInit Avmf.boot basePhys limitPhys entries)) : I m.avmf := by
  induction hm with
  | avmf ha _ _ =>
      rw [ha]
      exact h
  | pager _ hready hres ih =>
      refine buildTables_keeps (P := fun a _ => I a) (fun m hm => ?_) hready ih hres
      rw [allocPageTable_after]
      exact hI.grow.afterTable hm

end Invariants

/-! ## Allocations and frees -/

/-- The operation as one of the allocator. -/
def MemOp.avmfOp : MemOp → AvmfOp
  | .alloc size type flags => .alloc size type flags
  | .free virt => .free virt

/-- A step of the system is the operation on its machine. -/
theorem sys_step_m (s : Sys) (op : MemOp) : (s.step op).m = avmfStep s.m op.avmfOp := by
  cases op with
  | alloc size type flags => rfl
  | free virt => rfl

/-- A sum that wrapped stays on record. -/
theorem wrapped_invariant : AllocInvariant (fun a => a.wrapped = true) (fun _ _ => True) := by
  refine ⟨?_, trivial, ?_, ?_, ?_⟩
  · intro a size h
    exact ⟨(sameRegions_allocPhys a size).wrapped.trans h, fun _ => trivial⟩
  · intro a size type h
    unfold avmfAllocVirt
    dsimp only
    rw [h]
    split
    · exact h
    · split
      · rfl
      · rfl
  · intro a virt phys size flags h _
    rw [avmfAllocRegion_wrapped]
    exact h
  · intro a virt h
    unfold avmfFreePhys
    rcases avmfFind_cases a virt with ⟨j, hfind, -, -⟩ | ⟨hfind, -⟩
    · rw [hfind]
      exact h
    · rw [hfind]
      exact h

/-- A state without a wrapped sum comes from states without one. -/
theorem wrapped_back (s : Sys) (op : MemOp) (h : (s.step op).m.avmf.wrapped = false) :
    s.m.avmf.wrapped = false := by
  by_contra hc
  rw [sys_step_m] at h
  have hkeep := wrapped_invariant.step (Bool.not_eq_false _ ▸ hc) op.avmfOp
  rw [h] at hkeep
  cases hkeep

end Pfi
