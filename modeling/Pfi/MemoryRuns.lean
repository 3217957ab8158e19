import Pfi.Ownership
import Pfi.Run

/-! # Runs of the memory system

    `Sys` is a machine with what its users know: the blocks that are live and
    the bytes asked of each space.  From the state that `avmf_init` leaves, a
    run of `avmf_alloc` and of `avmf_free` on live blocks keeps `Owned`
    as long as no sum of `avmf_alloc_virt` wraps (`owned_exec`), and none
    wraps as long as the demand on each space stays below its size
    (`nowrap_exec`). -/

namespace Pfi

open Words Run

/-! ## Runs -/

/-- The machine, the live blocks, and how many bytes were asked of each
    space. -/
structure Sys where
  m : Machine
  live : List Block := []
  asked : MemoryAllocType → Nat := fun _ => 0

/-- The calls of a client. -/
inductive MemOp where
  | alloc (size : Nat) (type : MemoryAllocType) (flags : Nat)
  | free (virt : Nat)
deriving Repr, DecidableEq

/-- A size rounded up to whole pages. -/
def pageRound (size : Nat) : Nat := (size + 4095) / 4096 * 4096

/-- A block that `avmf_alloc` reports is live until its base is freed. -/
def Sys.step (s : Sys) : MemOp → Sys
  | .alloc size type flags =>
      let r := avmfAlloc s.m size type flags
      { m := r.m
        live := r.live size s.live
        asked := fun t => s.asked t + (if t = type then pageRound size else 0) }
  | .free virt =>
      { s with
        m := avmfFree s.m virt
        live := s.live.filter (fun b => decide (b.virt ≠ virt)) }

/-- An allocation of at least one byte of a valid type, or a free of the base
    of a live block. -/
def Sys.Valid (s : Sys) : MemOp → Prop
  | .alloc size type _ => 0 < size ∧ type ≠ .unknown
  | .free virt => ∃ b ∈ s.live, b.virt = virt

instance (s : Sys) : (op : MemOp) → Decidable (s.Valid op)
  | .alloc _ _ _ => inferInstanceAs (Decidable (_ ∧ _))
  | .free virt => inferInstanceAs (Decidable (∃ b ∈ s.live, b.virt = virt))

/-- The machine when `avmf_init` returns on a configuration, or when the rest
    of `pager_init` has run after that. -/
inductive Started (basePhys limitPhys : Nat → Nat) (entries : Nat) : Machine → Prop where
  | avmf {m : Machine} : m.avmf = avmfInit Avmf.boot basePhys limitPhys entries →
      m.tableLog = [] → m.pagerReady = false → Started basePhys limitPhys entries m
  | pager {m m' : Machine} {e820 : List E820Entry} {retries : Nat} :
      Started basePhys limitPhys entries m → m.pagerReady = false →
      buildTables m e820 retries = some m' → Started basePhys limitPhys entries m'

/-! ## What the rest of `pager_init` keeps -/

/-- The direct map changes no register. -/
theorem sameRegs_mapDirect (e820 : List E820Entry) (lastMapEnd : Nat) (m : Machine) :
    SameRegs m (mapDirect e820 lastMapEnd m) := by
  induction e820 generalizing lastMapEnd m with
  | nil => exact SameRegs.refl m
  | cons e es ih =>
      simp only [mapDirect]
      split
      · exact ih lastMapEnd m
      · split
        · exact SameRegs.refl m
        · exact (sameRegs_pagerMapRange m _ _ _ _).trans (ih _ _)

/-- Nor do the windows of the firmware. -/
theorem sameRegs_mapIdentity (m : Machine) : SameRegs m (mapIdentity m) :=
  ((sameRegs_pagerMapRange m _ _ _ _).trans (sameRegs_pagerMapRange _ _ _ _ _)).trans
    (sameRegs_pagerMapRange _ _ _ _ _)

/-- The registers that allocating the PML4 leaves alone. -/
theorem allocPml4_regs {retries : Nat} {m m' : Machine}
    (hres : allocPml4 retries m = some m') :
    m'.pagerReady = m.pagerReady ∧ m'.cpuPhysBits = m.cpuPhysBits ∧ m'.firmwarePml4 ≠ 0 := by
  induction retries generalizing m with
  | zero =>
      unfold allocPml4 at hres
      split at hres
      · cases hres
      · rename_i h0
        rw [← Option.some.inj hres]
        exact ⟨rfl, rfl, h0⟩
  | succ retries ih =>
      simp only [allocPml4] at hres
      have hregs := sameRegs_allocPageTable m
      generalize allocPageTable m = r at hregs hres
      split at hres
      · obtain ⟨h1, h2, h3⟩ := ih hres
        exact ⟨h1.trans hregs.pagerReady, h2.trans hregs.cpuPhysBits, h3⟩
      · rename_i h0
        rw [← Option.some.inj hres]
        exact ⟨rfl, rfl, h0⟩

/-- The tables are complete: `CR3` and `mapped_pml4` take the PML4, and the
    pager goes over to the direct map. -/
def Machine.loaded (m : Machine) : Machine :=
  { m with cr3 := m.firmwarePml4, mappedPml4 := m.firmwarePml4, pagerReady := true }

@[simp] theorem loaded_avmf (m : Machine) : m.loaded.avmf = m.avmf := rfl
@[simp] theorem loaded_tableLog (m : Machine) : m.loaded.tableLog = m.tableLog := rfl
@[simp] theorem loaded_mem (m : Machine) : m.loaded.mem = m.mem := rfl
@[simp] theorem loaded_firmwarePml4 (m : Machine) :
    m.loaded.firmwarePml4 = m.firmwarePml4 := rfl
@[simp] theorem loaded_root (m : Machine) : m.loaded.root = m.root := rfl
@[simp] theorem loaded_pagerReady (m : Machine) : m.loaded.pagerReady = true := rfl

/-- Before the pager runs the tables are loaded without a check. -/
theorem loadTables_off {m : Machine} (hoff : m.pagerReady = false) :
    loadTables m = m.loaded := by
  unfold loadTables pagerLoad
  rw [if_neg (by rw [hoff]; decide)]
  rfl

/-- The rest of `pager_init` is the PML4, the direct map and the windows, and
    then the load. -/
theorem buildTables_some {e820 : List E820Entry} {retries : Nat} {m m' : Machine}
    (hready : m.pagerReady = false) (hres : buildTables m e820 retries = some m') :
    ∃ m₁, allocPml4 retries m = some m₁ ∧ m' = (mapIdentity (mapDirect e820 0 m₁)).loaded := by
  unfold buildTables at hres
  obtain ⟨m₁, hm₁, hm'⟩ := Option.map_eq_some_iff.mp hres
  refine ⟨m₁, hm₁, ?_⟩
  rw [← hm']
  apply loadTables_off
  rw [(sameRegs_mapIdentity _).pagerReady, (sameRegs_mapDirect _ _ _).pagerReady,
    (allocPml4_regs hm₁).1]
  exact hready

section Build

variable {P : Avmf → List Nat → Prop}
  (halloc : ∀ m : Machine, P m.avmf m.tableLog →
    P (allocPageTable m).m.avmf (allocPageTable m).m.tableLog)

include halloc

/-- A property that every table allocation keeps survives the attempts to get a
    PML4. -/
theorem allocPml4_keeps {retries : Nat} {m m' : Machine} (h : P m.avmf m.tableLog)
    (hres : allocPml4 retries m = some m') : P m'.avmf m'.tableLog := by
  induction retries generalizing m with
  | zero =>
      unfold allocPml4 at hres
      split at hres
      · cases hres
      · rw [← Option.some.inj hres]
        exact h
  | succ retries ih =>
      simp only [allocPml4] at hres
      have hstep := halloc m h
      generalize allocPageTable m = r at hstep hres
      split at hres
      · exact ih (m := { r.m with firmwarePml4 := r.tbl }) hstep hres
      · rw [← Option.some.inj hres]
        exact h

/-- It survives the direct map. -/
theorem mapDirect_keeps (e820 : List E820Entry) (lastMapEnd : Nat) {m : Machine}
    (h : P m.avmf m.tableLog) :
    P (mapDirect e820 lastMapEnd m).avmf (mapDirect e820 lastMapEnd m).tableLog := by
  induction e820 generalizing lastMapEnd m with
  | nil => exact h
  | cons e es ih =>
      simp only [mapDirect]
      by_cases hlen : e.len < 1
      · rw [if_pos hlen]
        exact ih _ h
      · rw [if_neg hlen]
        by_cases hend : exceedsCpu m
            (add64 (directStart lastMapEnd e) (directLen lastMapEnd e)) = true
        · rw [if_pos hend]
          exact h
        · rw [if_neg hend]
          exact ih _ (pagerMapRange_keeps halloc h)

/-- It survives the windows of the firmware. -/
theorem mapIdentity_keeps {m : Machine} (h : P m.avmf m.tableLog) :
    P (mapIdentity m).avmf (mapIdentity m).tableLog :=
  pagerMapRange_keeps halloc (pagerMapRange_keeps halloc (pagerMapRange_keeps halloc h))

/-- The rest of `pager_init` changes the allocator by page-table allocations
    only. -/
theorem buildTables_keeps {e820 : List E820Entry} {retries : Nat} {m m' : Machine}
    (hready : m.pagerReady = false) (h : P m.avmf m.tableLog)
    (hres : buildTables m e820 retries = some m') : P m'.avmf m'.tableLog := by
  obtain ⟨m₁, hm₁, hm'⟩ := buildTables_some hready hres
  rw [hm', loaded_avmf, loaded_tableLog]
  exact mapIdentity_keeps halloc (mapDirect_keeps halloc e820 0 (allocPml4_keeps halloc h hm₁))

end Build

/-! ## Ownership along a run -/

/-- When `avmf_init` returns, no page has an owner. -/
theorem owned_boot {a : Avmf} {basePhys limitPhys : Nat → Nat} {entries : Nat}
    (ha : a = avmfInit Avmf.boot basePhys limitPhys entries) : Owned a [] [] := by
  have hregions : RegionsOk a := by
    rw [ha]
    exact regionsOk_empty rfl rfl rfl rfl
  have hnoBlock : ∀ b : Block, b ∉ [] := fun b => List.not_mem_nil
  have hnoTable : ∀ x : Nat, x ∉ [] := fun x => List.not_mem_nil
  refine ⟨hregions, ⟨?_, ?_, ?_, List.Pairwise.nil, ?_⟩, ?_⟩
  · exact fun b hb => absurd hb (hnoBlock b)
  · exact fun b hb => absurd hb (hnoBlock b)
  · exact fun x hx => absurd hx (hnoTable x)
  · exact fun b hb => absurd hb (hnoBlock b)
  · exact fun b hb => absurd hb (hnoBlock b)

/-- Ownership of a system in which nothing wrapped. -/
def Sys.OwnedIf (s : Sys) : Prop :=
  s.m.avmf.wrapped = false → Owned s.m.avmf s.m.tableLog s.live

/-- A valid call keeps every page with its one owner, as long as no heap
    wraps. -/
theorem owned_step {s : Sys} {op : MemOp} (h : s.OwnedIf) (hvalid : s.Valid op) :
    (s.step op).OwnedIf := by
  cases op with
  | alloc size type flags =>
      intro hw
      exact avmfAlloc_owned hvalid.2 h hw
  | free virt =>
      intro hw
      obtain ⟨b, hb, rfl⟩ := hvalid
      simp only [Sys.step] at hw ⊢
      rw [(avmfFree_allocator _ _).1] at hw
      exact avmfFree_owned (h hw) hb

/-- The tables of `pager_init` own their pages. -/
theorem Started.avmf_wrapped_owned {basePhys limitPhys : Nat → Nat} {entries : Nat}
    {m : Machine} (hm : Started basePhys limitPhys entries m) :
    m.avmf.wrapped = false → Owned m.avmf m.tableLog [] := by
  induction hm with
  | avmf ha hlog _ =>
      intro _
      rw [hlog]
      exact owned_boot ha
  | pager _ hready hres ih =>
      exact buildTables_keeps (P := fun a log => a.wrapped = false → Owned a log [])
        (fun _ hm hw => allocPageTable_owned hm hw) hready ih hres

/-- A run keeps ownership as long as nothing wraps. -/
theorem owned_exec {s : Sys} {ops : List MemOp} (h : s.OwnedIf)
    (hvalid : Along Sys.step Sys.Valid s ops) : (exec Sys.step s ops).OwnedIf :=
  invariant (fun _ _ hinv hv => owned_step hinv hv) h hvalid

/-! ## Demand -/

/-- The bytes of virtual addresses asked of a space: whole pages, with a page
    of the sensitive space for each page-table allocation. -/
def demand (asked : MemoryAllocType → Nat) (log : List Nat) (t : MemoryAllocType) : Nat :=
  asked t + (if t = .sensitive then 4096 * log.length else 0)

/-- A demand that stays below the size of each space. -/
def Fits (d : MemoryAllocType → Nat) : Prop :=
  ∀ t, t ≠ .unknown → d t < spaceEnd t - spaceBase t

/-- No sum has wrapped, and no heap is beyond the demand on it. -/
structure Counted (d : MemoryAllocType → Nat) (a : Avmf) : Prop where
  nowrap : a.wrapped = false
  heap : ∀ t, t ≠ .unknown → a.heap t ≤ spaceBase t + d t

/-- What moves no heap keeps the count. -/
theorem Counted.of_same {d : MemoryAllocType → Nat} {a a' : Avmf} (h : Counted d a)
    (hw : a'.wrapped = a.wrapped) (hheap : a'.heap = a.heap) : Counted d a' :=
  ⟨hw.trans h.nowrap, by rw [hheap]; exact h.heap⟩

/-- Recording a region moves no heap. -/
theorem avmfAllocRegion_heap (a : Avmf) (virt phys size flags : Nat) :
    (avmfAllocRegion a virt phys size flags).2.heap = a.heap := by
  unfold avmfAllocRegion
  dsimp only
  split
  · rfl
  · rfl

/-- A request that the space can serve does not wrap. -/
theorem Counted.virt {d : MemoryAllocType → Nat} {a : Avmf} (h : Counted d a)
    (d' : MemoryAllocType → Nat) {size : Nat} {type : MemoryAllocType} (ht : type ≠ .unknown)
    (hd : ∀ t, d' t = d t + (if t = type then pageRound size else 0)) (hfits : Fits d') :
    Counted d' (avmfAllocVirt a size type).2 := by
  have hspace := hfits type ht
  have hend := spaceEnd_le type
  have hbase : 4096 ≤ spaceBase type := by
    cases type with
    | unknown => exact absurd rfl ht
    | user => decide
    | kernel => decide
    | driver => decide
    | sensitive => decide
  have hheap := h.heap type ht
  rw [hd type, if_pos rfl] at hspace
  have hround : size + 4095 < pageRound size + 4096 := by
    unfold pageRound
    omega
  have hsize : size + 4095 < 2 ^ 64 := by omega
  have halign : align4k size = pageRound size := align4k_of_lt hsize
  obtain ⟨hw, hle⟩ := avmfAllocVirt_nowrap size ht h.nowrap hsize (by rw [halign]; omega)
  refine ⟨hw, fun t htu => ?_⟩
  have h1 := hle t
  have h2 := h.heap t htu
  rw [halign] at h1
  rw [hd t]
  omega

/-- A page-table allocation is counted by its entry in the log. -/
theorem allocPageTable_counted {asked : MemoryAllocType → Nat} {m : Machine}
    (h : Fits (demand asked m.tableLog) → Counted (demand asked m.tableLog) m.avmf)
    (hfits : Fits (demand asked (allocPageTable m).m.tableLog)) :
    Counted (demand asked (allocPageTable m).m.tableLog) (allocPageTable m).m.avmf := by
  have hsens : MemoryAllocType.sensitive ≠ .unknown := by decide
  have hd : ∀ x t, demand asked (m.tableLog ++ [x]) t
      = demand asked m.tableLog t + (if t = .sensitive then pageRound pageSize else 0) := by
    intro x t
    unfold demand
    rw [List.length_append, List.length_singleton,
      show pageRound pageSize = 4096 from by decide]
    by_cases ht : t = .sensitive
    · rw [if_pos ht, if_pos ht, if_pos ht]
      omega
    · rw [if_neg ht, if_neg ht, if_neg ht]
  obtain ⟨x, hlog⟩ := allocPageTable_log m
  rw [hlog] at hfits ⊢
  have hbefore : Fits (demand asked m.tableLog) := by
    intro t ht
    have := hfits t ht
    rw [hd x t] at this
    omega
  have hpsame := sameRegions_allocPhys m.avmf pageSize
  have hvirt := ((h hbefore).of_same hpsame.wrapped hpsame.heap).virt
    (demand asked (m.tableLog ++ [x])) hsens (hd x) hfits
  rcases allocPageTable_allocator (m := m) rfl rfl with ⟨-, havmf, -⟩ | ⟨-, havmf, -⟩
  · rw [havmf]
    exact hvirt
  · rw [havmf]
    unfold tableAvmf
    exact hvirt.of_same (avmfAllocRegion_wrapped _ _ _ _ _) (avmfAllocRegion_heap _ _ _ _ _)

/-- The demand of a system, on each space. -/
def Sys.demand (s : Sys) : MemoryAllocType → Nat := Pfi.demand s.asked s.m.tableLog

/-- A system whose demand fits has not wrapped. -/
def Sys.CountedIf (s : Sys) : Prop := Fits s.demand → Counted s.demand s.m.avmf

/-- An allocation moves the heaps by what it asks for, its page tables
    included. -/
theorem avmfAlloc_counted {asked asked' : MemoryAllocType → Nat} {m : Machine}
    {size flags : Nat} {type : MemoryAllocType} (ht : type ≠ .unknown)
    (hasked : ∀ t, asked' t = asked t + (if t = type then pageRound size else 0))
    (h : Fits (demand asked m.tableLog) → Counted (demand asked m.tableLog) m.avmf) :
    Fits (demand asked' (avmfAlloc m size type flags).m.tableLog) →
      Counted (demand asked' (avmfAlloc m size type flags).m.tableLog)
        (avmfAlloc m size type flags).m.avmf := by
  generalize hv : avmfAllocVirt m.avmf size type = v
  generalize hp : avmfAllocPhysContiguous v.2 (align4k size) = p
  generalize hr : avmfAllocRegion p.2 v.1 p.1 (align4k size) flags = r
  have hd : ∀ t, demand asked' m.tableLog t
      = demand asked m.tableLog t + (if t = type then pageRound size else 0) := by
    intro t
    unfold demand
    rw [hasked t]
    omega
  have hvc : Fits (demand asked' m.tableLog) → Counted (demand asked' m.tableLog) v.2 := by
    intro hfits
    have hbefore : Fits (demand asked m.tableLog) := by
      intro t htu
      have := hfits t htu
      rw [hd t] at this
      omega
    rw [← hv]
    exact (h hbefore).virt _ ht hd hfits
  have hpc : Fits (demand asked' m.tableLog) → Counted (demand asked' m.tableLog) p.2 := by
    intro hfits
    have hsame := sameRegions_allocPhys v.2 (align4k size)
    rw [hp] at hsame
    exact (hvc hfits).of_same hsame.wrapped hsame.heap
  have hrc : Fits (demand asked' m.tableLog) → Counted (demand asked' m.tableLog) r.2 := by
    intro hfits
    rw [← hr]
    exact (hpc hfits).of_same (avmfAllocRegion_wrapped _ _ _ _ _)
      (avmfAllocRegion_heap _ _ _ _ _)
  rcases avmfAlloc_cases hv hp hr with ⟨-, hres⟩ | ⟨-, -, hres⟩ | ⟨-, -, -, hres⟩ |
      ⟨-, -, -, hres⟩
  · rw [hres]; exact hvc
  · rw [hres]; exact hpc
  · rw [hres]; exact hrc
  · rw [hres]
    exact pagerMapRange_keeps (m := { m with avmf := r.2 })
      (P := fun a log => Fits (demand asked' log) → Counted (demand asked' log) a)
      (fun _ hm hfits => allocPageTable_counted hm hfits) hrc

/-- A valid call keeps the count. -/
theorem counted_step {s : Sys} {op : MemOp} (h : s.CountedIf) (hvalid : s.Valid op) :
    (s.step op).CountedIf := by
  cases op with
  | alloc size type flags => exact avmfAlloc_counted hvalid.2 (fun t => rfl) h
  | free virt =>
      obtain ⟨hw, hheap, -, -, hlog⟩ := avmfFree_allocator s.m virt
      unfold Sys.CountedIf Sys.demand at h ⊢
      simp only [Sys.step]
      rw [hlog]
      exact fun hfits => (h hfits).of_same hw hheap

/-- So does a run of them. -/
theorem counted_exec {s : Sys} {ops : List MemOp} (h : s.CountedIf)
    (hvalid : Along Sys.step Sys.Valid s ops) : (exec Sys.step s ops).CountedIf :=
  invariant (fun _ _ hinv hv => counted_step hinv hv) h hvalid

/-! ## The configured ranges -/

/-- The ranges are those of the configuration. -/
structure RangesAre (a' a : Avmf) : Prop where
  base : a.avmfBase = a'.avmfBase
  limit : a.avmfLimit = a'.avmfLimit

/-- The search for pages leaves the configured ranges alone. -/
theorem allocPhys_ranges (a : Avmf) (size : Nat) :
    RangesAre a (avmfAllocPhysContiguous a size).2 := by
  rcases avmfAllocPhysContiguous_cases a size with hres | ⟨i, s, n, -, -, -, -, -, hres⟩
  · rw [hres]; exact ⟨rfl, rfl⟩
  · rw [hres]; exact ⟨rfl, rfl⟩

/-- Ranges that stay twice stay. -/
theorem RangesAre.trans {a a' a'' : Avmf} (h : RangesAre a a') (h' : RangesAre a' a'') :
    RangesAre a a'' :=
  ⟨h'.base.trans h.base, h'.limit.trans h.limit⟩

/-- A table allocation leaves the configured ranges alone. -/
theorem allocPageTable_ranges {a : Avmf} {m : Machine} (h : RangesAre a m.avmf) :
    RangesAre a (allocPageTable m).m.avmf := by
  have hp := allocPhys_ranges m.avmf pageSize
  rcases allocPageTable_allocator (m := m) rfl rfl with ⟨-, havmf, -⟩ | ⟨-, havmf, -⟩
  · rw [havmf]
    obtain ⟨-, hl, hb⟩ :=
      avmfAllocVirt_bitmap (avmfAllocPhysContiguous m.avmf pageSize).2 pageSize .sensitive
    exact h.trans (hp.trans ⟨hb, hl⟩)
  · rw [havmf]
    obtain ⟨-, hl, hb⟩ := tableAvmf_bitmap m.avmf
    exact h.trans (hp.trans ⟨hb, hl⟩)

/-- So does a call. -/
theorem ranges_step {a : Avmf} {s : Sys} {op : MemOp} (h : RangesAre a s.m.avmf) :
    RangesAre a (s.step op).m.avmf := by
  cases op with
  | free virt =>
      obtain ⟨-, -, hb, hl, -⟩ := avmfFree_allocator s.m virt
      exact h.trans ⟨hb, hl⟩
  | alloc size type flags =>
      show RangesAre a (avmfAlloc s.m size type flags).m.avmf
      generalize hv : avmfAllocVirt s.m.avmf size type = v
      generalize hp : avmfAllocPhysContiguous v.2 (align4k size) = p
      generalize hr : avmfAllocRegion p.2 v.1 p.1 (align4k size) flags = r
      obtain ⟨-, hvl, hvb⟩ := avmfAllocVirt_bitmap s.m.avmf size type
      obtain ⟨-, hrl, hrb⟩ := avmfAllocRegion_bitmap p.2 v.1 p.1 (align4k size) flags
      have hpr := allocPhys_ranges v.2 (align4k size)
      rw [hv] at hvl hvb
      rw [hp] at hpr
      rw [hr] at hrl hrb
      have hv' : RangesAre a v.2 := h.trans ⟨hvb, hvl⟩
      have hp' : RangesAre a p.2 := hv'.trans hpr
      have hr' : RangesAre a r.2 := hp'.trans ⟨hrb, hrl⟩
      rcases avmfAlloc_cases hv hp hr with ⟨-, hres⟩ | ⟨-, -, hres⟩ | ⟨-, -, -, hres⟩ |
          ⟨-, -, -, hres⟩
      · rw [hres]; exact hv'
      · rw [hres]; exact hp'
      · rw [hres]; exact hr'
      · rw [hres]
        exact pagerMapRange_keeps (m := { s.m with avmf := r.2 })
          (P := fun a' _ => RangesAre a a') (fun _ hm => allocPageTable_ranges hm) hr'

/-! ## Exclusive pages -/

/-- The page lies inside a configured range. -/
def Configured (basePhys limitPhys : Nat → Nat) (entries q : Nat) : Prop :=
  ∃ i, i < entries ∧ basePhys i ≤ q * 4096 ∧ (q + 1) * 4096 ≤ limitPhys i

/-- Every configured range lies in the pages 1 to 131071. -/
def RamInBitmap (basePhys limitPhys : Nat → Nat) (entries : Nat) : Prop :=
  ∀ i, i < entries → pageSize ≤ basePhys i ∧ limitPhys i ≤ bitmapSize * pageSize

/-- A page of a range is one that `avmf_init` was given. -/
theorem configured_of_inRange {basePhys limitPhys : Nat → Nat} {entries : Nat} {a : Avmf}
    (hram : RamInBitmap basePhys limitPhys entries)
    (ha : RangesAre (avmfInit Avmf.boot basePhys limitPhys entries) a) {i q : Nat}
    (hin : a.InRange i q 1) : Configured basePhys limitPhys entries q := by
  obtain ⟨hne, hlo, hup⟩ := hin
  have hbase := congrFun ha.base i
  have hlimit := congrFun ha.limit i
  unfold avmfInit at hbase hlimit
  dsimp only at hbase hlimit
  generalize hent : (if entries % 256 ≤ 128 then entries % 256 else 128) = ent at hbase hlimit
  have hle : ent ≤ entries := by
    rw [← hent]
    split <;> omega
  by_cases hi : i < ent
  · rw [if_pos hi] at hbase hlimit
    obtain ⟨h1, h2⟩ := hram i (by omega)
    unfold Avmf.startPage at hlo
    unfold Avmf.endPage at hup
    simp only [pageSize, bitmapSize, pageShift] at h1 h2 hlo hup
    rw [hbase] at hlo hne
    rw [hlimit] at hup hne
    rw [align4k_of_lt (by omega), Nat.shiftRight_eq_div_pow] at hlo
    rw [Nat.shiftRight_eq_div_pow] at hup
    exact ⟨i, by omega, by omega, by omega⟩
  · rw [if_neg hi] at hbase hlimit
    rw [hbase, hlimit] at hne
    exact absurd hne (Nat.lt_irrefl 0)

/-- No physical page belongs to two live blocks, nor to a live block and a
    page table; each of these pages is marked and inside a configured
    range. -/
structure Exclusive (basePhys limitPhys : Nat → Nat) (entries : Nat) (s : Sys) : Prop where
  blocks : s.live.Pairwise Block.PagesApart
  tables : ∀ b ∈ s.live, ∀ x ∈ s.m.tableLog, x ≠ 0 → ¬ b.Page (x / pageSize)
  blockMarked : ∀ b ∈ s.live, ∀ q, b.Page q →
    bitmapTest s.m.avmf.avmfBitmap q = 1 ∧ Configured basePhys limitPhys entries q
  tableMarked : ∀ x ∈ s.m.tableLog, x ≠ 0 →
    bitmapTest s.m.avmf.avmfBitmap (x / pageSize) = 1 ∧
      Configured basePhys limitPhys entries (x / pageSize)

/-- `pager_init` has asked for its tables only. -/
theorem started_counted {basePhys limitPhys : Nat → Nat} {entries : Nat} {m : Machine}
    (hm : Started basePhys limitPhys entries m) :
    Fits (demand (fun _ => 0) m.tableLog) → Counted (demand (fun _ => 0) m.tableLog) m.avmf := by
  induction hm with
  | avmf ha hlog _ =>
      intro _
      rw [ha]
      exact ⟨rfl, fun t _ => Nat.le_add_right _ _⟩
  | pager _ hready hres ih =>
      exact buildTables_keeps
        (P := fun a log => Fits (demand (fun _ => 0) log) → Counted (demand (fun _ => 0) log) a)
        (fun _ hm hfits => allocPageTable_counted hm hfits) hready ih hres

/-- `pager_init` leaves the ranges as `avmf_init` set them. -/
theorem started_ranges {basePhys limitPhys : Nat → Nat} {entries : Nat} {m : Machine}
    (hm : Started basePhys limitPhys entries m) :
    RangesAre (avmfInit Avmf.boot basePhys limitPhys entries) m.avmf := by
  induction hm with
  | avmf ha _ _ =>
      rw [ha]
      exact ⟨rfl, rfl⟩
  | pager _ hready hres ih =>
      exact buildTables_keeps
        (P := fun a _ => RangesAre (avmfInit Avmf.boot basePhys limitPhys entries) a)
        (fun _ hm => allocPageTable_ranges hm) hready ih hres

/-- Physical page ownership: in every run of allocations and frees of live
    blocks whose demand on each space, in whole pages and with the
    page-table allocations, stays below the space, every page has one owner. -/
theorem pages_exclusive {basePhys limitPhys : Nat → Nat} {entries : Nat} {m : Machine}
    (hm : Started basePhys limitPhys entries m)
    (hram : RamInBitmap basePhys limitPhys entries) {ops : List MemOp}
    (hvalid : Along Sys.step Sys.Valid { m := m } ops)
    (hfits : Fits (exec Sys.step { m := m } ops).demand) :
    Exclusive basePhys limitPhys entries (exec Sys.step { m := m } ops) := by
  have hcount := counted_exec (s := { m := m }) (started_counted hm) hvalid hfits
  have hown := owned_exec (s := { m := m }) hm.avmf_wrapped_owned hvalid hcount.nowrap
  have hranges : RangesAre (avmfInit Avmf.boot basePhys limitPhys entries)
      (exec Sys.step { m := m } ops).m.avmf :=
    invariant (I := fun s => RangesAre _ s.m.avmf) (fun _ _ hinv _ => ranges_step hinv)
      (started_ranges hm) hvalid
  generalize exec Sys.step { m := m } ops = s at hcount hown hranges
  have hmarked : ∀ q, Taken s.m.avmf q → bitmapTest s.m.avmf.avmfBitmap q = 1 ∧
      Configured basePhys limitPhys entries q := by
    intro q ht
    obtain ⟨i, -, hin⟩ := ht.range
    exact ⟨ht.bit, configured_of_inRange hram hranges hin⟩
  exact ⟨hown.pages.apart, hown.pages.fresh,
    fun b hb q hq => hmarked q (hown.pages.blocks b hb q hq),
    fun x hx h0 => hmarked _ (hown.pages.tables x hx h0).2⟩

/-- One range of RAM from 0x10000 to 0x40000, when `avmf_init` returns. -/
def smallRam : Machine :=
  { avmf := avmfInit Avmf.boot (fun _ => 0x10000) (fun _ => 0x40000) 1
    firmwarePml4 := 0x5000
    mappedPml4 := 0x5000
    cpuPhysBits := 36 }

/-- It is a state in which `avmf_init` has returned. -/
theorem smallRam_started : Started (fun _ => 0x10000) (fun _ => 0x40000) 1 smallRam :=
  .avmf rfl rfl rfl

/-- Its range lies in the bitmap. -/
theorem smallRam_ram : RamInBitmap (fun _ => 0x10000) (fun _ => 0x40000) 1 :=
  fun _ _ => ⟨show pageSize ≤ 0x10000 by decide, show 0x40000 ≤ bitmapSize * pageSize by decide⟩

/-- `Fits` of a concrete demand. -/
theorem fits_of {d : MemoryAllocType → Nat} (huser : d .user < 0xFFFF7FFFFFFFF000)
    (hkernel : d .kernel < 2 ^ 45) (hdriver : d .driver < 2 ^ 45)
    (hsens : d .sensitive < 2 ^ 45) : Fits d := by
  intro t ht
  cases t with
  | unknown => exact absurd rfl ht
  | user => exact huser
  | kernel => exact hkernel
  | driver => exact hdriver
  | sensitive => exact hsens

/-- Two blocks, a free, and a third block in the pages of the first. -/
theorem pages_exclusive_reuse :
    Exclusive (fun _ => 0x10000) (fun _ => 0x40000) 1
      (exec Sys.step { m := smallRam }
        [.alloc 8192 .user 3, .alloc 1 .kernel 3, .free 0x1000, .alloc 0x18000 .driver 3]) :=
  pages_exclusive smallRam_started smallRam_ram (by decide +kernel)
    (fits_of (by decide +kernel) (by decide +kernel) (by decide +kernel) (by decide +kernel))

/-- The bytes asked of the sensitive space stay below it even when rounded to
    pages, but six page tables take the rest: its heap wraps, hands out
    0x2000 inside a user block, and freeing that address clears the pages of
    the user block, which is still live. -/
theorem page_tables_exhaust_sensitive :
    let s := exec Sys.step { m := smallRam }
      [.alloc (2 ^ 45 - 0x8000) .sensitive 3, .alloc 8192 .user 3, .alloc 1 .sensitive 3,
        .alloc 1 .sensitive 3, .alloc 1 .sensitive 3, .alloc 1 .sensitive 3,
        .alloc 1 .sensitive 3, .free 0x2000]
    Along Sys.step Sys.Valid { m := smallRam }
        [.alloc (2 ^ 45 - 0x8000) .sensitive 3, .alloc 8192 .user 3, .alloc 1 .sensitive 3,
          .alloc 1 .sensitive 3, .alloc 1 .sensitive 3, .alloc 1 .sensitive 3,
          .alloc 1 .sensitive 3, .free 0x2000] ∧
      Fits s.asked ∧ ¬ Exclusive (fun _ => 0x10000) (fun _ => 0x40000) 1 s := by
  intro s
  refine ⟨by decide +kernel, ?_, ?_⟩
  · exact fits_of (by decide +kernel) (by decide +kernel) (by decide +kernel)
      (by decide +kernel)
  · intro h
    have hlive : (⟨0x1000, 0x10000, 0x2000⟩ : Block) ∈ s.live := by decide +kernel
    have hbit := (h.blockMarked _ hlive 16 (by decide)).1
    have hclear : bitmapTest s.m.avmf.avmfBitmap 16 = 0 := by decide +kernel
    rw [hclear] at hbit
    cases hbit

end Pfi
