import Pfi.Usable

/-! # Mappings that a free leaves behind

    `avmf_free` clears the bitmap bit of every page of the region, and calls
    `pager_unmap` once, on the base.  So what a free takes from the page
    tables is one leaf: the pages of the block that another leaf translates
    stay mapped, while the allocator hands them out again.

    In well-formed tables the addresses that a free leaves without translation
    are those that had none and those of the leaf that translates the freed
    address (`Standing.freed_iff`).  A run therefore unmaps every block that it
    frees exactly when each block, at the time of its free, is translated by
    one leaf at most (`freed_unmapped_iff`).  For a block that is mapped whole
    this is a matter of its size and alignment (`BlockMapped.sameLeaf_iff`). -/

namespace Pfi

open Words RadixTable Run

/-- The step leaves no address of a block that it frees translated. -/
def FreedUnmapped (s : Sys) : MemOp → Prop
  | .alloc _ _ _ => True
  | .free virt => ∀ b ∈ s.live, b.virt = virt → ∀ o, o < b.size →
      (avmfFree s.m virt).translate (b.virt + o) = none

/-- Every address of the block that is translated at all is translated by the
    leaf that translates the base. -/
def Block.OneLeaf (m : Machine) (b : Block) : Prop :=
  ∀ o, o < b.size → m.translate (b.virt + o) ≠ none →
    SameLeaf m b.virt ((b.virt + o) / pageSize)

/-- What is asked of a free: `avmf_find` knows the address, and the block has
    one leaf; or the block has no translation left. -/
def FreesOneLeaf (s : Sys) : MemOp → Prop
  | .alloc _ _ _ => True
  | .free virt => ∀ b ∈ s.live, b.virt = virt →
      ((avmfFind s.m.avmf virt).1 ≠ none ∧ b.OneLeaf s.m) ∨
        ∀ o, o < b.size → s.m.translate (b.virt + o) = none

/-! ## One free -/

section Free

variable {m : Machine} {virt : Nat}

theorem translate_eq_none {a : Nat} :
    m.translate a = none ↔ walkPage m.mem (m.cr3 / pageSize) (a / pageSize) = none := by
  unfold Machine.translate hwWalk
  exact Option.map_eq_none_iff

/-- What `pager_unmap` leaves without translation. -/
theorem Unmapped.translate_iff {m' : Machine} (h : Unmapped m virt m')
    (hroot : m.cr3 / pageSize = m.root) (a : Nat) :
    m'.translate a = none ↔ m.translate a = none ∨ SameLeaf m virt (a / pageSize) := by
  rw [translate_eq_none, translate_eq_none, h.regs.cr3, hroot]
  by_cases hsame : SameLeaf m virt (a / pageSize)
  · exact iff_of_true (h.gone _ hsame) (Or.inr hsame)
  · rw [h.kept _ hsame]
    constructor
    · exact Or.inl
    · rintro (hnone | hc)
      · exact hnone
      · exact absurd hc hsame

/-- What a free leaves without translation. -/
theorem Standing.freed_iff (h : Standing m) (hfree : FreesNoTable m virt) (a : Nat) :
    (avmfFree m virt).translate a = none ↔
      m.translate a = none ∨
        ((avmfFind m.avmf virt).1 ≠ none ∧ SameLeaf m virt (a / pageSize)) := by
  cases hfind : (avmfFind m.avmf virt).1 with
  | none =>
      rw [avmfFree_missed hfind]
      constructor
      · exact Or.inl
      · rintro (hnone | ⟨hne, -⟩)
        · exact hnone
        · exact absurd rfl hne
  | some j =>
      obtain ⟨a', ha', -, hres⟩ := h.released hfree hfind
      have hun := (ha'.unmap virt).2
      rw [hres, hun.translate_iff ha'.root]
      show m.translate a = none ∨ SameLeaf m virt (a / pageSize) ↔ _
      rw [and_iff_right (Option.some_ne_none j)]

/-- A block is unmapped by its free exactly when it has one leaf, which
    `avmf_find` leads to, or none. -/
theorem Standing.unmapped_iff (h : Standing m) {b : Block} (hfree : FreesNoTable m b.virt) :
    (∀ o, o < b.size → (avmfFree m b.virt).translate (b.virt + o) = none) ↔
      ((avmfFind m.avmf b.virt).1 ≠ none ∧ b.OneLeaf m) ∨
        ∀ o, o < b.size → m.translate (b.virt + o) = none := by
  constructor
  · intro hall
    by_cases hfind : (avmfFind m.avmf b.virt).1 = none
    · right
      intro o ho
      rcases (h.freed_iff hfree _).mp (hall o ho) with hnone | ⟨hne, -⟩
      · exact hnone
      · exact absurd hfind hne
    · left
      refine ⟨hfind, fun o ho hmapped => ?_⟩
      rcases (h.freed_iff hfree _).mp (hall o ho) with hnone | ⟨-, hsame⟩
      · exact absurd hnone hmapped
      · exact hsame
  · rintro (⟨hfind, hleaf⟩ | hnone) o ho
    · refine (h.freed_iff hfree _).mpr ?_
      by_cases hmapped : m.translate (b.virt + o) = none
      · exact Or.inl hmapped
      · exact Or.inr ⟨hfind, hleaf o ho hmapped⟩
    · exact (h.freed_iff hfree _).mpr (Or.inl (hnone o ho))

end Free

/-! ## Runs -/

/-- In a run that keeps the tables well formed. -/
theorem Standing.freed_run_iff {s : Sys} (h : Standing s.m) {ops : List MemOp}
    (hsound : Along Sys.step StepSound s ops) :
    Along Sys.step FreedUnmapped s ops ↔ Along Sys.step FreesOneLeaf s ops := by
  refine along_iff (I := fun s => Standing s.m) (fun s op hs hop => ?_)
    (fun s op hs hop _ => (hs.step hop).1) h hsound
  cases op with
  | alloc size type flags => exact Iff.rfl
  | free virt =>
      refine forall_congr' fun b => forall_congr' fun _ => forall_congr' fun hvirt => ?_
      subst hvirt
      exact hs.unmapped_iff hop.keeps

section Init

variable {mem : Nat → Fin 512 → Nat} {e820 : List E820Entry} {bits retries : Nat} {m : Machine}

/-- In every run after `pager_init` that keeps the tables well formed and
    within reach, no call faults on a table, and the frees leave no address of
    the freed blocks translated exactly when each block has one leaf at most
    when it is freed. -/
theorem freed_unmapped_iff (hmap : E820Ok e820 bits (2 ^ 47)) (hbits : 32 ≤ bits ∧ bits ≤ 52)
    (hres : pagerInit (bootMachine mem) e820 bits retries = some m) (hlog : TablesGranted m)
    {ops : List MemOp} (hsound : Along Sys.step StepSound { m := m } ops) :
    (exec Sys.step { m := m } ops).m.faults = m.faults ∧
      (Along Sys.step FreedUnmapped { m := m } ops ↔
        Along Sys.step FreesOneLeaf { m := m } ops) := by
  have hdone := pagerInit_done hmap (Nat.le_refl _) hbits hres hlog
  have hstart : Standing (Sys.m { m := m }) := hdone.standing (pagerInit_worded hres) hlog
  exact ⟨hstart.faults_run hsound, hstart.freed_run_iff hsound⟩

end Init

/-! ## Blocks that are mapped whole -/

/-- `pager_map_range` maps the block with one leaf. -/
def Block.SingleLeaf (b : Block) : Prop :=
  b.size = 4096 ∨ (b.size = 0x200000 ∧ b.virt % 0x200000 = 0 ∧ b.phys % 0x200000 = 0)

theorem sameLeaf_self (m : Machine) (virt : Nat) : SameLeaf m virt (virt / 4096) := by
  unfold SameLeaf
  split
  · rfl
  · rfl

/-- The leaf of the base translates the whole block exactly when there is only
    one. -/
theorem BlockMapped.sameLeaf_iff {m : Machine} {b : Block} {flags : Nat}
    (h : BlockMapped m b flags) (hplaced : b.Placed) :
    (∀ k, 4096 * k < b.size → SameLeaf m b.virt (b.virt / 4096 + k)) ↔ b.SingleLeaf := by
  have hpos := hplaced.pos
  have hround := hplaced.sizePage
  have hvirt := hplaced.virtPage
  have hphys := hplaced.physPage
  have hhuge : hugeAt m.mem m.root (b.virt / 4096) = true ↔ RangeHuge b.virt b.phys b.size 0 :=
    h.huge_iff (k := 0) (by omega)
  unfold SameLeaf Block.SingleLeaf
  by_cases hr : RangeHuge b.virt b.phys b.size 0
  · simp only [if_pos (hhuge.mpr hr)]
    have hstarts := hr.starts
    have hfits := hr.fits
    have hcongruent := hr.congruent
    unfold rangeSlot at hfits
    constructor
    · intro hall
      right
      -- a block beyond the slot has a page in the next one
      by_contra hc
      have hnext := hall 512 (by omega)
      omega
    · rintro (hsize | ⟨hsize, -, -⟩) k hk
      · omega
      · omega
  · simp only [if_neg (fun hc => hr (hhuge.mp hc))]
    constructor
    · intro hall
      left
      by_contra hc
      have hnext := hall 1 (by omega)
      omega
    · rintro (hsize | ⟨hsize, hv, hp⟩) k hk
      · rw [show k = 0 by omega]
        rfl
      · refine absurd ⟨hvirt, hphys, by omega, by omega, ?_⟩ hr
        unfold rangeSlot
        omega

section Ok

variable {s : Sys} {b : Block}

/-- A live block holds no page table, so that its free releases none. -/
theorem Sys.Ok.freesNoTable (h : s.Ok) (hlog : TablesGranted s.m) (hb : b ∈ s.live) :
    (avmfFind s.m.avmf b.virt).1 ≠ none ∧ FreesNoTable s.m b.virt := by
  have hpos := (h.agrees.placed b hb).pos
  obtain ⟨hd, hmem, hvirt, hphys, hsize⟩ := h.owned.recorded b hb
  obtain ⟨j, -, hheader, hfind⟩ := avmfFind_of_mem h.owned.regions hmem (v := b.virt)
    ⟨by omega, by omega⟩
  unfold FreesNoTable
  rw [hfind]
  refine ⟨Option.some_ne_none j, ?_⟩
  intro j' hj x hx
  rw [← Option.some.inj hj, hheader, hphys, hsize]
  exact h.owned.pages.fresh b hb x hx (hlog x hx).1

/-- The free of a live block leaves no address of it translated exactly when
    the block has a single leaf. -/
theorem Sys.Ok.freed_iff (h : s.Ok) (hlog : TablesGranted s.m) (hb : b ∈ s.live) :
    (∀ o, o < b.size → (avmfFree s.m b.virt).translate (b.virt + o) = none)
      ↔ b.SingleLeaf := by
  have hplaced := h.agrees.placed b hb
  have hvirt := hplaced.virtPage
  obtain ⟨a, ha, -, hun⟩ := avmfFree_unmapped h.owned h.agrees hlog hb
  obtain ⟨flags, hmapped⟩ := ha.blocks b hb
  rw [← hmapped.sameLeaf_iff hplaced]
  have hpage : ∀ o, (b.virt + o) / pageSize = b.virt / 4096 + o / 4096 := fun o => by
    simp only [pageSize]
    omega
  have hfreed : ∀ o, o < b.size → ((avmfFree s.m b.virt).translate (b.virt + o) = none ↔
      SameLeaf { s.m with avmf := a } b.virt (b.virt / 4096 + o / 4096)) := by
    intro o ho
    have htranslated := ha.translate hb ho
    rw [hun.translate_iff ha.root, hpage]
    constructor
    · rintro (hnone | hsame)
      · rw [hnone] at htranslated
        cases htranslated
      · exact hsame
    · exact Or.inr
  constructor
  · intro hall k hk
    have hsame := (hfreed (4096 * k) hk).mp (hall _ hk)
    rw [Nat.mul_div_cancel_left k (by decide)] at hsame
    exact hsame
  · intro hall o ho
    exact (hfreed o ho).mpr (hall (o / 4096) (by omega))

end Ok

/-- Every free is of a block with a single leaf. -/
def FreesSingleLeaf (s : Sys) : MemOp → Prop
  | .alloc _ _ _ => True
  | .free virt => ∀ b ∈ s.live, b.virt = virt → b.SingleLeaf

/-- In every run of regular allocations and frees of live blocks in which no
    heap wraps and every table is granted, the frees unmap their blocks
    exactly when these are single pages or single 2 MiB leaves. -/
theorem Sys.Ok.freed_run_iff {s : Sys} (h : s.Ok) {ops : List MemOp}
    (hvalid : Along Sys.step Sys.Valid s ops) (hregular : Along Sys.step Sys.Regular s ops)
    (hgranted : (exec Sys.step s ops).Granted) :
    Along Sys.step FreedUnmapped s ops ↔ Along Sys.step FreesSingleLeaf s ops := by
  have hall := (along_of_final granted_back hgranted).2
  refine along_iff (I := Sys.Ok) (fun s op hs hop => ?_)
    (fun s op hs hop _ => ok_step hs hop.1.1 hop.1.2 hop.2) h ((hvalid.and hregular).and hall)
  cases op with
  | alloc size type flags => exact Iff.rfl
  | free virt =>
      refine forall_congr' fun b => forall_congr' fun hb => forall_congr' fun hvirt => ?_
      subst hvirt
      exact hs.freed_iff (granted_back s _ hop.2).2 hb

/-- The state in which a block of kernel memory is the only one. -/
theorem FreshStart.kernel {m : Machine} {g k n : Nat} (h : FreshStart m g n) (hk : 0 < k)
    (hkn : k + 3 * (k + 1) ≤ n) (hsmall : k ≤ 0x1000) :
    (Sys.step { m := m } (.alloc (4096 * k) .kernel 3)).live
        = [⟨aosKernelSpaceBase, g * 4096, 4096 * k⟩] ∧
      (Sys.step { m := m } (.alloc (4096 * k) .kernel 3)).Granted ∧
      (Sys.step { m := m } (.alloc (4096 * k) .kernel 3)).Ok := by
  obtain ⟨hlive, hgranted⟩ := h.allocated hk hkn hsmall .kernel 3 (by decide)
  have hvalid : Sys.Valid { m := m } (.alloc (4096 * k) .kernel 3) :=
    ⟨Nat.mul_pos (by decide) hk, by decide⟩
  have hregular : Sys.Regular { m := m } (.alloc (4096 * k) .kernel 3) :=
    ⟨by decide, fun hc => by cases hc⟩
  exact ⟨hlive, hgranted, ok_step h.ok hvalid hregular hgranted⟩

/-- Its allocation faults on no table. -/
theorem FreshStart.kernelWithin {m : Machine} {g k n : Nat} (h : FreshStart m g n) (hk : 0 < k)
    (hkn : k + 3 * (k + 1) ≤ n) (hsmall : k ≤ 0x1000) :
    (Sys.step { m := m } (.alloc (4096 * k) .kernel 3)).m.faults = m.faults ∧
      (Sys.step { m := m } (.alloc (4096 * k) .kernel 3)).Within := by
  have hbase : (avmfAlloc m (4096 * k) .kernel 3).virt = aosKernelSpaceBase :=
    h.reported hk (by omega) hsmall .kernel 3 (by decide)
  refine h.reach.sys.alloc h.ok (by decide) (by decide) (fun _ hc => by cases hc) (fun _ => ?_)
    (h.kernel hk hkn hsmall).2.1
  right
  show m.firmwarePml4 + pageSize ≤ (avmfAlloc m (4096 * k) .kernel 3).virt
  rw [hbase, h.pml4]
  decide

/-- A block of two pages: the free of its base leaves the second page mapped,
    and neither call faults. -/
theorem second_page_stays :
    ∃ m, pagerInit (bootMachine (fun _ _ => 0)) lowE820 36 1 = some m ∧
      (Sys.step { m := m } (.alloc 8192 .kernel 3)).live.map Block.virt = [aosKernelSpaceBase] ∧
      (exec Sys.step { m := m } [.alloc 8192 .kernel 3, .free aosKernelSpaceBase]).m.faults
        = m.faults ∧
      ¬ Along Sys.step FreedUnmapped { m := m }
        [.alloc 8192 .kernel 3, .free aosKernelSpaceBase] := by
  obtain ⟨m, g, hres, h⟩ := lowE820_fresh (fun _ _ => 0)
  obtain ⟨hlive, hgranted, hok⟩ := h.kernel (k := 2) (by decide) (by decide) (by decide)
  obtain ⟨hfaults, hwithin⟩ := h.kernelWithin (k := 2) (by decide) (by decide) (by decide)
  rw [show (4096 * 2 : Nat) = 8192 from rfl] at hlive hgranted hok hfaults hwithin
  have hmem : ⟨aosKernelSpaceBase, g * 4096, 8192⟩
      ∈ (Sys.step { m := m } (.alloc 8192 .kernel 3)).live := by
    rw [hlive]
    exact List.mem_singleton_self _
  refine ⟨m, hres, by rw [hlive]; rfl, ?_, ?_⟩
  · rw [exec_cons, exec_cons, exec_nil]
    exact (hwithin.free hok hgranted.2 hmem).1.trans hfaults
  · rintro ⟨-, hfreed, -⟩
    rcases (hok.freed_iff hgranted.2 hmem).mp (hfreed _ hmem rfl) with hc | ⟨hc, -⟩
    · cases hc
    · cases hc

/-- A block of one page is unmapped by its free. -/
theorem freed_unmapped_page :
    ∃ m, pagerInit (bootMachine (fun _ _ => 0)) lowE820 36 1 = some m ∧
      (Sys.step { m := m } (.alloc 4096 .kernel 3)).live.map Block.virt = [aosKernelSpaceBase] ∧
      (exec Sys.step { m := m } [.alloc 4096 .kernel 3, .free aosKernelSpaceBase]).m.faults
        = m.faults ∧
      Along Sys.step FreedUnmapped { m := m }
        [.alloc 4096 .kernel 3, .free aosKernelSpaceBase] := by
  obtain ⟨m, g, hres, h⟩ := lowE820_fresh (fun _ _ => 0)
  obtain ⟨hlive, hgranted, hok⟩ := h.kernel (k := 1) (by decide) (by decide) (by decide)
  have hwithin := (h.kernelWithin (k := 1) (by decide) (by decide) (by decide)).2
  rw [Nat.mul_one] at hlive hgranted hok hwithin
  have hmem : ⟨aosKernelSpaceBase, g * 4096, 4096⟩
      ∈ (Sys.step { m := m } (.alloc 4096 .kernel 3)).live := by
    rw [hlive]
    exact List.mem_singleton_self _
  obtain ⟨hfound, hfrees⟩ := hok.freesNoTable hgranted.2 hmem
  have hsound : Along Sys.step StepSound { m := m }
      [.alloc 4096 .kernel 3, .free aosKernelSpaceBase] :=
    ⟨(h.stepWorks (by decide) .kernel (by decide)).sound, ⟨hfrees, hwithin.reach⟩, trivial⟩
  obtain ⟨hfaults, hiff⟩ := freed_unmapped_iff ⟨by decide, by decide, by decide⟩ (by decide) hres
    h.granted.2 hsound
  refine ⟨m, hres, by rw [hlive]; rfl, hfaults, hiff.mpr ⟨trivial, ?_, trivial⟩⟩
  intro b hb hvirt
  left
  rw [hlive, List.mem_singleton] at hb
  subst hb
  refine ⟨hfound, fun o ho _ => ?_⟩
  change o < 4096 at ho
  change SameLeaf _ aosKernelSpaceBase ((aosKernelSpaceBase + o) / pageSize)
  rw [show (aosKernelSpaceBase + o) / pageSize = aosKernelSpaceBase / 4096 by
    simp only [aosKernelSpaceBase, pageSize] at ho ⊢
    omega]
  exact sameLeaf_self _ _

end Pfi
