import Pfi.PagerInit
import Pfi.AvmfRuns

/-! # The region list and the page tables agree

    `avmf_alloc` and `avmf_free` keep two records of a block: a header on the
    region list, which `avmf_virt_to_phys` reads, and the leaves of a range
    call in the page tables, which the processor reads.  `Agrees` is the
    invariant on the side of the tables.  Its core is where 2 MiB leaves may
    be: in the direct map, in the window of the firmware code, or in a region
    that has a header.  A new range meets no header, so mapping it splits no
    leaf, and the leaf that a free clears lies in the freed block. -/

namespace Pfi

open Words RadixTable Run

/-! ## The invariant -/

/-- Page `n` lies in a region that has a header. -/
def RegionPage (a : Avmf) (n : Nat) : Prop :=
  ∃ h ∈ a.staticHeaders, ∃ v, Canonical v ∧ h.virtAddr ≤ v ∧ v < h.virtAddr + h.size ∧
    n % 2 ^ 36 = v / 4096 % 2 ^ 36

/-- A block of whole pages, below the canonical hole or from the kernel space
    on. -/
structure Block.Placed (b : Block) : Prop where
  virtPage : b.virt % 4096 = 0
  physPage : b.phys % 4096 = 0
  sizePage : b.size % 4096 = 0
  pos : 0 < b.size
  space : b.virt + b.size ≤ 2 ^ 47 ∨ (aosKernelSpaceBase ≤ b.virt ∧ b.virt + b.size ≤ 2 ^ 64)

/-- The tables hold the leaves of a range call for the block. -/
structure BlockMapped (m : Machine) (b : Block) (flags : Nat) : Prop where
  args : RangeArgs m b.virt b.phys b.size flags
  leaves : ∀ k, 4096 * k < b.size → walkPage m.mem m.root (b.virt / 4096 + k)
    = some (rangeLeaf b.virt b.phys b.size flags k)

structure Agrees (m : Machine) (live : List Block) : Prop where
  tables : TablesOk m
  bits : m.cpuPhysBits ≤ 52
  mapped : m.mappedPml4 = m.firmwarePml4
  root : m.cr3 / pageSize = m.root
  limits : ∀ i, m.avmf.avmfLimit i ≤ 2 ^ m.cpuPhysBits
  huge : ∀ n, hugeAt m.mem m.root n = true →
    DirectPage (2 ^ 45) n ∨ CodePage n ∨ RegionPage m.avmf n
  placed : ∀ b ∈ live, b.Placed
  blocks : ∀ b ∈ live, ∃ flags, BlockMapped m b flags

theorem Block.Placed.canonical {b : Block} (h : b.Placed) {v : Nat} (hlo : b.virt ≤ v)
    (hhi : v < b.virt + b.size) : Canonical v := by
  have hspace := h.space
  unfold Canonical
  simp only [aosKernelSpaceBase] at hspace
  omega

/-- The page of an address of the block. -/
theorem Block.Placed.page {b : Block} (h : b.Placed) {k : Nat} (hk : 4096 * k < b.size) :
    b.virt ≤ b.virt + 4096 * k ∧ b.virt + 4096 * k < b.virt + b.size ∧
      (b.virt + 4096 * k) / 4096 = b.virt / 4096 + k := by
  have h1 := h.virtPage
  omega

/-- Pages of blocks that do not meet have different keys. -/
theorem Block.Placed.key_ne {b b' : Block} (h : b.Placed) (h' : b'.Placed)
    (hapart : Apart b.virt b.size b'.virt b'.size) {k k' : Nat} (hk : 4096 * k < b.size)
    (hk' : 4096 * k' < b'.size) :
    (b.virt / 4096 + k) % 2 ^ 36 ≠ (b'.virt / 4096 + k') % 2 ^ 36 := by
  obtain ⟨hlo, hhi, hpage⟩ := h.page hk
  obtain ⟨hlo', hhi', hpage'⟩ := h'.page hk'
  rw [← hpage, ← hpage']
  intro hkey
  have hsame := (canonical_page (h.canonical hlo hhi) (h'.canonical hlo' hhi')).mp hkey
  have h1 := h.sizePage
  have h2 := h'.sizePage
  have h3 := h.virtPage
  have h4 := h'.virtPage
  unfold Apart at hapart
  omega

/-! ## The allocator alone -/

/-- Tables see of the allocator only the marks of their own pages. -/
theorem TablesOk.of_avmf {m : Machine} (h : TablesOk m) {a : Avmf}
    (hbits : ∀ f, f * 4096 ∈ m.tableLog → bitmapTest m.avmf.avmfBitmap f = 1 →
      bitmapTest a.avmfBitmap f = 1) : TablesOk { m with avmf := a } := by
  refine ⟨h.unshared, ?_, h.entries, h.touched⟩
  intro p f hp
  obtain ⟨h1, h2, h3⟩ := h.owned p f hp
  exact ⟨h1, hbits f h3 h2, h3⟩

theorem RegionPage.mono {a a' : Avmf} {n : Nat} (h : RegionPage a n)
    (hheaders : ∀ hd, hd ∈ a.staticHeaders → hd ∈ a'.staticHeaders) : RegionPage a' n := by
  obtain ⟨hd, hmem, hv⟩ := h
  exact ⟨hd, hheaders hd hmem, hv⟩

/-- The allocator moves on and the tables stay. -/
theorem Agrees.of_avmf {m : Machine} {live : List Block} (h : Agrees m live) {a : Avmf}
    (hbits : ∀ f, f * 4096 ∈ m.tableLog → bitmapTest m.avmf.avmfBitmap f = 1 →
      bitmapTest a.avmfBitmap f = 1)
    (hheaders : ∀ hd, hd ∈ m.avmf.staticHeaders → hd ∈ a.staticHeaders)
    (hlimit : a.avmfLimit = m.avmf.avmfLimit) : Agrees { m with avmf := a } live := by
  refine ⟨h.tables.of_avmf hbits, h.bits, h.mapped, h.root, ?_, ?_, h.placed, ?_⟩
  · intro i
    show a.avmfLimit i ≤ 2 ^ m.cpuPhysBits
    rw [hlimit]
    exact h.limits i
  · intro n hn
    rcases h.huge n hn with hd | hd | hd
    · exact Or.inl hd
    · exact Or.inr (Or.inl hd)
    · exact Or.inr (Or.inr (hd.mono hheaders))
  · intro b hb
    obtain ⟨flags, hargs, hleaves⟩ := h.blocks b hb
    exact ⟨flags, ⟨hargs.1, hargs.2, hargs.3, hargs.4, hargs.5, hargs.6⟩, hleaves⟩

/-- The search for pages clears no mark. -/
theorem allocPhys_marks (a : Avmf) (size : Nat) {f : Nat}
    (hf : bitmapTest a.avmfBitmap f = 1) :
    bitmapTest (avmfAllocPhysContiguous a size).2.avmfBitmap f = 1 := by
  rcases avmfAllocPhysContiguous_cases a size with hres | ⟨i, s, n, -, -, -, -, -, hres⟩
  · rw [hres]
    exact hf
  · rw [hres]
    show bitmapTest (bitmapSetRun a.avmfBitmap s n) f = 1
    rw [bitmapTest_setRun]
    by_cases hin : s ≤ f ∧ f < s + n
    · rw [if_pos hin]
    · rw [if_neg hin]
      exact hf

/-- A page-table allocation forgets no header. -/
theorem allocPageTable_headers {hd : AvmfHeader} (m : Machine)
    (hmem : hd ∈ m.avmf.staticHeaders) :
    hd ∈ (allocPageTable m).m.avmf.staticHeaders := by
  have hsame := (sameRegions_allocPhys m.avmf pageSize).headers
  rcases allocPageTable_allocator (m := m) rfl rfl with ⟨-, havmf, -⟩ | ⟨-, havmf, -⟩
  · rw [havmf, avmfAllocVirt_headers, hsame]
    exact hmem
  · rw [havmf]
    unfold tableAvmf
    refine avmfAllocRegion_mono ?_
    rw [avmfAllocVirt_headers, hsame]
    exact hmem

/-! ## Mapping a new block -/

/-- The range of a new block meets no 2 MiB leaf. -/
theorem Agrees.small {m : Machine} {live : List Block} (h : Agrees m live) {b : Block}
    (hb : b.Placed) (hcode : b.virt + b.size ≤ 0xFF000000 ∨ 0x100000000 ≤ b.virt)
    (hapart : ∀ hd ∈ m.avmf.staticHeaders, Apart hd.virtAddr hd.size b.virt b.size) :
    ∀ k, 4096 * k < b.size → hugeAt m.mem m.root (b.virt / 4096 + k) = false := by
  intro k hk
  have hspace := hb.space
  have hvirt := hb.virtPage
  have hsize := hb.sizePage
  obtain ⟨hlo, hhi, hpage⟩ := hb.page hk
  simp only [aosKernelSpaceBase] at hspace
  by_contra hc
  rcases h.huge _ (Bool.not_eq_false _ ▸ hc) with hd | hd | ⟨hd, hmem, v, hcan, hv, hv', hkey⟩
  · unfold DirectPage at hd
    omega
  · unfold CodePage at hd
    omega
  · rw [← hpage] at hkey
    have hsame := (canonical_page (hb.canonical hlo hhi) hcan).mp hkey
    have hap := hapart hd hmem
    unfold Apart at hap
    omega

/-- A block that is about to be mapped: it has its header, and its range meets
    no other block and no 2 MiB leaf. -/
structure Mappable (m : Machine) (live : List Block) (b : Block) (flags : Nat) : Prop where
  agrees : Agrees m live
  placed : b.Placed
  args : RangeArgs m b.virt b.phys b.size flags
  recorded : ∃ hd ∈ m.avmf.staticHeaders, hd.virtAddr = b.virt ∧ hd.size = b.size
  small : ∀ k, 4096 * k < b.size → hugeAt m.mem m.root (b.virt / 4096 + k) = false
  apart : ∀ b' ∈ live, Apart b'.virt b'.size b.virt b.size

/-- `pager_map_range` on such a block. -/
theorem Mappable.map {m : Machine} {live : List Block} {b : Block} {flags : Nat}
    (hm : Mappable m live b flags)
    (hlog : TablesGranted (pagerMapRange m b.virt b.phys b.size flags)) :
    Agrees (pagerMapRange m b.virt b.phys b.size flags) (b :: live) := by
  obtain ⟨h, hb, hargs, hrecorded, hsmall, hapart⟩ := hm
  have hregs := sameRegs_pagerMapRange m b.virt b.phys b.size flags
  have hmapped := pagerMapRange_mapped hargs h.tables hsmall hlog
  have hheaders : ∀ hd, hd ∈ m.avmf.staticHeaders →
      hd ∈ (pagerMapRange m b.virt b.phys b.size flags).avmf.staticHeaders :=
    fun hd hmem => pagerMapRange_keeps (P := fun a _ => hd ∈ a.staticHeaders)
      allocPageTable_headers hmem
  have hlimit : RangesAre m.avmf (pagerMapRange m b.virt b.phys b.size flags).avmf :=
    pagerMapRange_keeps (P := fun a _ => RangesAre m.avmf a)
      (fun _ hm => allocPageTable_ranges hm) ⟨rfl, rfl⟩
  generalize pagerMapRange m b.virt b.phys b.size flags = m' at hregs hmapped hheaders hlimit ⊢
  have hinside := hmapped.inside
  have houtside := hmapped.outside
  refine ⟨hmapped.ok, by rw [hregs.cpuPhysBits]; exact h.bits,
    by rw [hregs.mappedPml4, hregs.firmwarePml4]; exact h.mapped,
    by rw [hregs.cr3, hregs.root]; exact h.root, ?_, ?_, ?_, ?_⟩
  · intro i
    rw [hlimit.limit, hregs.cpuPhysBits]
    exact h.limits i
  · intro n hn
    rw [hregs.root] at hn
    by_cases hin : ∃ k, 4096 * k < b.size ∧ n % 2 ^ 36 = (b.virt / 4096 + k) % 2 ^ 36
    · -- a page of the block lies in the region of its header
      obtain ⟨k, hk, hkey⟩ := hin
      obtain ⟨hd, hmem, hvirt, hsize⟩ := hrecorded
      obtain ⟨hlo, hhi, hpage⟩ := hb.page hk
      right
      right
      refine ⟨hd, hheaders hd hmem, b.virt + 4096 * k, hb.canonical hlo hhi, ?_, ?_, ?_⟩
      · omega
      · omega
      · rw [hpage]
        exact hkey
    · -- a page outside of the block is mapped as before
      have hsame := houtside n (fun k _ hk hkey => hin ⟨k, hk, hkey⟩)
      rw [hugeAt_congr hsame] at hn
      rcases h.huge n hn with hd | hd | hd
      · exact Or.inl hd
      · exact Or.inr (Or.inl hd)
      · exact Or.inr (Or.inr (hd.mono hheaders))
  · intro b' hb'
    rcases List.mem_cons.mp hb' with rfl | hb'
    · exact hb
    · exact h.placed b' hb'
  · intro b' hb'
    rcases List.mem_cons.mp hb' with rfl | hb'
    · refine ⟨flags, hargs.of_sameRegs hregs, ?_⟩
      intro k hk
      rw [hregs.root]
      exact hinside k (Nat.zero_le k) hk
    · obtain ⟨flags', hargs', hleaves⟩ := h.blocks b' hb'
      refine ⟨flags', hargs'.of_sameRegs hregs, ?_⟩
      intro k hk
      -- the older blocks are apart from the new one
      rw [hregs.root, houtside _ (fun k' _ hk' =>
        (h.placed b' hb').key_ne hb (hapart b' hb') hk hk')]
      exact hleaves k hk

/-! ## Nothing is undone -/

section Alloc

variable {m : Machine} {live : List Block} {size flags : Nat} {type : MemoryAllocType}

theorem avmfAlloc_log_mono {x : Nat} (hx : x ∈ m.tableLog) :
    x ∈ (avmfAlloc m size type flags).m.tableLog := by
  generalize hv : avmfAllocVirt m.avmf size type = v
  generalize hp : avmfAllocPhysContiguous v.2 (align4k size) = p
  generalize hr : avmfAllocRegion p.2 v.1 p.1 (align4k size) flags = r
  rcases avmfAlloc_cases hv hp hr with ⟨-, hres⟩ | ⟨-, -, hres⟩ | ⟨-, -, -, hres⟩ |
      ⟨-, -, -, hres⟩
  · rw [hres]; exact hx
  · rw [hres]; exact hx
  · rw [hres]; exact hx
  · rw [hres]
    exact pagerMapRange_log_mono { m with avmf := r.2 } v.1 p.1 (align4k size) flags hx

/-! ## Allocating a block -/

/-- A user range that stays below the canonical hole and clear of the window
    of the firmware code. -/
def UserClear (a : Avmf) (size : Nat) : Prop :=
  a.heap .user + align4k size ≤ 2 ^ 47 ∧
    (a.heap .user + align4k size ≤ 0xFF000000 ∨ 0x100000000 ≤ a.heap .user)

instance (a : Avmf) (size : Nat) : Decidable (UserClear a size) :=
  inferInstanceAs (Decidable (_ ∧ _))

/-- Where `avmf_alloc` places a block. -/
theorem block_placed {a : Avmf} {v p : Nat} (ht : type ≠ .unknown) (hsize : 0 < size)
    (hword : size + 4095 < 2 ^ 64) (hend : ∀ t, t ≠ .unknown → a.heap t ≤ spaceEnd t)
    (hrange : RangeTaken a type v (align4k size)) (hphys : p % 4096 = 0)
    (huser : type = .user → v + align4k size ≤ 2 ^ 47) :
    Block.Placed ⟨v, p, align4k size⟩ := by
  refine ⟨hrange.aligned, hphys, align4k_mod size, align4k_pos hword hsize, ?_⟩
  have hbase := hrange.base
  have htop := hrange.top
  have hlast := hend type ht
  show v + align4k size ≤ 2 ^ 47 ∨ (aosKernelSpaceBase ≤ v ∧ v + align4k size ≤ 2 ^ 64)
  cases type with
  | unknown => exact absurd rfl ht
  | user => exact Or.inl (huser rfl)
  | kernel =>
      right
      simp only [spaceBase, spaceEnd, aosKernelSpaceBase, aosDriverSpaceBase] at hbase hlast ⊢
      omega
  | driver =>
      right
      simp only [spaceBase, spaceEnd, aosKernelSpaceBase, aosDriverSpaceBase,
        aosSensitiveSpaceBase] at hbase hlast ⊢
      omega
  | sensitive =>
      right
      simp only [spaceBase, spaceEnd, aosKernelSpaceBase, aosSensitiveSpaceBase]
        at hbase hlast ⊢
      omega

/-- Blocks that are recorded by headers meet no range that meets no header. -/
theorem Owned.block_apart {a : Avmf} {log : List Nat} (h : Owned a log live) {virt n : Nat}
    (hapart : ∀ hd ∈ a.staticHeaders, Apart hd.virtAddr hd.size virt n) :
    ∀ b ∈ live, Apart b.virt b.size virt n := by
  intro b hb
  obtain ⟨hd, hmem, hvirt, -, hsize⟩ := h.recorded b hb
  rw [← hvirt, ← hsize]
  exact hapart hd hmem

/-- The physical pages of a run lie below the limits of the ranges. -/
theorem runTaken_end {a : Avmf} {log : List Nat} {phys n bound : Nat}
    (hrun : RunTaken a log live phys n) (hn : 0 < n) (hlimit : ∀ i, a.avmfLimit i ≤ bound) :
    phys + 4096 * n ≤ bound := by
  obtain ⟨i, -, hin⟩ := (hrun.taken (phys / 4096 + (n - 1)) (by omega) (by omega)).range
  have hup := hin.upper
  have halign := hrun.aligned
  have hle := hlimit i
  unfold Avmf.endPage at hup
  simp only [pageShift] at hup
  rw [Nat.shiftRight_eq_div_pow] at hup
  omega

/-- The stages of `avmf_alloc` before it maps the block keep the agreement. -/
theorem avmfAlloc_agrees (h : Agrees m live) {v p r : Nat × Avmf}
    (hv : avmfAllocVirt m.avmf size type = v)
    (hp : avmfAllocPhysContiguous v.2 (align4k size) = p)
    (hr : avmfAllocRegion p.2 v.1 p.1 (align4k size) flags = r) :
    Agrees { m with avmf := v.2 } live ∧ Agrees { m with avmf := p.2 } live ∧
      Agrees { m with avmf := r.2 } live := by
  obtain ⟨hvb, hvl, -⟩ := avmfAllocVirt_bitmap m.avmf size type
  have hvh := avmfAllocVirt_headers m.avmf size type
  rw [hv] at hvb hvl hvh
  have hpsame := sameRegions_allocPhys v.2 (align4k size)
  have hprange := allocPhys_ranges v.2 (align4k size)
  have hpmarks := fun f => allocPhys_marks v.2 (align4k size) (f := f)
  rw [hp] at hpsame hprange hpmarks
  obtain ⟨hrb, hrl, -⟩ := avmfAllocRegion_bitmap p.2 v.1 p.1 (align4k size) flags
  rw [hr] at hrb hrl
  have hvheaders : ∀ hd, hd ∈ m.avmf.staticHeaders → hd ∈ v.2.staticHeaders := by
    intro hd hmem
    rw [hvh]
    exact hmem
  have hpheaders : ∀ hd, hd ∈ m.avmf.staticHeaders → hd ∈ p.2.staticHeaders := by
    intro hd hmem
    rw [hpsame.headers]
    exact hvheaders hd hmem
  have hrheaders : ∀ hd, hd ∈ m.avmf.staticHeaders → hd ∈ r.2.staticHeaders := by
    intro hd hmem
    rw [← hr]
    exact avmfAllocRegion_mono (hpheaders hd hmem)
  have hvmarks : ∀ f, f * 4096 ∈ m.tableLog → bitmapTest m.avmf.avmfBitmap f = 1 →
      bitmapTest v.2.avmfBitmap f = 1 := by
    intro f _ hf
    rw [hvb]
    exact hf
  have hrmarks : ∀ f, f * 4096 ∈ m.tableLog → bitmapTest m.avmf.avmfBitmap f = 1 →
      bitmapTest r.2.avmfBitmap f = 1 := by
    intro f hlogged hf
    rw [hrb]
    exact hpmarks f (hvmarks f hlogged hf)
  exact ⟨h.of_avmf hvmarks hvheaders hvl,
    h.of_avmf (fun f hlogged hf => hpmarks f (hvmarks f hlogged hf)) hpheaders
      (hprange.limit.trans hvl),
    h.of_avmf hrmarks hrheaders ((hrl.trans hprange.limit).trans hvl)⟩

/-- Only the user heap can meet the code of the firmware. -/
theorem offCode_of_base {t : MemoryAllocType} {virt size : Nat} (ht : t ≠ .unknown)
    (hbase : spaceBase t ≤ virt)
    (huser : t = .user → virt + size ≤ 0xFF000000 ∨ 0x100000000 ≤ virt) :
    virt + size ≤ 0xFF000000 ∨ 0x100000000 ≤ virt := by
  cases t with
  | unknown => exact absurd rfl ht
  | user => exact huser rfl
  | kernel =>
      simp only [spaceBase, aosKernelSpaceBase] at hbase
      omega
  | driver =>
      simp only [spaceBase, aosDriverSpaceBase] at hbase
      omega
  | sensitive =>
      simp only [spaceBase, aosSensitiveSpaceBase] at hbase
      omega

/-- The allocator when `avmf_alloc` has recorded the block, before it maps
    it. -/
theorem avmfAlloc_mappable (ht : type ≠ .unknown) (hflags : flags / 128 % 2 = 0)
    (hclear : type = .user → UserClear m.avmf size)
    (hown : Owned m.avmf m.tableLog live) (h : Agrees m live) {v p r : Nat × Avmf}
    (hv : avmfAllocVirt m.avmf size type = v)
    (hp : avmfAllocPhysContiguous v.2 (align4k size) = p)
    (hr : avmfAllocRegion p.2 v.1 p.1 (align4k size) flags = r)
    (hv0 : v.1 ≠ 0) (hp0 : p.1 ≠ 0) (hr0 : r.1 ≠ 0) (hw : p.2.wrapped = false) :
    Mappable { m with avmf := r.2 } live ⟨v.1, p.1, align4k size⟩ flags := by
  have hrecorded := (avmfAlloc_agrees h hv hp hr).2.2
  have hpos : 0 < align4k size := @allocPhys_size size v.2 (by rw [hp]; exact hp0)
  have hsize : 0 < size := by
    by_contra h0
    rw [Nat.eq_zero_of_not_pos h0] at hpos
    exact absurd hpos (by decide)
  -- the search for addresses and the one for pages leave the ranges and the regions
  have hlimit : ∀ i, p.2.avmfLimit i ≤ 2 ^ m.cpuPhysBits := by
    have hvl := (avmfAllocVirt_bitmap m.avmf size type).2.1
    have hprange := allocPhys_ranges v.2 (align4k size)
    rw [hv] at hvl
    rw [hp] at hprange
    intro i
    rw [hprange.limit, hvl]
    exact h.limits i
  have hpheaders : p.2.staticHeaders = m.avmf.staticHeaders := by
    have hpsame := sameRegions_allocPhys v.2 (align4k size)
    have hvh := avmfAllocVirt_headers m.avmf size type
    rw [hv] at hvh
    rw [hp] at hpsame
    exact hpsame.headers.trans hvh
  obtain ⟨-, hword, -, hpown, hrange, hrun⟩ :=
    avmfAlloc_taken ht (fun _ => hown) hv hp hw
  obtain ⟨hheap, hrange⟩ := hrange hv0
  have hrun := hrun hp0
  have hplaced : Block.Placed ⟨v.1, p.1, align4k size⟩ :=
    block_placed ht hsize hword (fun t htu => (hpown.regions.heap t htu).2.1) hrange
      hrun.aligned (fun hu => by
        rw [hheap, hu]
        exact (hclear hu).1)
  have hmod : align4k size % 4096 = 0 := hplaced.sizePage
  have hspace : v.1 + align4k size ≤ 2 ^ 47 ∨
      (aosKernelSpaceBase ≤ v.1 ∧ v.1 + align4k size ≤ 2 ^ 64) := hplaced.space
  have hlim : p.1 + align4k size ≤ 2 ^ m.cpuPhysBits := by
    have := runTaken_end hrun (by omega) hlimit
    omega
  -- of the firmware's 2 MiB leaves a heap can only meet those of its code
  have hcode : v.1 + align4k size ≤ 0xFF000000 ∨ 0x100000000 ≤ v.1 :=
    offCode_of_base ht hrange.base (fun hu => by
      rw [hheap, hu]
      exact (hclear hu).2)
  refine ⟨hrecorded, hplaced, ?_, ?_,
    h.small hplaced hcode (fun hd hmem => hrange.apart hd (by rw [hpheaders]; exact hmem)),
    hpown.block_apart hrange.apart⟩
  · have hvirt : v.1 % 4096 = 0 := hplaced.virtPage
    have hphys : p.1 % 4096 = 0 := hplaced.physPage
    simp only [aosKernelSpaceBase] at hspace
    have hcong : v.1 % 4096 = p.1 % 4096 := by omega
    have hend : v.1 + align4k size ≤ 2 ^ 64 := by omega
    have hspan : align4k size ≤ 2 ^ 48 := by omega
    exact ⟨h.bits, hcong, hend, hlim, hspan, hflags⟩
  · have hrec := avmfAllocRegion_recorded (a := p.2) v.1 p.1 flags
      (align4k_align4k size) (by rw [hr]; exact hr0)
    rw [hr] at hrec
    obtain ⟨hd, hmem, hvirt, -, hdsize⟩ := hrec
    exact ⟨hd, hmem, hvirt, hdsize⟩

/-- A sum that has not wrapped when the block is mapped, had not before. -/
theorem map_unwrapped {v p r : Nat × Avmf} {n : Nat}
    (hr : avmfAllocRegion p.2 v.1 p.1 n flags = r)
    (hw : (pagerMapRange { m with avmf := r.2 } v.1 p.1 n flags).avmf.wrapped = false) :
    p.2.wrapped = false := by
  by_contra hc
  have hrw : r.2.wrapped = true := by
    rw [← hr, avmfAllocRegion_wrapped]
    exact Bool.not_eq_false _ ▸ hc
  have hkept : (pagerMapRange { m with avmf := r.2 } v.1 p.1 n flags).avmf.wrapped = true :=
    @AllocInvariant.map _ _ wrapped_invariant { m with avmf := r.2 } hrw _ _ _ _
  rw [hw] at hkept
  cases hkept

/-- The range need only be clear where one is given. -/
theorem agrees_alloc (ht : type ≠ .unknown) (hflags : flags / 128 % 2 = 0)
    (hclear : (avmfAlloc m size type flags).virt ≠ 0 → type = .user → UserClear m.avmf size)
    (hown : Owned m.avmf m.tableLog live)
    (h : Agrees m live) (hw : (avmfAlloc m size type flags).m.avmf.wrapped = false)
    (hlog : TablesGranted (avmfAlloc m size type flags).m) :
    Agrees (avmfAlloc m size type flags).m ((avmfAlloc m size type flags).live size live) := by
  generalize hv : avmfAllocVirt m.avmf size type = v
  generalize hp : avmfAllocPhysContiguous v.2 (align4k size) = p
  generalize hr : avmfAllocRegion p.2 v.1 p.1 (align4k size) flags = r
  obtain ⟨h1, h2, h3⟩ := avmfAlloc_agrees h hv hp hr
  rcases avmfAlloc_cases hv hp hr with ⟨-, hres⟩ | ⟨-, -, hres⟩ | ⟨-, -, -, hres⟩ |
      ⟨hv0, hp0, hr0, hres⟩
  · rw [hres]
    exact h1
  · rw [hres]
    exact h2
  · rw [hres]
    exact h3
  · rw [hres] at hw hlog hclear ⊢
    have hpw := map_unwrapped hr hw
    unfold AllocResult.live AllocResult.block
    rw [if_neg hv0]
    exact (avmfAlloc_mappable ht hflags (hclear hv0) hown h hv hp hr hv0 hp0 hr0 hpw).map hlog

end Alloc

/-! ## Freeing a block -/

section Free

variable {m : Machine} {live : List Block} {b : Block} {flags : Nat}

/-- The 2 MiB leaves of a block are those of its range call. -/
theorem BlockMapped.huge_iff (h : BlockMapped m b flags) {k : Nat} (hk : 4096 * k < b.size) :
    hugeAt m.mem m.root (b.virt / 4096 + k) = true ↔ RangeHuge b.virt b.phys b.size k := by
  have hleaf := h.leaves k hk
  unfold rangeLeaf at hleaf
  rw [hugeAt_iff, hleaf]
  by_cases hr : RangeHuge b.virt b.phys b.size k
  · rw [if_pos hr]
    exact iff_of_true ⟨_, rfl⟩ hr
  · rw [if_neg hr]
    refine iff_of_false ?_ hr
    rintro ⟨e, he⟩
    cases (Prod.mk.inj (Option.some.inj he)).1

/-- The leaf that translates the base of a block translates pages of the
    block only. -/
theorem BlockMapped.sameLeaf (h : BlockMapped m b flags) (hpos : 0 < b.size) {n : Nat}
    (hn : SameLeaf m b.virt n) :
    ∃ k, 4096 * k < b.size ∧ n % 2 ^ 36 = (b.virt / 4096 + k) % 2 ^ 36 := by
  have hhuge : hugeAt m.mem m.root (b.virt / 4096) = true ↔ RangeHuge b.virt b.phys b.size 0 :=
    h.huge_iff (k := 0) (by omega)
  unfold SameLeaf at hn
  by_cases hr : RangeHuge b.virt b.phys b.size 0
  · rw [if_pos (hhuge.mpr hr)] at hn
    have hstarts := hr.starts
    have hfits := hr.fits
    unfold rangeSlot at hfits
    exact ⟨n % 512, by omega, by omega⟩
  · rw [if_neg (fun hc => hr (hhuge.mp hc))] at hn
    exact ⟨0, by omega, hn⟩

/-- Two live blocks do not meet. -/
theorem Owned.blocks_apart {a : Avmf} {log : List Nat} (h : Owned a log live) {b' : Block}
    (hb : b ∈ live) (hb' : b' ∈ live) (hne : b'.virt ≠ b.virt) :
    Apart b'.virt b'.size b.virt b.size := by
  obtain ⟨hd, hmem, hvirt, -, hsize⟩ := h.recorded b hb
  obtain ⟨hd', hmem', hvirt', -, hsize'⟩ := h.recorded b' hb'
  have hnehd : hd' ≠ hd := by
    intro heq
    rw [heq, hvirt] at hvirt'
    exact hne hvirt'.symm
  have hap := h.regions.apart.forall hmem' hmem hnehd
  unfold AvmfHeader.ApartFrom at hap
  rw [← hvirt, ← hvirt', ← hsize, ← hsize']
  exact hap

/-- A free of a live block unmaps the leaf at its base and leaves every other
    translation alone. -/
theorem avmfFree_unmapped (hown : Owned m.avmf m.tableLog live) (h : Agrees m live)
    (hlog : TablesGranted m) (hb : b ∈ live) :
    ∃ a, Agrees { m with avmf := a } live ∧ (avmfFree m b.virt).avmf = a ∧
      Unmapped { m with avmf := a } b.virt (avmfFree m b.virt) := by
  obtain ⟨j, -, hres⟩ := avmfFree_live hown hb
  -- no page table lies in the block
  have hmarks : ∀ f, f * 4096 ∈ m.tableLog → bitmapTest m.avmf.avmfBitmap f = 1 →
      bitmapTest (bitmapClearRun m.avmf.avmfBitmap (b.phys / pageSize) (b.size / pageSize)) f
        = 1 := by
    intro f hf hbit
    have hfresh := hown.pages.fresh b hb _ hf (hlog _ hf).1
    rw [show f * 4096 / 4096 = f from Nat.mul_div_cancel f (by decide)] at hfresh
    rw [bitmapTest_clearRun]
    exact (if_neg hfresh).trans hbit
  have ha := h.of_avmf (a := { m.avmf with
      lastFound := some j
      avmfBitmap := bitmapClearRun m.avmf.avmfBitmap (b.phys / pageSize) (b.size / pageSize) })
    hmarks (fun hd hmem => hmem) rfl
  refine ⟨_, ha, ?_, ?_⟩
  · rw [hres, (pagerUnmap_allocator _ _).1]
  · rw [hres]
    exact pagerUnmap_unmapped b.virt ha.tables h.mapped (h.tables.pml4_ne hlog)

theorem agrees_free (hown : Owned m.avmf m.tableLog live) (h : Agrees m live)
    (hlog : TablesGranted m) (hb : b ∈ live) :
    Agrees (avmfFree m b.virt) (live.filter (fun b' => decide (b'.virt ≠ b.virt))) := by
  obtain ⟨a, ha, havmf, hun⟩ := avmfFree_unmapped hown h hlog hb
  obtain ⟨flags, hmapped⟩ := ha.blocks b hb
  have hpos := (ha.placed b hb).pos
  have hroot : (avmfFree m b.virt).root = Machine.root { m with avmf := a } := hun.regs.root
  have hbits : (avmfFree m b.virt).cpuPhysBits = m.cpuPhysBits := hun.regs.cpuPhysBits
  generalize avmfFree m b.virt = m' at havmf hun hroot hbits ⊢
  refine ⟨hun.ok, ?_, ?_, ?_, ?_, ?_, ?_, ?_⟩
  · rw [hbits]
    exact h.bits
  · rw [hun.regs.mappedPml4, hun.regs.firmwarePml4]
    exact ha.mapped
  · rw [hun.regs.cr3, hroot]
    exact ha.root
  · intro i
    rw [havmf, hbits]
    exact ha.limits i
  · intro n hn
    rw [hroot] at hn
    rw [havmf]
    by_cases hs : SameLeaf { m with avmf := a } b.virt n
    · obtain ⟨e, he⟩ := hugeAt_iff.mp hn
      rw [hun.gone n hs] at he
      cases he
    · rw [hugeAt_congr (hun.kept n hs)] at hn
      exact ha.huge n hn
  · intro b' hb'
    exact ha.placed b' (List.mem_filter.mp hb').1
  · intro b' hb'
    obtain ⟨hmem', hne⟩ := List.mem_filter.mp hb'
    rw [decide_eq_true_eq] at hne
    obtain ⟨flags', hargs', hleaves'⟩ := ha.blocks b' hmem'
    refine ⟨flags', hargs'.of_sameRegs hun.regs, ?_⟩
    intro k hk
    rw [hroot]
    -- the page is in another block, so the leaf is another one
    have hother : ¬ SameLeaf { m with avmf := a } b.virt (b'.virt / 4096 + k) := by
      intro hs
      obtain ⟨k', hk', hkey⟩ := hmapped.sameLeaf hpos hs
      exact (ha.placed b' hmem').key_ne (ha.placed b hb) (hown.blocks_apart hb hmem' hne)
        hk hk' hkey
    rw [hun.kept _ hother]
    exact hleaves' k hk

end Free

end Pfi
