import Pfi.AvmfRuns
import Pfi.StaleRegions

/-! # Virtual to physical and back

    `avmf_virt_to_phys` finds the region of an address, and virtual ranges are
    never used twice, so the result is right.  `avmf_phys_to_virt` takes the
    first region of the list that holds the physical address, and physical
    pages are used again: the region of a freed block stays on the list and
    comes before that of the new owner.

    So an address comes back exactly when no earlier region holds its page
    (`roundTrip_iff`), and in a run all of them do exactly when no allocation
    takes a page that a recorded region still names (`roundTrips_iff`). -/

namespace Pfi

open Words Run

/-! ## One header -/

/-- Physical addresses as a search gives them. -/
structure PhysOk (a : Avmf) : Prop where
  limits : ∀ i, a.avmfLimit i < 2 ^ 64
  headers : ∀ h ∈ a.staticHeaders, h.physAddr % 4096 = 0 ∧ h.physAddr + h.size < 2 ^ 64

theorem physOk_invariant :
    AllocInvariant PhysOk (fun phys size => phys % 4096 = 0 ∧ phys + size < 2 ^ 64) := by
  refine ⟨?_, by decide, ?_, ?_, ?_⟩
  · intro a size h
    rcases avmfAllocPhysContiguous_cases a size with hres | ⟨i, s, n, hn, -, -, hin, -, hres⟩
    · rw [hres]
      exact ⟨h, fun h0 => absurd rfl h0⟩
    · rw [hres]
      refine ⟨⟨h.limits, h.headers⟩, fun _ => ⟨Nat.mul_mod_left s 4096, ?_⟩⟩
      have hlimit := h.limits i
      have hupper := hin.upper
      have hmod := align4k_mod size
      unfold Avmf.endPage at hupper
      rw [show a.avmfLimit i >>> pageShift = a.avmfLimit i / 4096 from
        Nat.shiftRight_eq_div_pow _ 12] at hupper
      dsimp only
      omega
  · intro a size type h
    obtain ⟨-, hlimit, -⟩ := avmfAllocVirt_bitmap a size type
    refine ⟨?_, ?_⟩
    · rw [hlimit]
      exact h.limits
    · rw [avmfAllocVirt_headers]
      exact h.headers
  · intro a virt phys size flags h hpages
    unfold avmfAllocRegion
    by_cases hfull : avmfStaticSize ≤ a.headerIndex
    · rw [if_pos hfull]
      exact h
    · rw [if_neg hfull]
      refine ⟨h.limits, fun hd hmem => ?_⟩
      rcases List.mem_append.mp hmem with hold | hnew
      · exact h.headers hd hold
      · rw [List.mem_singleton.mp hnew]
        exact hpages
  · intro a virt h
    unfold avmfFreePhys
    rcases avmfFind_cases a virt with ⟨j, hfind, -, -⟩ | ⟨hfind, -⟩
    · rw [hfind]
      exact ⟨h.limits, h.headers⟩
    · rw [hfind]
      exact h

section Header

variable {a : Avmf} {h : AvmfHeader}

theorem holds_iff (hword : h.physAddr + h.size < 2 ^ 64) {phys : Nat} :
    h.holds phys = true ↔ h.physAddr ≤ phys ∧ phys < h.physAddr + h.size := by
  unfold AvmfHeader.holds
  rw [add64_of_lt hword, Bool.and_eq_true, decide_eq_true_eq, decide_eq_true_eq]

/-- A region of whole pages holds the addresses of its pages. -/
theorem holds_iff_page (hword : h.physAddr + h.size < 2 ^ 64) (hphys : h.physAddr % 4096 = 0)
    (hsize : h.size % 4096 = 0) {phys : Nat} :
    h.holds phys = true ↔ h.Page (phys / 4096) := by
  rw [holds_iff hword]
  unfold AvmfHeader.Page
  omega

variable (hok : RegionsOk a)

include hok

/-- The list is all that `static_headers` holds. -/
theorem physToVirt_eq (phys : Nat) : avmfPhysToVirt a phys =
    match a.staticHeaders.find? (·.holds phys) with
    | some h => add64 h.virtAddr (phys - h.physAddr)
    | none => 0 := by
  unfold avmfPhysToVirt
  cases hheaders : a.staticHeaders with
  | nil =>
      cases hhead : a.avmfHead with
      | none => rfl
      | some k =>
          have hk := hok.head k hhead
          unfold Avmf.headerIndex at hk
          rw [hheaders] at hk
          exact absurd hk (Nat.not_lt_zero k)
  | cons h hs =>
      have hpos : 0 < a.headerIndex := by
        unfold Avmf.headerIndex
        rw [hheaders]
        exact Nat.succ_pos _
      obtain ⟨k, hhead, hk, -⟩ := hok.listed 0 hpos
      rw [hhead, Nat.le_zero.mp hk]
      rfl

/-- The regions lie outside the direct map. -/
theorem virtToPhys_of_mem (hmem : h ∈ a.staticHeaders) (hword : h.physAddr + h.size < 2 ^ 64)
    {virt : Nat} (hlo : h.virtAddr ≤ virt) (hhi : virt < h.virtAddr + h.size) :
    (avmfVirtToPhys a virt).1 = h.physAddr + (virt - h.virtAddr) ∧
      (avmfVirtToPhys a virt).2.staticHeaders = a.staticHeaders ∧
      (avmfVirtToPhys a virt).2.avmfHead = a.avmfHead := by
  obtain ⟨t, ht, hbase, hend⟩ := hok.placed h hmem
  have hspace := (hok.heap t ht).2.1
  have hout : ¬ (aosDirectMapBase ≤ virt ∧ virt < aosKernelSpaceBase) := by
    rintro ⟨h1, h2⟩
    cases t with
    | unknown => exact ht rfl
    | user =>
        simp only [spaceEnd] at hspace
        omega
    | kernel =>
        simp only [spaceBase] at hbase
        omega
    | driver =>
        simp only [spaceBase, aosDriverSpaceBase, aosKernelSpaceBase] at hbase h2
        omega
    | sensitive =>
        simp only [spaceBase, aosSensitiveSpaceBase, aosKernelSpaceBase] at hbase h2
        omega
  obtain ⟨j, -, hj, hfind⟩ := avmfFind_of_mem hok hmem ⟨hlo, hhi⟩
  unfold avmfVirtToPhys
  rw [if_neg hout, hfind]
  dsimp only
  rw [hj, add64_of_lt (by omega)]
  exact ⟨rfl, rfl, rfl⟩

end Header

/-- An address of a region comes back exactly when no region before it on the
    list holds the physical address. -/
theorem roundTrip_iff {a : Avmf} (hok : RegionsOk a) (hphys : PhysOk a)
    {pre post : List AvmfHeader} {h : AvmfHeader} (hlist : a.staticHeaders = pre ++ h :: post)
    {virt : Nat} (hlo : h.virtAddr ≤ virt) (hhi : virt < h.virtAddr + h.size) :
    avmfPhysToVirt (avmfVirtToPhys a virt).2 (avmfVirtToPhys a virt).1 = virt ↔
      ∀ h' ∈ pre, ¬ h'.Page ((h.physAddr + (virt - h.virtAddr)) / 4096) := by
  have hmem : h ∈ a.staticHeaders := by
    rw [hlist]
    exact List.mem_append_right _ List.mem_cons_self
  have hold : ∀ h' ∈ pre, h' ∈ a.staticHeaders := by
    intro h' hh'
    rw [hlist]
    exact List.mem_append_left _ hh'
  have hpage : ∀ h' ∈ a.staticHeaders, ∀ x, h'.holds x = true ↔ h'.Page (x / 4096) := by
    intro h' hh' x
    exact holds_iff_page (hphys.headers h' hh').2 (hphys.headers h' hh').1 (hok.sized h' hh').2.1
  obtain ⟨hres, hheaders, hhead⟩ := virtToPhys_of_mem hok hmem (hphys.headers h hmem).2 hlo hhi
  generalize hx : h.physAddr + (virt - h.virtAddr) = x at hres ⊢
  have hself : h.holds x = true := by
    rw [holds_iff (hphys.headers h hmem).2]
    omega
  have hsame : avmfPhysToVirt (avmfVirtToPhys a virt).2 x = avmfPhysToVirt a x := by
    unfold avmfPhysToVirt
    rw [hheaders, hhead]
  rw [hres, hsame, physToVirt_eq hok, hlist, List.find?_append]
  constructor
  · intro heq h' hh' hin
    -- the first such region gives an address of its own range
    cases hfirst : pre.find? (·.holds x) with
    | none =>
        have hno := List.find?_eq_none.mp hfirst h' hh'
        exact hno ((hpage h' (hold h' hh') x).mpr hin)
    | some h₀ =>
        rw [hfirst] at heq
        have hmem₀ := List.mem_of_find?_eq_some hfirst
        have hholds := List.find?_some hfirst
        rw [holds_iff (hphys.headers h₀ (hold h₀ hmem₀)).2] at hholds
        have hend := header_end hok (hold h₀ hmem₀)
        have hvirt : h₀.virtAddr + (x - h₀.physAddr) = virt := by
          rw [← add64_of_lt (by omega)]
          exact heq
        have hpair := hok.apart
        rw [hlist] at hpair
        have hapart : h₀.ApartFrom h :=
          (List.pairwise_append.mp hpair).2.2 h₀ hmem₀ h List.mem_cons_self
        unfold AvmfHeader.ApartFrom Apart at hapart
        omega
  · intro hnone
    have hskip : pre.find? (·.holds x) = none := by
      rw [List.find?_eq_none]
      intro h' hh' hc
      exact hnone h' hh' ((hpage h' (hold h' hh') x).mp hc)
    have hend := header_end hok hmem
    have hfound : (h :: post).find? (·.holds x) = some h := List.find?_cons_of_pos hself
    rw [hskip, Option.none_or, hfound]
    dsimp only
    rw [add64_of_lt (by omega)]
    omega

/-! ## Runs -/

/-- Every address of every live block comes back. -/
def RoundTrips (s : Sys) : Prop :=
  ∀ b ∈ s.live, ∀ virt, b.virt ≤ virt → virt < b.virt + b.size →
    avmfPhysToVirt (avmfVirtToPhys s.m.avmf virt).2 (avmfVirtToPhys s.m.avmf virt).1 = virt

/-- An allocation that succeeds takes no page of a recorded region. -/
def TakesNew (s : Sys) : MemOp → Prop
  | .alloc size type flags =>
      (avmfAlloc s.m size type flags).virt ≠ 0 → ∀ h ∈ s.m.avmf.staticHeaders, ∀ q,
        ((avmfAlloc s.m size type flags).block size).Page q → ¬ h.Page q
  | .free _ => True

/-- The region of the block is the first that names its pages. -/
def Foremost (a : Avmf) (b : Block) : Prop :=
  ∃ pre h post, a.staticHeaders = pre ++ h :: post ∧ h.virtAddr = b.virt ∧
    h.physAddr = b.phys ∧ h.size = b.size ∧ ∀ h' ∈ pre, ∀ q, b.Page q → ¬ h'.Page q

structure RoundTripOk (s : Sys) : Prop where
  owned : Owned s.m.avmf s.m.tableLog s.live
  phys : PhysOk s.m.avmf
  foremost : ∀ b ∈ s.live, Foremost s.m.avmf b

/-- The headers are only added to. -/
theorem headers_invariant (hs : List AvmfHeader) :
    AllocInvariant (fun a => hs <+: a.staticHeaders) (fun _ _ => True) := by
  refine ⟨?_, trivial, ?_, ?_, ?_⟩
  · intro a size h
    refine ⟨?_, fun _ => trivial⟩
    rw [(sameRegions_allocPhys a size).headers]
    exact h
  · intro a size type h
    rw [avmfAllocVirt_headers]
    exact h
  · intro a virt phys size flags h _
    unfold avmfAllocRegion
    by_cases hfull : avmfStaticSize ≤ a.headerIndex
    · rw [if_pos hfull]
      exact h
    · rw [if_neg hfull]
      exact h.trans (List.prefix_append _ _)
  · intro a virt h
    unfold avmfFreePhys
    rcases avmfFind_cases a virt with ⟨j, hfind, -, -⟩ | ⟨hfind, -⟩
    · rw [hfind]
      exact h
    · rw [hfind]
      exact h

/-- A successful `avmf_alloc` records its block next. -/
theorem avmfAlloc_records {m : Machine} {size flags : Nat} {type : MemoryAllocType}
    (hres : (avmfAlloc m size type flags).virt ≠ 0) :
    ∃ h post, (avmfAlloc m size type flags).m.avmf.staticHeaders
        = m.avmf.staticHeaders ++ h :: post ∧
      h.virtAddr = ((avmfAlloc m size type flags).block size).virt ∧
      h.physAddr = ((avmfAlloc m size type flags).block size).phys ∧
      h.size = ((avmfAlloc m size type flags).block size).size := by
  generalize hv : avmfAllocVirt m.avmf size type = v
  generalize hp : avmfAllocPhysContiguous v.2 (align4k size) = p
  generalize hr : avmfAllocRegion p.2 v.1 p.1 (align4k size) flags = r
  have hheaders : p.2.staticHeaders = m.avmf.staticHeaders := by
    rw [← hp, (sameRegions_allocPhys _ _).headers, ← hv, avmfAllocVirt_headers]
  rcases avmfAlloc_cases hv hp hr with ⟨-, h⟩ | ⟨-, -, h⟩ | ⟨-, -, -, h⟩ | ⟨-, -, hr0, h⟩
  · rw [h] at hres
    exact absurd rfl hres
  · rw [h] at hres
    exact absurd rfl hres
  · rw [h] at hres
    exact absurd rfl hres
  · rw [h]
    unfold avmfAllocRegion at hr
    by_cases hfull : avmfStaticSize ≤ p.2.headerIndex
    · rw [if_pos hfull] at hr
      rw [← hr] at hr0
      exact absurd rfl hr0
    · rw [if_neg hfull] at hr
      have hkeep := @AllocInvariant.map _ _ (headers_invariant r.2.staticHeaders)
        { m with avmf := r.2 } (List.prefix_refl _) v.1 p.1 (align4k size) flags
      obtain ⟨post, hpost⟩ := hkeep
      rw [← hr] at hpost ⊢
      dsimp only at hpost ⊢
      rw [← hpost, hheaders, List.append_assoc]
      exact ⟨_, _, rfl, rfl, rfl, align4k_align4k size⟩

theorem Foremost.mono {a a' : Avmf} {b : Block} (h : Foremost a b)
    (hheaders : a.staticHeaders <+: a'.staticHeaders) : Foremost a' b := by
  obtain ⟨pre, hd, post, hlist, hdata⟩ := h
  obtain ⟨rest, hrest⟩ := hheaders
  refine ⟨pre, hd, post ++ rest, ?_, hdata⟩
  rw [← hrest, hlist, List.append_assoc, List.cons_append]

theorem RoundTripOk.roundTrips {s : Sys} (h : RoundTripOk s) : RoundTrips s := by
  intro b hb virt hlo hhi
  obtain ⟨pre, hd, post, hlist, hvirt, hphys, hsize, hpre⟩ := h.foremost b hb
  rw [← hvirt] at hlo hhi
  rw [← hsize] at hhi
  refine (roundTrip_iff h.owned.regions h.phys hlist hlo hhi).mpr ?_
  intro h' hh'
  refine hpre h' hh' _ ?_
  have haligned := h.owned.pages.aligned b hb
  unfold Block.Page
  omega

section Step

variable {s : Sys} {op : MemOp}

/-- An operation whose allocation takes new pages. -/
theorem RoundTripOk.step (h : RoundTripOk s) (hvalid : s.Valid op)
    (hw : (s.step op).m.avmf.wrapped = false) (hnew : TakesNew s op) :
    RoundTripOk (s.step op) := by
  have hkeep : s.m.avmf.staticHeaders <+: (s.step op).m.avmf.staticHeaders := by
    rw [sys_step_m]
    exact (headers_invariant s.m.avmf.staticHeaders).step (List.prefix_refl _) _
  refine ⟨owned_step (fun _ => h.owned) hvalid hw, ?_, ?_⟩
  · rw [sys_step_m]
    exact physOk_invariant.step h.phys _
  · intro b hb
    cases op with
    | free virt => exact (h.foremost b (List.mem_filter.mp hb).1).mono hkeep
    | alloc size type flags =>
        have hlive : b ∈ (avmfAlloc s.m size type flags).live size s.live := hb
        unfold AllocResult.live at hlive
        by_cases h0 : (avmfAlloc s.m size type flags).virt = 0
        · rw [if_pos h0] at hlive
          exact (h.foremost b hlive).mono hkeep
        · rw [if_neg h0] at hlive
          rcases List.mem_cons.mp hlive with rfl | hold
          · obtain ⟨hd, post, hlist, hvirt, hphys, hsize⟩ := avmfAlloc_records h0
            exact ⟨_, hd, post, hlist, hvirt, hphys, hsize, fun h' hh' q hq => hnew h0 h' hh' q hq⟩
          · exact (h.foremost b hold).mono hkeep

/-- An allocation that takes a page of a recorded region makes an address that
    does not come back. -/
theorem RoundTripOk.breaks (h : RoundTripOk s) (hvalid : s.Valid op)
    (hw : (s.step op).m.avmf.wrapped = false) (hnext : RoundTrips (s.step op)) :
    TakesNew s op := by
  have howned : Owned (s.step op).m.avmf (s.step op).m.tableLog (s.step op).live :=
    owned_step (fun _ => h.owned) hvalid hw
  have hphys : PhysOk (s.step op).m.avmf := by
    rw [sys_step_m]
    exact physOk_invariant.step h.phys _
  cases op with
  | free virt => trivial
  | alloc size type flags =>
      intro h0 h' hh' q hq hin
      have hown : Owned (avmfAlloc s.m size type flags).m.avmf
          (avmfAlloc s.m size type flags).m.tableLog
          ((avmfAlloc s.m size type flags).live size s.live) := howned
      obtain ⟨hd, post, hlist, hvirt, hpaddr, hsize⟩ := avmfAlloc_records h0
      have hmem : (avmfAlloc s.m size type flags).block size
          ∈ (avmfAlloc s.m size type flags).live size s.live := by
        unfold AllocResult.live
        rw [if_neg h0]
        exact List.mem_cons_self
      have haligned := hown.pages.aligned _ hmem
      have hback := hnext _ hmem
      generalize (avmfAlloc s.m size type flags).block size = b
        at hq hvirt hpaddr hsize haligned hback
      unfold Block.Page at hq
      -- the first address of page `q` in the block
      have hlo : b.virt ≤ b.virt + (q * 4096 - b.phys) := Nat.le_add_right _ _
      have hhi : b.virt + (q * 4096 - b.phys) < b.virt + b.size := by omega
      have hno := (roundTrip_iff hown.regions hphys hlist (by rw [hvirt]; exact hlo)
        (by rw [hvirt, hsize]; exact hhi)).mp (hback _ hlo hhi) h' hh'
      rw [hpaddr, hvirt,
        show (b.phys + (b.virt + (q * 4096 - b.phys) - b.virt)) / 4096 = q by omega] at hno
      exact hno hin

end Step

/-- In a run in which no virtual address wraps, every address of every live
    block comes back at each moment exactly when no allocation takes a page of
    a recorded region. -/
theorem roundTrips_iff {basePhys limitPhys : Nat → Nat} {entries : Nat} {m : Machine}
    (hm : Started basePhys limitPhys entries m) (hlimit : ∀ i, limitPhys i < 2 ^ 64)
    {ops : List MemOp} (hvalid : Along Sys.step Sys.Valid { m := m } ops)
    (hw : (exec Sys.step { m := m } ops).m.avmf.wrapped = false) :
    Throughout Sys.step RoundTrips { m := m } ops ↔ Along Sys.step TakesNew { m := m } ops := by
  obtain ⟨hw0, hwall⟩ :=
    along_of_final (P := fun s : Sys => s.m.avmf.wrapped = false) wrapped_back hw
  have hphys : PhysOk m.avmf := by
    refine physOk_invariant.started hm ⟨?_, fun hd hmem => absurd hmem List.not_mem_nil⟩
    have hword : ∀ i k, (if i < k then limitPhys i else 0) < 2 ^ 64 := by
      intro i k
      split
      · exact hlimit i
      · exact Nat.two_pow_pos 64
    exact fun i => hword i _
  have hstart : RoundTripOk { m := m } :=
    ⟨hm.avmf_wrapped_owned hw0, hphys, fun b hb => absurd hb List.not_mem_nil⟩
  exact throughout_iff (fun s h => h.roundTrips)
    (fun s op h hpre hnew => h.step hpre.1 hpre.2 hnew)
    (fun s op h hpre hnext => h.breaks hpre.1 hpre.2 hnext) hstart (hvalid.and hwall)

/-- A block that is allocated and freed. -/
theorem roundTrips_first :
    Throughout Sys.step RoundTrips { m := smallRam } [.alloc 8192 .user 3, .free 0x1000] := by
  refine (roundTrips_iff smallRam_started (fun i => ?_) (by decide +kernel)
    (by decide +kernel)).mpr ⟨?_, trivial, trivial⟩
  · exact (by decide : 0x40000 < 2 ^ 64)
  · exact fun _ h hmem => absurd hmem List.not_mem_nil

/-- The second block takes the page of the first, whose region comes first on
    the list. -/
theorem freed_address_returned :
    let s := exec Sys.step { m := fourPages }
      [.alloc 4096 .user 3, .free 0x1000, .alloc 4096 .user 3]
    s.m.avmf.wrapped = false ∧ s.live = [⟨0x2000, 0x10000, 0x1000⟩] ∧
      (avmfVirtToPhys s.m.avmf 0x2000).1 = 0x10000 ∧
      avmfPhysToVirt (avmfVirtToPhys s.m.avmf 0x2000).2 0x10000 = 0x1000 ∧ ¬ RoundTrips s := by
  intro s
  have hlive : s.live = [⟨0x2000, 0x10000, 0x1000⟩] := by decide +kernel
  have hphys : (avmfVirtToPhys s.m.avmf 0x2000).1 = 0x10000 := by decide +kernel
  have hvirt : avmfPhysToVirt (avmfVirtToPhys s.m.avmf 0x2000).2 0x10000 = 0x1000 := by
    decide +kernel
  refine ⟨by decide +kernel, hlive, hphys, hvirt, fun h => ?_⟩
  have hback := h ⟨0x2000, 0x10000, 0x1000⟩ (by rw [hlive]; exact List.mem_cons_self) 0x2000
    (Nat.le_refl _) (by decide)
  rw [hphys, hvirt] at hback
  cases hback

end Pfi
