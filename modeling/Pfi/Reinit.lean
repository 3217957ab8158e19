import Pfi.BitmapBounds

/-! # `avmf_init` on a used module

    `avmf_init` stores the new ranges, empties the list and clears the first
    200 words of the bitmap.  It leaves the bits of the pages from 12800 on,
    the old ranges behind the new ones, and the cached header of `avmf_find`,
    which still points to a header of the old list.  The allocator is fresh
    exactly when none of these is in the way (`reinit_fresh_iff`).

    Which pages can be allocated is a matter of whole runs: a page that no
    region releases stays as it is, and the regions that a run records hold
    only pages that it took (`FreshInv`). -/

namespace Pfi

open Words FirstFit Run

/-- A page that lies whole in `base .. limit - 1`. -/
def PageIn (base limit p : Nat) : Prop := base ≤ 4096 * p ∧ 4096 * (p + 1) ≤ limit

/-- A page of one of the given ranges. -/
def Given (basePhys limitPhys : Nat → Nat) (n p : Nat) : Prop :=
  ∃ i, i < n ∧ PageIn (basePhys i) (limitPhys i) p

/-- A page of one of the ranges that the module holds. -/
def Avmf.Configured (a : Avmf) (p : Nat) : Prop := ∃ i, i < 128 ∧ a.InRange i p 1

/-- A page that the search may take. -/
def Avmf.Allocatable (a : Avmf) (p : Nat) : Prop :=
  bitmapTest a.avmfBitmap p = 0 ∧ a.Configured p

/-- The given pages are free, no run allocates any other, and no address is
    found. -/
structure FreshAfter (m : Machine) (basePhys limitPhys : Nat → Nat) (n : Nat) : Prop where
  free : ∀ p, Given basePhys limitPhys n p → bitmapTest m.avmf.avmfBitmap p = 0
  only : ∀ ops p, (exec avmfStep m ops).avmf.Allocatable p → Given basePhys limitPhys n p
  forgotten : ∀ virt, (avmfFind m.avmf virt).1 = none

/-- What `avmf_init` does not reset is as it should be: the bits of the given
    pages from 12800 on, the old ranges that it does not overwrite, and the
    cached header. -/
structure Resettable (a : Avmf) (basePhys limitPhys : Nat → Nat) (n : Nat) : Prop where
  bits : ∀ p, Given basePhys limitPhys n p → 12800 ≤ p → bitmapTest a.avmfBitmap p = 0
  ranges : ∀ i, n ≤ i → i < 128 → ∀ p, a.InRange i p 1 →
    p < 12800 ∨ bitmapTest a.avmfBitmap p = 0 → Given basePhys limitPhys n p
  cache : ∀ j, a.lastFound = some j → ∀ virt, (a.header j).contains virt = false

/-! ## The state that `avmf_init` leaves -/

section Init

variable {a : Avmf} {basePhys limitPhys : Nat → Nat} {n : Nat}

theorem avmfInit_bit (p : Nat) :
    bitmapTest (avmfInit a basePhys limitPhys n).avmfBitmap p
      = if p < 12800 then 0 else bitmapTest a.avmfBitmap p := by
  rw [bitmapTest_eq, bitmapTest_eq]
  show ((if p / 64 < 200 then 0 else a.avmfBitmap (p / 64)).testBit (p % 64)).toNat = _
  by_cases hp : p < 12800
  · rw [if_pos (show p / 64 < 200 by omega), if_pos hp, Nat.zero_testBit]
    rfl
  · rw [if_neg (show ¬ p / 64 < 200 by omega), if_neg hp]

/-- Only the cached header is found. -/
theorem avmfInit_find (virt : Nat) :
    (avmfFind (avmfInit a basePhys limitPhys n) virt).1 = none ↔
      ∀ j, a.lastFound = some j → (a.header j).contains virt = false := by
  have hkept : (avmfInit a basePhys limitPhys n).lastFound = a.lastFound := rfl
  have hheader : ∀ i, (avmfInit a basePhys limitPhys n).header i = a.header i := fun _ => rfl
  unfold avmfFind
  rw [hkept]
  cases hlast : a.lastFound with
  | none => exact iff_of_true rfl (fun j hj => by cases hj)
  | some i =>
      dsimp only
      rw [hheader]
      by_cases hc : (a.header i).contains virt = true
      · rw [if_pos hc]
        refine iff_of_false (fun h => by cases h) (fun h => ?_)
        rw [h i rfl] at hc
        cases hc
      · rw [if_neg hc]
        refine iff_of_true rfl (fun j hj => ?_)
        rw [← Option.some.inj hj]
        exact Bool.not_eq_true _ ▸ hc

variable (hn : n ≤ 128) (hlimit : ∀ i, i < n → limitPhys i ≤ bitmapSize * pageSize)

include hn hlimit

/-- A new range of the module holds the pages of the given range. -/
theorem avmfInit_new {i p : Nat} (hi : i < n) :
    (avmfInit a basePhys limitPhys n).InRange i p 1 ↔ PageIn (basePhys i) (limitPhys i) p := by
  obtain ⟨hbase, hlim⟩ := @avmfInit_range basePhys limitPhys n i a (by omega) (by omega)
  have hword := hlimit i hi
  simp only [bitmapSize, pageSize] at hword
  constructor
  · rintro ⟨hnonempty, hlower, hupper⟩
    rw [hbase, hlim] at hnonempty
    rw [startPage_eq hbase, align4k_of_lt (by omega)] at hlower
    rw [endPage_eq hlim] at hupper
    exact ⟨by omega, by omega⟩
  · rintro ⟨hlower, hupper⟩
    refine ⟨?_, ?_, ?_⟩
    · rw [hbase, hlim]
      omega
    · rw [startPage_eq hbase, align4k_of_lt (by omega)]
      omega
    · rw [endPage_eq hlim]
      omega

omit hlimit in
/-- An old range stays as it was. -/
theorem avmfInit_old {i p : Nat} (hi : n ≤ i) :
    (avmfInit a basePhys limitPhys n).InRange i p 1 ↔ a.InRange i p 1 := by
  obtain ⟨hbase, hlim⟩ := @avmfInit_rest basePhys limitPhys n i a (by omega)
  constructor
  · rintro ⟨hnonempty, hlower, hupper⟩
    rw [hbase, hlim] at hnonempty
    rw [startPage_eq hbase] at hlower
    rw [endPage_eq hlim] at hupper
    exact ⟨hnonempty, by rw [startPage_eq rfl]; exact hlower, by rw [endPage_eq rfl]; exact hupper⟩
  · rintro ⟨hnonempty, hlower, hupper⟩
    rw [startPage_eq rfl] at hlower
    rw [endPage_eq rfl] at hupper
    refine ⟨?_, ?_, ?_⟩
    · rw [hbase, hlim]
      exact hnonempty
    · rw [startPage_eq hbase]
      exact hlower
    · rw [endPage_eq hlim]
      exact hupper

end Init

/-! ## What runs allocate -/

/-- The configured pages are those with `C`; the allocatable ones have `G`, and
    so do the configured pages of every region that a lookup can find. -/
structure FreshInv (C G : Nat → Prop) (a : Avmf) : Prop where
  ranges : ∀ p, a.Configured p ↔ C p
  allocatable : ∀ p, a.Allocatable p → G p
  regions : ∀ j, a.Listed j ∨ a.lastFound = some j → ∀ virt, (a.header j).contains virt = true →
    ∀ p, (a.header j).Page p → C p → G p

section Fresh

variable {C G : Nat → Prop} {a a' : Avmf}

theorem Avmf.configured_of_eq (hbase : a'.avmfBase = a.avmfBase)
    (hlimit : a'.avmfLimit = a.avmfLimit) (p : Nat) : a'.Configured p ↔ a.Configured p := by
  have hrange : ∀ i, a'.InRange i p 1 ↔ a.InRange i p 1 := by
    intro i
    constructor
    · rintro ⟨h1, h2, h3⟩
      unfold Avmf.startPage at h2
      unfold Avmf.endPage at h3
      rw [hbase, hlimit] at h1
      rw [hbase] at h2
      rw [hlimit] at h3
      exact ⟨h1, h2, h3⟩
    · rintro ⟨h1, h2, h3⟩
      refine ⟨?_, ?_, ?_⟩
      · rw [hbase, hlimit]
        exact h1
      · unfold Avmf.startPage
        rw [hbase]
        exact h2
      · unfold Avmf.endPage
        rw [hlimit]
        exact h3
  exact exists_congr (fun i => and_congr_right (fun _ => hrange i))

/-- What is not released stays, if the regions stay. -/
theorem FreshInv.of_same (h : FreshInv C G a) (hbase : a'.avmfBase = a.avmfBase)
    (hlimit : a'.avmfLimit = a.avmfLimit) (hheaders : a'.staticHeaders = a.staticHeaders)
    (hhead : a'.avmfHead = a.avmfHead) (hlast : a'.lastFound = a.lastFound)
    (hbits : ∀ p, bitmapTest a'.avmfBitmap p = 0 → a.Configured p →
      bitmapTest a.avmfBitmap p = 0 ∨ G p) : FreshInv C G a' := by
  have hheader : ∀ j, a'.header j = a.header j := by
    intro j
    unfold Avmf.header
    rw [hheaders]
  have hconf := fun p => Avmf.configured_of_eq hbase hlimit p
  refine ⟨fun p => (hconf p).trans (h.ranges p), ?_, ?_⟩
  · rintro p ⟨hbit, hc⟩
    rcases hbits p hbit ((hconf p).mp hc) with hfree | hg
    · exact h.allocatable p ⟨hfree, (hconf p).mp hc⟩
    · exact hg
  · intro j hj
    rw [hheader]
    refine h.regions j ?_
    unfold Avmf.Listed Avmf.headerIndex at hj ⊢
    rw [hheaders, hhead, hlast] at hj
    exact hj

theorem FreshInv.allocPhys (h : FreshInv C G a) (size : Nat) :
    FreshInv C G (avmfAllocPhysContiguous a size).2 ∧
      ((avmfAllocPhysContiguous a size).1 ≠ 0 →
        ∀ p, (avmfAllocPhysContiguous a size).1 / 4096 ≤ p →
          p < (avmfAllocPhysContiguous a size).1 / 4096 + align4k size / 4096 → C p → G p) := by
  rcases avmfAllocPhysContiguous_cases a size with hres | ⟨i, s, n, hn, hpos, hi, hin, hfree, hres⟩
  · rw [hres]
    exact ⟨h, fun h0 => absurd rfl h0⟩
  · rw [hres]
    refine ⟨h.of_same rfl rfl rfl rfl rfl (fun p hp _ => Or.inl ?_), fun _ p hlo hhi hc => ?_⟩
    · -- the run is marked, and no bit is cleared
      dsimp only at hp
      rw [bitmapTest_setRun] at hp
      by_cases hin' : s ≤ p ∧ p < s + n
      · rw [if_pos hin'] at hp
        cases hp
      · rw [if_neg hin'] at hp
        exact hp
    · rw [Nat.mul_div_cancel s (by decide)] at hlo hhi
      have hbit := hfree (p - s) (by omega)
      rw [show s + (p - s) = p by omega] at hbit
      exact h.allocatable p ⟨hbit, (h.ranges p).mpr hc⟩

theorem FreshInv.allocVirt (h : FreshInv C G a) (size : Nat) (type : MemoryAllocType) :
    FreshInv C G (avmfAllocVirt a size type).2 := by
  unfold avmfAllocVirt
  dsimp only
  split
  · exact h
  · split
    · exact h.of_same rfl rfl rfl rfl rfl (fun p hp _ => Or.inl hp)
    · exact h.of_same rfl rfl rfl rfl rfl (fun p hp _ => Or.inl hp)

theorem FreshInv.allocRegion (h : FreshInv C G a) (virt flags : Nat) {phys size : Nat}
    (hpages : ∀ p, phys / 4096 ≤ p → p < phys / 4096 + align4k size / 4096 → C p → G p) :
    FreshInv C G (avmfAllocRegion a virt phys size flags).2 := by
  unfold avmfAllocRegion
  by_cases hfull : avmfStaticSize ≤ a.headerIndex
  · rw [if_pos hfull]
    exact h
  · rw [if_neg hfull]
    have hconf := fun p => @Avmf.configured_of_eq a (avmfAllocRegion a virt phys size flags).2
      (avmfAllocRegion_bitmap a virt phys size flags).2.2
      (avmfAllocRegion_bitmap a virt phys size flags).2.1 p
    unfold avmfAllocRegion at hconf
    rw [if_neg hfull] at hconf
    refine ⟨fun p => (hconf p).trans (h.ranges p),
      fun p hp => h.allocatable p ⟨hp.1, (hconf p).mp hp.2⟩, ?_⟩
    intro j hj v hv p hp hc
    unfold Avmf.header at hv hp
    dsimp only at hv hp
    rcases Nat.lt_trichotomy j a.staticHeaders.length with hlt | rfl | hgt
    · -- an old header
      rw [List.getD_append _ _ _ _ hlt] at hv hp
      refine h.regions j ?_ v hv p hp hc
      rcases hj with ⟨k, hk, hkj, -⟩ | hlast
      · left
        cases hhead : a.avmfHead with
        | none =>
            dsimp only at hk
            rw [hhead] at hk
            have hk' : a.headerIndex = k := Option.some.inj hk
            unfold Avmf.headerIndex at hk'
            omega
        | some k' =>
            dsimp only at hk
            rw [hhead] at hk
            have hk' : k' = k := Option.some.inj hk
            exact ⟨k', hhead, by omega, hlt⟩
      · exact Or.inr hlast
    · -- the new one
      rw [List.getD_append_right _ _ _ _ (Nat.le_refl _), Nat.sub_self] at hp
      exact hpages p hp.1 hp.2 hc
    · -- no header
      rw [List.getD_eq_default _ _ (by
        rw [List.length_append, List.length_singleton]
        exact hgt)] at hv
      cases hv

theorem FreshInv.freePhys (h : FreshInv C G a) (virt : Nat) :
    FreshInv C G (avmfFreePhys a virt) := by
  unfold avmfFreePhys
  rcases avmfFind_cases a virt with ⟨j, hfind, hc, hwhere⟩ | ⟨hfind, -⟩
  · have hregion := h.regions j hwhere.symm virt hc
    have hfound : FreshInv C G { a with lastFound := some j } := by
      have hconf := fun p => @Avmf.configured_of_eq a { a with lastFound := some j } rfl rfl p
      refine ⟨fun p => (hconf p).trans (h.ranges p),
        fun p hp => h.allocatable p ⟨hp.1, (hconf p).mp hp.2⟩, ?_⟩
      intro i hi
      rcases hi with hlisted | hlast
      · exact h.regions i (Or.inl hlisted)
      · have hij : j = i := Option.some.inj hlast
        rw [← hij]
        exact h.regions j hwhere.symm
    rw [hfind]
    dsimp only
    refine hfound.of_same rfl rfl rfl rfl rfl (fun p hp hconf => ?_)
    dsimp only at hp
    rw [bitmapTest_clearRun] at hp
    by_cases hin : (a.header j).physAddr / pageSize ≤ p ∧
        p < (a.header j).physAddr / pageSize + (a.header j).size / pageSize
    · exact Or.inr (hregion p hin ((hfound.ranges p).mp hconf))
    · refine Or.inl ?_
      have hheader : Avmf.header { a with lastFound := some j } j = a.header j := rfl
      rw [hheader, if_neg hin] at hp
      exact hp
  · rw [hfind]
    exact h

/-- No run makes a page allocatable. -/
theorem freshInv_invariant (hzero : C 0 → G 0) :
    AllocInvariant (FreshInv C G) (fun phys size =>
      ∀ p, phys / 4096 ≤ p → p < phys / 4096 + size / 4096 → C p → G p) := by
  refine ⟨fun _ size h => h.allocPhys size, ?_, fun _ size type h => h.allocVirt size type,
    fun _ virt _ _ flags h hpages => h.allocRegion virt flags hpages,
    fun _ virt h => h.freePhys virt⟩
  intro p _ hp
  rw [show p = 0 by omega]
  exact hzero

end Fresh

/-- `avmf_init` gives a fresh allocator exactly when what it does not reset is
    as it should be. -/
theorem reinit_fresh_iff (m : Machine) {basePhys limitPhys : Nat → Nat} {n : Nat}
    (hn : n ≤ 128) (hlimit : ∀ i, i < n → limitPhys i ≤ bitmapSize * pageSize) :
    FreshAfter { m with avmf := avmfInit m.avmf basePhys limitPhys n } basePhys limitPhys n ↔
      Resettable m.avmf basePhys limitPhys n := by
  constructor
  · intro h
    refine ⟨?_, ?_, ?_⟩
    · -- the bits that `avmf_init` leaves
      intro p hp hlarge
      have hbit := h.free p hp
      rw [avmfInit_bit, if_neg (Nat.not_lt_of_le hlarge)] at hbit
      exact hbit
    · -- the ranges that it leaves
      intro i hi hi128 p hin hfree
      refine h.only [] p ⟨?_, i, hi128, (avmfInit_old hn hi).mpr hin⟩
      show bitmapTest (avmfInit m.avmf basePhys limitPhys n).avmfBitmap p = 0
      rw [avmfInit_bit]
      by_cases hp : p < 12800
      · rw [if_pos hp]
      · rw [if_neg hp]
        exact hfree.resolve_left hp
    · -- the cache
      intro j hj virt
      exact (avmfInit_find virt).mp (h.forgotten virt) j hj
  · intro h
    refine ⟨?_, ?_, fun virt => (avmfInit_find virt).mpr (fun j hj => h.cache j hj virt)⟩
    · intro p hp
      show bitmapTest (avmfInit m.avmf basePhys limitPhys n).avmfBitmap p = 0
      rw [avmfInit_bit]
      by_cases hlarge : p < 12800
      · rw [if_pos hlarge]
      · rw [if_neg hlarge]
        exact h.bits p hp (Nat.le_of_not_lt hlarge)
    · -- a configured page that is free after `avmf_init` is one of the given pages
      have hgiven : ∀ p, (avmfInit m.avmf basePhys limitPhys n).Allocatable p →
          Given basePhys limitPhys n p := by
        rintro p ⟨hbit, i, hi128, hin⟩
        by_cases hi : i < n
        · exact ⟨i, hi, (avmfInit_new hn hlimit hi).mp hin⟩
        · have hle := Nat.le_of_not_lt hi
          refine h.ranges i hle hi128 p ((avmfInit_old hn hle).mp hin) ?_
          rw [avmfInit_bit] at hbit
          by_cases hp : p < 12800
          · exact Or.inl hp
          · rw [if_neg hp] at hbit
            exact Or.inr hbit
      have hinv : FreshInv (avmfInit m.avmf basePhys limitPhys n).Configured
          (Given basePhys limitPhys n) (avmfInit m.avmf basePhys limitPhys n) := by
        refine ⟨fun p => Iff.rfl, hgiven, ?_⟩
        rintro j (⟨k, hk, -⟩ | hlast) virt hc
        · cases hk
        · have hnone := h.cache j hlast virt
          rw [show (m.avmf.header j).contains virt = true from hc] at hnone
          cases hnone
      have hzero : (avmfInit m.avmf basePhys limitPhys n).Configured 0 →
          Given basePhys limitPhys n 0 := by
        intro hc
        refine hgiven 0 ⟨?_, hc⟩
        rw [avmfInit_bit]
        rfl
      intro ops p hp
      exact ((freshInv_invariant hzero).run hinv ops).allocatable p hp

/-- The first call, on the module as the loader leaves it. -/
theorem reinit_fresh_boot :
    FreshAfter { avmf := avmfInit Avmf.boot (fun _ => 0x100000) (fun _ => 0x10000000) 1 }
      (fun _ => 0x100000) (fun _ => 0x10000000) 1 := by
  refine (reinit_fresh_iff { avmf := Avmf.boot } (by decide) (fun i _ => ?_)).mpr ⟨?_, ?_, ?_⟩
  · exact (by decide : 0x10000000 ≤ bitmapSize * pageSize)
  · intro p _ _
    rw [bitmapTest_eq]
    show (Nat.testBit 0 (p % 64)).toNat = 0
    rw [Nat.zero_testBit]
    rfl
  · rintro i - - p ⟨hnonempty, -, -⟩
    exact absurd hnonempty (Nat.lt_irrefl 0)
  · intro j hj
    cases hj

/-- The module is used with RAM in pages 12800 to 12815 and initialised again
    with the same range: the page of the old block stays marked, and its
    address is still found. -/
theorem reinit_not_fresh :
    let m := exec avmfStep
      { avmf := avmfInit Avmf.boot (fun _ => 0x3200000) (fun _ => 0x3210000) 1
        firmwarePml4 := 0x5000, mappedPml4 := 0x5000, cpuPhysBits := 36 }
      [.alloc 4096 .user 3, .freePhys 0x1000, .allocPhys 0x1000]
    let m' := { m with avmf := avmfInit m.avmf (fun _ => 0x3200000) (fun _ => 0x3210000) 1 }
    ¬ FreshAfter m' (fun _ => 0x3200000) (fun _ => 0x3210000) 1 ∧
      bitmapTest m'.avmf.avmfBitmap 12801 = 1 ∧ (avmfFind m'.avmf 0x1000).1 = some 0 := by
  intro m m'
  have hfind : (avmfFind m'.avmf 0x1000).1 = some 0 := by decide +kernel
  refine ⟨fun h => ?_, by decide +kernel, hfind⟩
  have hnone := h.forgotten 0x1000
  rw [hfind] at hnone
  cases hnone

end Pfi
