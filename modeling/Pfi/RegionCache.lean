import Pfi.AvmfRuns
import Pfi.FirstMatch

/-! # The cache of `avmf_find`

    `avmf_find` tries the region that it found last before it scans the list.
    Nothing takes that region back when the list changes, so the answer is that
    of a scan only as long as the remembered region is on the list and overlaps
    no region before it, or contains no address (`transparent_iff`).

    Regions are appended behind it, which does no harm.  `avmf_init` takes the
    whole list away from under it; a lookup can make it remember a region that
    overlaps an earlier one; and `avmf_map_identity_virt` can move a region
    before it onto its addresses, or itself onto those of a region before it.
    A run keeps the cache transparent exactly when none of its steps does
    (`cache_transparent_iff`). -/

namespace Pfi

open Words Run FirstMatch

/-! ## Remapping regions -/

/-- `region->… = …`. -/
def Avmf.setHeader (a : Avmf) (i : Nat) (h : AvmfHeader) : Avmf :=
  { a with staticHeaders := a.staticHeaders.set i h }

/-- `avmf_map`: `1` if the address has a region. -/
def avmfMap (a : Avmf) (virt phys flags : Nat) : Nat × Avmf :=
  match avmfFind a virt with
  | (none, a) => (0, a)
  | (some j, a) =>
      (1, a.setHeader j
        { a.header j with physAddr := phys, flags := (a.header j).flags ||| flags % 2 ^ 32 })

/-- The scan of `avmf_map_identity_virt`. -/
def Avmf.scanPhys (a : Avmf) (phys : Nat) : Option Nat :=
  match a.avmfHead with
  | none => none
  | some k => ((a.staticHeaders.drop k).findIdx? (·.holds phys)).map (k + ·)

/-- `avmf_map_identity_virt`: `1` if some region holds the physical address. -/
def avmfMapIdentityVirt (a : Avmf) (virt phys flags : Nat) : Nat × Avmf :=
  match a.scanPhys phys with
  | none => (0, a)
  | some j =>
      (1, a.setHeader j
        { a.header j with virtAddr := virt, flags := (a.header j).flags ||| flags % 2 ^ 32 })

/-! ## Runs -/

/-- The operations on regions. -/
inductive RegionOp where
  | init (basePhys limitPhys : Nat → Nat) (entries : Nat)
  | allocRegion (virt phys size flags : Nat)
  | alloc (size : Nat) (type : MemoryAllocType) (flags : Nat)
  | free (virt : Nat)
  | map (virt phys flags : Nat)
  | mapIdentityVirt (virt phys flags : Nat)
  | find (virt : Nat)

/-- The call changes the allocator's part of the machine. -/
def regionStep (m : Machine) : RegionOp → Machine
  | .init basePhys limitPhys entries =>
      { m with avmf := avmfInit m.avmf basePhys limitPhys entries }
  | .allocRegion virt phys size flags =>
      { m with avmf := (avmfAllocRegion m.avmf virt phys size flags).2 }
  | .alloc size type flags => (avmfAlloc m size type flags).m
  | .free virt => avmfFree m virt
  | .map virt phys flags => { m with avmf := (avmfMap m.avmf virt phys flags).2 }
  | .mapIdentityVirt virt phys flags =>
      { m with avmf := (avmfMapIdentityVirt m.avmf virt phys flags).2 }
  | .find virt => { m with avmf := (avmfFind m.avmf virt).2 }

/-- Every lookup gives what a scan of the list gives. -/
def Avmf.Transparent (a : Avmf) : Prop := ∀ virt, (avmfFind a virt).1 = a.scanRegions virt

/-- No address lies in both regions. -/
def AvmfHeader.Disjoint (h h' : AvmfHeader) : Prop :=
  ∀ v, ¬ (h.contains v = true ∧ h'.contains v = true)

/-- The first region of the list that contains the address overlaps no region
    before it. -/
def Avmf.FoundFirst (a : Avmf) (virt : Nat) : Prop :=
  ∀ j, a.scanRegions virt = some j →
    ∀ k, a.Listed k → k < j → (a.header k).Disjoint (a.header j)

/-- What an operation must not do, in the state before it. -/
def KeepsCache (m : Machine) : RegionOp → Prop
  -- the remembered region contains no address
  | .init _ _ _ => ∀ i, m.avmf.lastFound = some i → ∀ v, ¬ (m.avmf.header i).contains v = true
  | .allocRegion _ _ _ _ => True
  | .alloc _ _ _ => True
  | .free virt => m.avmf.FoundFirst virt
  | .map virt _ _ => m.avmf.FoundFirst virt
  -- the region in its new place does not come in the way
  | .mapIdentityVirt virt phys _ =>
      ∀ j, m.avmf.scanPhys phys = some j → ∀ i, m.avmf.lastFound = some i →
        (j < i → AvmfHeader.Disjoint { m.avmf.header j with virtAddr := virt } (m.avmf.header i)) ∧
        (j = i → ∀ k, m.avmf.Listed k → k < j →
          (m.avmf.header k).Disjoint { m.avmf.header j with virtAddr := virt })
  | .find virt => m.avmf.FoundFirst virt

/-! ## The list as a range of entries -/

/-- The index at which the list starts. -/
def Avmf.listStart (a : Avmf) : Nat := a.avmfHead.getD a.headerIndex

/-- An address in a header of the array. -/
def Avmf.Covers (a : Avmf) (i v : Nat) : Prop := (a.header i).contains v = true

section List

variable {a a' : Avmf} {i j v : Nat}

/-- A listed header lies between the start and the index. -/
theorem listed_iff : a.Listed i ↔ a.listStart ≤ i ∧ i < a.headerIndex := by
  unfold Avmf.Listed Avmf.listStart
  cases a.avmfHead with
  | none =>
      constructor
      · rintro ⟨k, hk, -⟩
        cases hk
      · rintro ⟨hlo, hhi⟩
        exact absurd hhi (Nat.not_lt_of_le hlo)
  | some k =>
      constructor
      · rintro ⟨k', hk, hlo, hhi⟩
        cases hk
        exact ⟨hlo, hhi⟩
      · rintro ⟨hlo, hhi⟩
        exact ⟨k, rfl, hlo, hhi⟩

/-- A scan along the list finds the first region that passes the test. -/
theorem scanFrom_listStart {p : Nat → AvmfHeader → Bool} :
    scanFrom a.staticHeaders (p v) a.listStart = some j ↔
      First (fun i v => p v (a.header i) = true) a.listStart a.headerIndex v j :=
  scanFrom_eq_some

/-- The scan for an address is the general one over the headers. -/
theorem scanRegions_eq (a : Avmf) (v : Nat) :
    a.scanRegions v = scanFrom a.staticHeaders (·.contains v) a.listStart := by
  unfold Avmf.scanRegions Avmf.listStart
  cases a.avmfHead with
  | none => exact scanFrom_length.symm
  | some k => rfl

/-- So is the scan for a frame. -/
theorem scanPhys_eq (a : Avmf) (p : Nat) :
    a.scanPhys p = scanFrom a.staticHeaders (·.holds p) a.listStart := by
  unfold Avmf.scanPhys Avmf.listStart
  cases a.avmfHead with
  | none => exact scanFrom_length.symm
  | some k => rfl

/-- The scan finds the first header that covers the address. -/
theorem scanRegions_first :
    a.scanRegions v = some j ↔ First a.Covers a.listStart a.headerIndex v j := by
  rw [scanRegions_eq]
  exact @scanFrom_listStart a j v (fun v h => h.contains v)

/-- The scan finds the first header that holds the frame. -/
theorem scanPhys_first {p : Nat} :
    a.scanPhys p = some j ↔
      First (fun i p => (a.header i).holds p = true) a.listStart a.headerIndex p j := by
  rw [scanPhys_eq]
  exact @scanFrom_listStart a j p (fun p h => h.holds p)

/-- `avmf_find` is the cached lookup over the headers. -/
theorem avmfFind_lookup (a : Avmf) (v : Nat) :
    (avmfFind a v).1
      = lookup (fun i v => (a.header i).contains v) a.scanRegions a.lastFound v := by
  unfold avmfFind lookup
  cases a.lastFound with
  | none =>
      dsimp only
      cases a.scanRegions v with
      | none => rfl
      | some j => rfl
  | some i =>
      dsimp only
      by_cases hc : (a.header i).contains v = true
      · rw [if_pos hc, if_pos hc]
      · rw [if_neg hc, if_neg hc]
        cases a.scanRegions v with
        | none => rfl
        | some j => rfl

/-- What is remembered is on the list and overlaps no region before it, or
    contains nothing. -/
def Avmf.CacheRight (a : Avmf) : Prop :=
  ∀ i, a.lastFound = some i →
    (∀ v, ¬ (a.header i).contains v = true) ∨
      (a.Listed i ∧ ∀ k, a.Listed k → k < i → (a.header k).Disjoint (a.header i))

/-- Two regions are disjoint if and only if no address is covered by both. -/
theorem disjoint_iff : (a.header i).Disjoint (a.header j) ↔ ¬ Overlap a.Covers i j := by
  unfold AvmfHeader.Disjoint Overlap Avmf.Covers
  exact not_exists.symm

/-- The cache changes no answer if and only if what it holds is the first match
    everywhere. -/
theorem transparent_iff : a.Transparent ↔ a.CacheRight := by
  unfold Avmf.Transparent Avmf.CacheRight
  simp only [avmfFind_lookup]
  rw [lookup_eq_scan_iff]
  refine forall_congr' fun i => forall_congr' fun _ => ?_
  have hright := @right_iff Nat a.Covers a.listStart a.headerIndex i
  simp only [scanRegions_first]
  rw [show (∀ v, (a.header i).contains v = true → First a.Covers a.listStart a.headerIndex v i) ↔ _
    from hright]
  refine or_congr Iff.rfl ?_
  rw [listed_iff, and_assoc]
  refine and_congr_right fun _ => and_congr_right fun hhi => forall_congr' fun k => ?_
  rw [listed_iff, disjoint_iff]
  constructor
  · intro h hk hlt
    exact h hk.1 hlt
  · intro h hk hlt
    exact h ⟨hk, Nat.lt_trans hlt hhi⟩ hlt

end List

/-! ## What the operations do to the list -/

/-- Regions were appended, and nothing else that a lookup looks at changed. -/
structure Avmf.Grows (a a' : Avmf) : Prop where
  headers : a.staticHeaders <+: a'.staticHeaders
  start : a'.listStart = a.listStart
  last : a'.lastFound = a.lastFound

/-- A change that leaves the regions grows nothing. -/
theorem Avmf.Grows.of_same {a a' : Avmf} (hs : SameRegions a a') : a.Grows a' := by
  refine ⟨hs.headers ▸ List.prefix_refl _, ?_, hs.last⟩
  · unfold Avmf.listStart Avmf.headerIndex
    rw [hs.head, hs.headers]

/-- Growth after growth. -/
theorem Avmf.Grows.trans {a a' a'' : Avmf} (h : a.Grows a') (h' : a'.Grows a'') : a.Grows a'' :=
  ⟨h.headers.trans h'.headers, h'.start.trans h.start, h'.last.trans h.last⟩

/-- An allocation adds its header at the end, or none. -/
theorem grows_allocVirt (a : Avmf) (size : Nat) (type : MemoryAllocType) :
    a.Grows (avmfAllocVirt a size type).2 := by
  unfold avmfAllocVirt
  dsimp only
  split
  · exact ⟨List.prefix_refl _, rfl, rfl⟩
  · split
    · exact ⟨List.prefix_refl _, rfl, rfl⟩
    · exact ⟨List.prefix_refl _, rfl, rfl⟩

/-- So does the entry of a region. -/
theorem grows_allocRegion (a : Avmf) (virt phys size flags : Nat) :
    a.Grows (avmfAllocRegion a virt phys size flags).2 := by
  unfold avmfAllocRegion
  split
  · exact ⟨List.prefix_refl _, rfl, rfl⟩
  · exact ⟨List.prefix_append _ _, rfl, rfl⟩

/-- The primitives of an allocation grow the list. -/
theorem grows_invariant (a : Avmf) : GrowInvariant a.Grows (fun _ _ => True) where
  phys := fun _ _ h => ⟨h.trans (Avmf.Grows.of_same (sameRegions_allocPhys _ _)), fun _ => trivial⟩
  zero := trivial
  virt := fun _ _ _ h => h.trans (grows_allocVirt _ _ _)
  region := fun _ _ _ _ _ h _ => h.trans (grows_allocRegion _ _ _ _ _)

section Steps

variable {a a' : Avmf} {i j v : Nat}

/-- A region that was there is there still. -/
theorem Avmf.Grows.header (h : a.Grows a') (hi : i < a.headerIndex) : a'.header i = a.header i := by
  obtain ⟨rest, hrest⟩ := h.headers
  unfold Avmf.header
  rw [← hrest]
  exact List.getD_append _ _ _ _ hi

/-- What is remembered was found in the array. -/
def Avmf.Cached (a : Avmf) : Prop := ∀ i, a.lastFound = some i → i < a.headerIndex

/-- A cached header is still listed after growth. -/
theorem Avmf.Grows.cached (h : a.Grows a') (hc : a.Cached) : a'.Cached := by
  intro i hi
  rw [h.last] at hi
  exact Nat.lt_of_lt_of_le (hc i hi) h.headers.length_le

/-- A right cache stays right: the new headers come after the cached one. -/
theorem Avmf.Grows.cacheRight (h : a.Grows a') (hc : a.Cached) (hr : a.CacheRight) :
    a'.CacheRight := by
  intro i hi
  rw [h.last] at hi
  have hlt := hc i hi
  rw [h.header hlt]
  rcases hr i hi with hempty | ⟨hlisted, hapart⟩
  · exact Or.inl hempty
  · refine Or.inr ⟨?_, fun k hk hki => ?_⟩
    · rw [listed_iff] at hlisted ⊢
      rw [h.start]
      exact ⟨hlisted.1, Nat.lt_of_lt_of_le hlisted.2 h.headers.length_le⟩
    · rw [listed_iff, h.start] at hk
      have hklt := Nat.lt_trans hki hlt
      rw [h.header hklt]
      exact hapart k (listed_iff.mpr ⟨hk.1, hklt⟩) hki

/-- The cache sees only which addresses the regions contain. -/
theorem Avmf.CacheRight.congr (hcov : ∀ i, (a'.header i).contains = (a.header i).contains)
    (hstart : a'.listStart = a.listStart) (hindex : a'.headerIndex = a.headerIndex)
    (hlast : a'.lastFound = a.lastFound) : a'.CacheRight ↔ a.CacheRight := by
  unfold Avmf.CacheRight AvmfHeader.Disjoint
  simp only [listed_iff, hcov, hstart, hindex, hlast]

/-- To remember the first region of an address is right when that region
    overlaps none before it. -/
theorem cacheRight_found (hscan : a.scanRegions v = some j) :
    Avmf.CacheRight { a with lastFound := some j } ↔ a.FoundFirst v := by
  have hfirst := scanRegions_first.mp hscan
  have hlisted : a.Listed j := listed_iff.mpr ⟨hfirst.lower, hfirst.upper⟩
  unfold Avmf.CacheRight Avmf.FoundFirst
  constructor
  · intro h j' hj'
    rw [hscan] at hj'
    cases hj'
    rcases h j rfl with hempty | ⟨-, hapart⟩
    · exact absurd hfirst.covers (hempty v)
    · exact hapart
  · rintro h i ⟨rfl⟩
    exact Or.inr ⟨hlisted, h j hscan⟩

/-- A lookup where the cache is transparent. -/
theorem avmfFind_scan (ht : a.Transparent) (v : Nat) :
    (∃ j, a.scanRegions v = some j ∧ avmfFind a v = (some j, { a with lastFound := some j })) ∨
      (a.scanRegions v = none ∧ avmfFind a v = (none, a)) := by
  have hscan := ht v
  rcases avmfFind_cases a v with ⟨j, hfind, -, -⟩ | ⟨hfind, -⟩
  · rw [hfind] at hscan
    exact Or.inl ⟨j, hscan.symm, hfind⟩
  · rw [hfind] at hscan
    exact Or.inr ⟨hscan.symm, hfind⟩

/-- An operation that does no more to the cache than a lookup. -/
theorem transparent_find_iff (ht : a.Transparent)
    (hlike : ∀ b, avmfFind a v = (none, b) → a' = b)
    (hfound : ∀ j b, avmfFind a v = (some j, b) →
      (∀ i, (a'.header i).contains = (b.header i).contains) ∧
      a'.listStart = b.listStart ∧ a'.headerIndex = b.headerIndex ∧ a'.lastFound = b.lastFound) :
    a'.Transparent ↔ a.FoundFirst v := by
  rcases avmfFind_scan ht v with ⟨j, hscan, hfind⟩ | ⟨hscan, hfind⟩
  · obtain ⟨hcov, hstart, hindex, hlast⟩ := hfound j _ hfind
    rw [transparent_iff, Avmf.CacheRight.congr hcov hstart hindex hlast]
    exact cacheRight_found hscan
  · rw [hlike _ hfind]
    refine iff_of_true ht fun j hj => ?_
    rw [hscan] at hj
    cases hj

/-! ## Writing to a region -/

/-- Rewriting a header adds none. -/
@[simp] theorem setHeader_index (a : Avmf) (j : Nat) (h : AvmfHeader) :
    (a.setHeader j h).headerIndex = a.headerIndex := List.length_set

/-- Rewriting a header moves the start of the list nowhere. -/
@[simp] theorem setHeader_start (a : Avmf) (j : Nat) (h : AvmfHeader) :
    (a.setHeader j h).listStart = a.listStart := by
  unfold Avmf.listStart
  rw [setHeader_index]
  rfl

/-- The header that was rewritten. -/
theorem header_set_self (hj : j < a.headerIndex) (h : AvmfHeader) :
    (a.setHeader j h).header j = h := by
  have hj' : j < (a.staticHeaders.set j h).length := by
    rw [List.length_set]
    exact hj
  unfold Avmf.header Avmf.setHeader
  rw [List.getD_eq_getElem _ _ hj', List.getElem_set_self]

/-- The other headers stay. -/
theorem header_set_ne (hij : i ≠ j) (h : AvmfHeader) :
    (a.setHeader j h).header i = a.header i := by
  unfold Avmf.header Avmf.setHeader
  rw [List.getD_eq_getElem?_getD, List.getD_eq_getElem?_getD, List.getElem?_set_ne hij.symm]

/-- A region that keeps its addresses changes no lookup. -/
theorem contains_setHeader {h : AvmfHeader} (hsame : h.contains = (a.header j).contains) (i : Nat) :
    ((a.setHeader j h).header i).contains = (a.header i).contains := by
  by_cases hij : i = j
  · subst hij
    by_cases hi : i < a.headerIndex
    · rw [header_set_self hi, hsame]
    · unfold Avmf.header Avmf.setHeader
      rw [List.set_eq_of_length_le (Nat.le_of_not_lt hi)]
  · rw [header_set_ne hij]

/-- A listed region that is moved: if it comes before the remembered one, it
    must stay clear of that, and if it is the remembered one, of those before
    it. -/
theorem cacheRight_move (hr : a.CacheRight) (hj : a.Listed j) (h : AvmfHeader) :
    (a.setHeader j h).CacheRight ↔ ∀ i, a.lastFound = some i →
      (j < i → h.Disjoint (a.header i)) ∧
      (j = i → ∀ k, a.Listed k → k < j → (a.header k).Disjoint h) := by
  have hjlt := (listed_iff.mp hj).2
  have hlisted : ∀ k, (a.setHeader j h).Listed k ↔ a.Listed k := by
    intro k
    rw [listed_iff, listed_iff, setHeader_start, setHeader_index]
  unfold Avmf.CacheRight
  simp only [hlisted]
  refine forall_congr' fun i => forall_congr' fun hi => ?_
  have hold := hr i hi
  constructor
  · intro hnew
    constructor
    · intro hlt v hv
      rw [header_set_ne (Nat.ne_of_gt hlt)] at hnew
      rcases hnew with hempty | ⟨-, hapart⟩
      · exact hempty v hv.2
      · have hj' := hapart j hj hlt
        rw [header_set_self hjlt] at hj'
        exact hj' v hv
    · rintro rfl k hk hlt v hv
      rw [header_set_self hjlt] at hnew
      rcases hnew with hempty | ⟨-, hapart⟩
      · exact hempty v hv.2
      · have hk' := hapart k hk hlt
        rw [header_set_ne (Nat.ne_of_lt hlt)] at hk'
        exact hk' v hv
  · rintro ⟨hbefore, hself⟩
    by_cases hij : j = i
    · subst hij
      refine Or.inr ⟨hj, fun k hk hlt => ?_⟩
      rw [header_set_self hjlt, header_set_ne (Nat.ne_of_lt hlt)]
      exact hself rfl k hk hlt
    · rw [header_set_ne (Ne.symm hij)]
      rcases hold with hempty | ⟨hlist, hapart⟩
      · exact Or.inl hempty
      · refine Or.inr ⟨hlist, fun k hk hlt => ?_⟩
        by_cases hkj : k = j
        · subst hkj
          rw [header_set_self hjlt]
          exact hbefore hlt
        · rw [header_set_ne hkj]
          exact hapart k hk hlt

/-! ## Every operation -/

/-- Without a region nothing changes but what the lookup remembers. -/
theorem avmfMap_none {phys flags : Nat} {b : Avmf} (h : avmfFind a v = (none, b)) :
    avmfMap a v phys flags = (0, b) := by
  unfold avmfMap
  rw [h]

/-- The region found is given the frame and the flags. -/
theorem avmfMap_some {phys flags : Nat} {b : Avmf} (h : avmfFind a v = (some j, b)) :
    avmfMap a v phys flags
      = (1, b.setHeader j { b.header j with
          physAddr := phys, flags := (b.header j).flags ||| flags % 2 ^ 32 }) := by
  unfold avmfMap
  rw [h]

/-- No region holds the frame: nothing changes. -/
theorem avmfMapIdentityVirt_none {phys virt flags : Nat} (h : a.scanPhys phys = none) :
    avmfMapIdentityVirt a virt phys flags = (0, a) := by
  unfold avmfMapIdentityVirt
  rw [h]

/-- The first region with the frame is given the address and the flags. -/
theorem avmfMapIdentityVirt_some {phys virt flags : Nat} (h : a.scanPhys phys = some j) :
    avmfMapIdentityVirt a virt phys flags
      = (1, a.setHeader j { a.header j with
          virtAddr := virt, flags := (a.header j).flags ||| flags % 2 ^ 32 }) := by
  unfold avmfMapIdentityVirt
  rw [h]

/-- A lookup keeps the cache transparent if and only if the region it finds
    overlaps none before it. -/
theorem avmfFind_transparent_iff (ht : a.Transparent) :
    (avmfFind a v).2.Transparent ↔ a.FoundFirst v := by
  refine transparent_find_iff ht (fun b hb => by rw [hb]) (fun j b hb => ?_)
  rw [hb]
  exact ⟨fun _ => rfl, rfl, rfl, rfl⟩

theorem avmfFreePhys_transparent_iff (ht : a.Transparent) :
    (avmfFreePhys a v).Transparent ↔ a.FoundFirst v := by
  unfold avmfFreePhys
  refine transparent_find_iff ht (fun b hb => by rw [hb]) (fun j b hb => ?_)
  rw [hb]
  exact ⟨fun _ => rfl, rfl, rfl, rfl⟩

theorem avmfMap_transparent_iff (ht : a.Transparent) (phys flags : Nat) :
    (avmfMap a v phys flags).2.Transparent ↔ a.FoundFirst v := by
  refine transparent_find_iff ht (fun b hb => by rw [avmfMap_none hb]) (fun j b hb => ?_)
  rw [avmfMap_some hb]
  exact ⟨contains_setHeader rfl, setHeader_start _ _ _, setHeader_index _ _ _, rfl⟩

theorem avmfMapIdentityVirt_transparent_iff (ht : a.Transparent) (virt phys flags : Nat) :
    (avmfMapIdentityVirt a virt phys flags).2.Transparent ↔
      ∀ j, a.scanPhys phys = some j → ∀ i, a.lastFound = some i →
        (j < i → AvmfHeader.Disjoint { a.header j with virtAddr := virt } (a.header i)) ∧
        (j = i → ∀ k, a.Listed k → k < j →
          (a.header k).Disjoint { a.header j with virtAddr := virt }) := by
  have hr := transparent_iff.mp ht
  cases hscan : a.scanPhys phys with
  | none =>
      rw [avmfMapIdentityVirt_none hscan]
      exact iff_of_true ht (fun j hj => by cases hj)
  | some j =>
      have hfirst := scanPhys_first.mp hscan
      have hlisted : a.Listed j := listed_iff.mpr ⟨hfirst.lower, hfirst.upper⟩
      rw [avmfMapIdentityVirt_some hscan, transparent_iff, cacheRight_move hr hlisted]
      constructor
      · rintro h j' ⟨rfl⟩
        exact h
      · intro h
        exact h j rfl

/-- Without a list the cache must remember nothing. -/
theorem avmfInit_transparent_iff (basePhys limitPhys : Nat → Nat) (entries : Nat) :
    (avmfInit a basePhys limitPhys entries).Transparent ↔
      ∀ i, a.lastFound = some i → ∀ v, ¬ (a.header i).contains v = true := by
  rw [transparent_iff]
  refine forall_congr' fun i => forall_congr' fun hi => ?_
  constructor
  · rintro (hempty | ⟨⟨k, hk, -⟩, -⟩)
    · exact hempty
    · cases hk
  · exact Or.inl

end Steps

/-- A step keeps the cache transparent exactly when it meets the condition. -/
theorem regionStep_transparent_iff {m : Machine} (hc : m.avmf.Cached) (ht : m.avmf.Transparent)
    (op : RegionOp) : (regionStep m op).avmf.Transparent ↔ KeepsCache m op := by
  have hr := transparent_iff.mp ht
  cases op with
  | init basePhys limitPhys entries => exact avmfInit_transparent_iff basePhys limitPhys entries
  | allocRegion virt phys size flags =>
      exact iff_of_true
        (transparent_iff.mpr ((grows_allocRegion _ virt phys size flags).cacheRight hc hr)) trivial
  | alloc size type flags =>
      have hgrows := (grows_invariant m.avmf).alloc (m := m)
        (Avmf.Grows.of_same ⟨rfl, rfl, rfl, rfl, rfl⟩) size type flags
      exact iff_of_true (transparent_iff.mpr (hgrows.cacheRight hc hr)) trivial
  | free virt =>
      rw [show (regionStep m (.free virt)).avmf = _ from avmfFree_avmf m virt]
      exact avmfFreePhys_transparent_iff ht
  | map virt phys flags => exact avmfMap_transparent_iff ht phys flags
  | mapIdentityVirt virt phys flags => exact avmfMapIdentityVirt_transparent_iff ht virt phys flags
  | find virt => exact avmfFind_transparent_iff ht

/-- What is remembered stays an index of the array. -/
theorem regionStep_cached {m : Machine} (hc : m.avmf.Cached) (op : RegionOp) :
    (regionStep m op).avmf.Cached := by
  have hfind : ∀ virt, (avmfFind m.avmf virt).2.Cached := by
    intro virt
    rcases avmfFind_cases m.avmf virt with ⟨j, hfind, -, hwhere⟩ | ⟨hfind, -⟩
    · rw [hfind]
      rintro i ⟨rfl⟩
      rcases hwhere with hlast | hlisted
      · exact hc j hlast
      · exact (listed_iff.mp hlisted).2
    · rw [hfind]
      exact hc
  -- only a lookup remembers another region, and no call takes one from the array
  cases op with
  | init basePhys limitPhys entries => exact hc
  | allocRegion virt phys size flags => exact (grows_allocRegion _ virt phys size flags).cached hc
  | alloc size type flags =>
      have hgrows := (grows_invariant m.avmf).alloc (m := m)
        (Avmf.Grows.of_same ⟨rfl, rfl, rfl, rfl, rfl⟩) size type flags
      exact hgrows.cached hc
  | free virt =>
      have hv := hfind virt
      rw [show (regionStep m (.free virt)).avmf = _ from avmfFree_avmf m virt]
      unfold avmfFreePhys
      rcases hres : avmfFind m.avmf virt with ⟨_ | j, b⟩
      · rw [hres] at hv
        exact hv
      · rw [hres] at hv
        exact hv
  | map virt phys flags =>
      have hv := hfind virt
      show (avmfMap m.avmf virt phys flags).2.Cached
      rcases hres : avmfFind m.avmf virt with ⟨_ | j, b⟩
      · rw [avmfMap_none hres]
        rw [hres] at hv
        exact hv
      · rw [avmfMap_some hres]
        rw [hres] at hv
        intro i hi
        rw [setHeader_index]
        exact hv i hi
  | mapIdentityVirt virt phys flags =>
      show (avmfMapIdentityVirt m.avmf virt phys flags).2.Cached
      cases hscan : m.avmf.scanPhys phys with
      | none =>
          rw [avmfMapIdentityVirt_none hscan]
          exact hc
      | some j =>
          rw [avmfMapIdentityVirt_some hscan]
          intro i hi
          rw [setHeader_index]
          exact hc i hi
  | find virt => exact hfind virt

/-- From the statics as the loader leaves them, every lookup of a run gives what
    a scan gives exactly when every step meets the condition. -/
theorem cache_transparent_iff (m : Machine) (ops : List RegionOp) :
    Throughout regionStep (fun m => m.avmf.Transparent) { m with avmf := Avmf.boot } ops ↔
      Along regionStep KeepsCache { m with avmf := Avmf.boot } ops := by
  have hstart : Avmf.boot.Cached ∧ Avmf.boot.Transparent :=
    ⟨(fun i hi => by cases hi), transparent_iff.mpr (fun i hi => by cases hi)⟩
  refine @throughout_iff Machine RegionOp regionStep KeepsCache (fun _ _ => True)
    (fun m => m.avmf.Cached ∧ m.avmf.Transparent) (fun m => m.avmf.Transparent) (fun _ h => h.2)
    (fun m op h _ hok =>
      ⟨regionStep_cached h.1 op, (regionStep_transparent_iff h.1 h.2 op).mpr hok⟩)
    (fun m op h _ hnext => (regionStep_transparent_iff h.1 h.2 op).mp hnext) _ _ hstart
    (along_of_forall (fun _ _ _ => trivial))

/-- `avmf_init` drops the list, and the region that was found last is still
    found. -/
theorem cache_outlives_list :
    ¬ Throughout regionStep (fun m => m.avmf.Transparent) { avmf := Avmf.boot }
      [.allocRegion 0x1000 0x200000 0x1000 0, .find 0x1000, .init (fun _ => 0) (fun _ => 0) 0] := by
  rintro ⟨-, -, -, hlast⟩
  have hfound := hlast 0x1000
  revert hfound
  decide

end Pfi
