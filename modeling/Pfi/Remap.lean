import Pfi.RegionCache

/-! # Remapping a region

    `avmf_map` and `avmf_map_identity_virt` take any address of a region, and
    write the new address over the base of the region.  So the given address
    gets the given translation exactly when it is the base.  The region in its
    new place can cover what belongs to another: then a lookup of the other's
    addresses stops at whichever comes first, the remembered region or the
    first of the list.  `remap_iff` says exactly when the two do what they
    should, on any list of disjoint regions. -/

namespace Pfi

open Words FirstMatch

/-! ## What a remapping should do -/

/-- An address that `avmf_virt_to_phys` takes for one of the direct map. -/
def DirectAddress (v : Nat) : Prop := aosDirectMapBase ≤ v ∧ v < aosKernelSpaceBase

instance (v : Nat) : Decidable (DirectAddress v) := inferInstanceAs (Decidable (_ ∧ _))

/-- A region that a lookup can return. -/
def Avmf.InUse (a : Avmf) (i : Nat) : Prop := a.Listed i ∨ a.lastFound = some i

/-- The regions do not wrap, and no two share a virtual or a physical
    address. -/
structure Avmf.RegionsApart (a : Avmf) : Prop where
  virtEnd : ∀ i, a.InUse i → (a.header i).virtAddr + (a.header i).size < 2 ^ 64
  physEnd : ∀ i, a.InUse i → (a.header i).physAddr + (a.header i).size < 2 ^ 64
  virt : ∀ i j, a.InUse i → a.InUse j → i ≠ j → (a.header i).Disjoint (a.header j)
  phys : ∀ i j, a.InUse i → a.InUse j → i ≠ j →
    ∀ q, ¬ ((a.header i).holds q = true ∧ (a.header j).holds q = true)

/-- The addresses of a region translate as before, both ways. -/
def SameTranslations (a a' : Avmf) (h : AvmfHeader) : Prop :=
  (∀ u, h.contains u = true → (avmfVirtToPhys a' u).1 = (avmfVirtToPhys a u).1) ∧
    ∀ q, h.holds q = true → avmfPhysToVirt a' q = avmfPhysToVirt a q

/-- If `avmf_map` returns 1, the address translates to the given one, and the
    other regions translate as before. -/
def MapTakesEffect (a : Avmf) (virt phys flags : Nat) : Prop :=
  (avmfMap a virt phys flags).1 = 1 →
    (avmfVirtToPhys (avmfMap a virt phys flags).2 virt).1 = phys ∧
      ∀ j, (avmfFind a virt).1 = some j → ∀ k, a.Listed k → k ≠ j →
        SameTranslations a (avmfMap a virt phys flags).2 (a.header k)

/-- The same of `avmf_map_identity_virt`, with the directions exchanged. -/
def IdentityTakesEffect (a : Avmf) (virt phys flags : Nat) : Prop :=
  (avmfMapIdentityVirt a virt phys flags).1 = 1 →
    avmfPhysToVirt (avmfMapIdentityVirt a virt phys flags).2 phys = virt ∧
      ∀ j, a.scanPhys phys = some j → ∀ k, a.Listed k → k ≠ j →
        SameTranslations a (avmfMapIdentityVirt a virt phys flags).2 (a.header k)

/-- The address is the base of its region (or one of the direct map, and the
    physical address is the one it has there), and the region, if it is on the
    list, does not come to lie on a later one. -/
def MapAtBase (a : Avmf) (virt phys : Nat) : Prop :=
  ∀ j, (avmfFind a virt).1 = some j →
    (if DirectAddress virt then phys = virt - aosDirectMapBase
      else virt = (a.header j).virtAddr) ∧
    (a.Listed j → ∀ k, a.Listed k → j < k → ∀ q,
      ¬ (AvmfHeader.holds { a.header j with physAddr := phys } q = true ∧
        (a.header k).holds q = true))

/-- The physical address is the base of its region, and outside the direct map
    the region does not come to lie on another that a lookup reaches after
    it. -/
def IdentityAtBase (a : Avmf) (virt phys : Nat) : Prop :=
  ∀ j, a.scanPhys phys = some j →
    phys = (a.header j).physAddr ∧
      ∀ k, a.Listed k → k ≠ j → a.lastFound ≠ some k → (j < k ∨ a.lastFound = some j) →
        ∀ u, ¬ DirectAddress u →
          ¬ (AvmfHeader.contains { a.header j with virtAddr := virt } u = true ∧
            (a.header k).contains u = true)

/-! ## Lookups among disjoint regions -/

section Lookups

variable {a : Avmf} {i j k v q : Nat}

theorem holds_iff_mod {h : AvmfHeader} :
    h.holds q = true ↔ h.physAddr ≤ q ∧ q < add64 h.physAddr h.size := by
  unfold AvmfHeader.holds
  rw [Bool.and_eq_true, decide_eq_true_eq, decide_eq_true_eq]

theorem virtToPhys_direct (h : DirectAddress v) :
    (avmfVirtToPhys a v).1 = v - aosDirectMapBase := by
  unfold avmfVirtToPhys
  rw [if_pos (show aosDirectMapBase ≤ v ∧ v < aosKernelSpaceBase from h)]

theorem virtToPhys_found (hout : ¬ DirectAddress v) (hfind : (avmfFind a v).1 = some j) :
    (avmfVirtToPhys a v).1 = add64 (a.header j).physAddr (v - (a.header j).virtAddr) := by
  unfold avmfVirtToPhys
  rw [if_neg (show ¬ (aosDirectMapBase ≤ v ∧ v < aosKernelSpaceBase) from hout)]
  rcases hres : avmfFind a v with ⟨_ | i, b⟩
  · rw [hres] at hfind
    cases hfind
  · rw [hres] at hfind
    cases hfind
    rfl

/-- `avmf_phys_to_virt` uses the first region that holds the address. -/
theorem physToVirt_scan (hscan : a.scanPhys q = some j) :
    avmfPhysToVirt a q = add64 (a.header j).virtAddr (q - (a.header j).physAddr) := by
  unfold avmfPhysToVirt
  unfold Avmf.scanPhys at hscan
  cases hhead : a.avmfHead with
  | none =>
      rw [hhead] at hscan
      cases hscan
  | some lo =>
      rw [hhead] at hscan
      have hfind :=
        @find_of_scanFrom lo j AvmfHeader a.staticHeaders default (fun h => h.holds q) hscan
      dsimp only
      rw [hfind]
      rfl

/-- The remembered region comes first. -/
theorem find_remembered (hlast : a.lastFound = some j) (hc : (a.header j).contains v = true) :
    (avmfFind a v).1 = some j := by
  rw [avmfFind_lookup, hlast]
  exact if_pos hc

/-- The only region in use that contains an address is found. -/
theorem find_only (hk : a.Listed k) (hc : (a.header k).contains v = true)
    (honly : ∀ i, a.InUse i → (a.header i).contains v = true → i = k) :
    (avmfFind a v).1 = some k := by
  rcases avmfFind_cases a v with ⟨j, hfind, hcj, hwhere⟩ | ⟨-, hnone⟩
  · have hj : a.InUse j := hwhere.symm
    rw [hfind, honly j hj hcj]
  · rw [hnone k hk] at hc
    cases hc

theorem Avmf.RegionsApart.find (h : a.RegionsApart) (hk : a.Listed k)
    (hc : (a.header k).contains v = true) : (avmfFind a v).1 = some k := by
  refine find_only hk hc (fun i hi hci => ?_)
  by_contra hne
  exact h.virt i k hi (Or.inl hk) hne v ⟨hci, hc⟩

theorem scanPhys_of_least (hk : a.Listed k) (hh : (a.header k).holds q = true)
    (hleast : ∀ i, a.Listed i → i < k → ¬ (a.header i).holds q = true) :
    a.scanPhys q = some k := by
  rw [scanPhys_first]
  obtain ⟨hlo, hhi⟩ := listed_iff.mp hk
  exact ⟨hlo, hhi, hh, fun i hi hlt => hleast i (listed_iff.mpr ⟨hi, Nat.lt_trans hlt hhi⟩) hlt⟩

theorem Avmf.RegionsApart.scanPhys (h : a.RegionsApart) (hk : a.Listed k)
    (hh : (a.header k).holds q = true) : a.scanPhys q = some k :=
  scanPhys_of_least hk hh (fun i hi hlt hhi =>
    h.phys i k (Or.inl hi) (Or.inl hk) (Nat.ne_of_lt hlt) q ⟨hhi, hh⟩)

end Lookups

/-! ## One region rewritten -/

/-- In `b` region `j` is `h`, and `last` is remembered; the rest is as in
    `a`. -/
structure Rewritten (a b : Avmf) (j : Nat) (h : AvmfHeader) (last : Option Nat) : Prop where
  listed : ∀ i, b.Listed i ↔ a.Listed i
  self : b.header j = h
  other : ∀ i, i ≠ j → b.header i = a.header i
  last : b.lastFound = last

theorem rewritten_setHeader {a : Avmf} {j : Nat} (hj : j < a.headerIndex) (h : AvmfHeader)
    (last : Option Nat) :
    Rewritten a (Avmf.setHeader { a with lastFound := last } j h) j h last where
  listed := fun i => by
    rw [listed_iff, listed_iff, setHeader_start, setHeader_index]
    exact Iff.rfl
  self := @header_set_self { a with lastFound := last } j hj h
  other := fun i hi => @header_set_ne { a with lastFound := last } i j hi h
  last := rfl

section Rewritten

variable {a b : Avmf} {j k u q : Nat} {h : AvmfHeader} {last : Option Nat}

/-- A region whose addresses another has not covered translates as before. -/
theorem Rewritten.virtToPhys_same (hw : Rewritten a b j h last) (hap : a.RegionsApart)
    (hk : a.Listed k) (hkj : k ≠ j) (hc : (a.header k).contains u = true)
    (hfind : ¬ DirectAddress u → (avmfFind b u).1 = some k) :
    (avmfVirtToPhys b u).1 = (avmfVirtToPhys a u).1 := by
  by_cases hd : DirectAddress u
  · rw [virtToPhys_direct hd, virtToPhys_direct hd]
  · rw [virtToPhys_found hd (hfind hd), virtToPhys_found hd (hap.find hk hc), hw.other k hkj]

theorem Rewritten.physToVirt_same (hw : Rewritten a b j h last) (hap : a.RegionsApart)
    (hk : a.Listed k) (hkj : k ≠ j) (hh : (a.header k).holds q = true)
    (hclear : a.Listed j → j < k → ¬ h.holds q = true) :
    avmfPhysToVirt b q = avmfPhysToVirt a q := by
  have hscan : b.scanPhys q = some k := by
    refine scanPhys_of_least ((hw.listed k).mpr hk) ?_ (fun i hi hlt hhi => ?_)
    · rw [hw.other k hkj]
      exact hh
    · have hia := (hw.listed i).mp hi
      by_cases hij : i = j
      · subst hij
        rw [hw.self] at hhi
        exact hclear hia hlt hhi
      · rw [hw.other i hij] at hhi
        exact hap.phys i k (Or.inl hia) (Or.inl hk) (Nat.ne_of_lt hlt) q ⟨hhi, hh⟩
  rw [physToVirt_scan hscan, physToVirt_scan (hap.scanPhys hk hh), hw.other k hkj]

end Rewritten

/-! ## `avmf_map` -/

section Map

variable {a : Avmf} {virt phys flags j k : Nat}

theorem avmfMap_one (hj : (avmfFind a virt).1 = some j) (hlt : j < a.headerIndex) :
    (avmfMap a virt phys flags).1 = 1 ∧
      Rewritten a (avmfMap a virt phys flags).2 j
        { a.header j with physAddr := phys, flags := (a.header j).flags ||| flags % 2 ^ 32 }
        (some j) := by
  rcases avmfFind_cases a virt with ⟨i, hfind, -, -⟩ | ⟨hfind, -⟩
  · rw [hfind] at hj
    cases hj
    rw [avmfMap_some hfind]
    exact ⟨rfl, rewritten_setHeader hlt _ _⟩
  · rw [hfind] at hj
    cases hj

theorem add64_self_iff {x d : Nat} (hx : x < 2 ^ 64) (hd : d < 2 ^ 64) : add64 x d = x ↔ d = 0 := by
  unfold add64
  omega

/-- The region in its new place answers for an address of a later one. -/
theorem physToVirt_covered {b : Avmf} {q : Nat} {h : AvmfHeader} {last : Option Nat}
    (hw : Rewritten a b j h last) (hap : a.RegionsApart)
    (hvirt : h.virtAddr = (a.header j).virtAddr) (hsize : h.size = (a.header j).size)
    (hend : h.physAddr < 2 ^ 64) (hj : a.Listed j)
    (hk : a.Listed k) (hjk : j < k) (hhj : h.holds q = true) (hhk : (a.header k).holds q = true) :
    avmfPhysToVirt b q ≠ avmfPhysToVirt a q := by
  have hscan : b.scanPhys q = some j := by
    refine scanPhys_of_least ((hw.listed j).mpr hj) ?_ (fun i hi hlt hhi => ?_)
    · rw [hw.self]
      exact hhj
    · rw [hw.other i (Nat.ne_of_lt hlt)] at hhi
      exact hap.phys i k (Or.inl ((hw.listed i).mp hi)) (Or.inl hk)
        (Nat.ne_of_lt (Nat.lt_trans hlt hjk)) q ⟨hhi, hhk⟩
  rw [physToVirt_scan hscan, physToVirt_scan (hap.scanPhys hk hhk), hw.self, hvirt]
  have hje := hap.virtEnd j (Or.inl hj)
  have hke := hap.virtEnd k (Or.inl hk)
  have hkp := hap.physEnd k (Or.inl hk)
  rw [holds_iff_mod] at hhj hhk
  rw [add64_of_lt hkp] at hhk
  have hsmall : q - h.physAddr < (a.header j).size := by
    rw [hsize] at hhj
    unfold add64 at hhj
    omega
  -- the two results would lie in two disjoint regions
  rw [add64_of_lt (by omega), add64_of_lt (by omega)]
  intro heq
  refine hap.virt j k (Or.inl hj) (Or.inl hk) (Nat.ne_of_lt hjk)
    ((a.header j).virtAddr + (q - h.physAddr)) ⟨?_, ?_⟩
  · rw [contains_iff, add64_of_lt hje]
    omega
  · rw [contains_iff, add64_of_lt hke]
    omega

/-- No address lies in what is behind the array. -/
theorem lt_of_contains {v : Nat} (hc : (a.header j).contains v = true) : j < a.headerIndex := by
  by_contra hge
  unfold Avmf.header at hc
  rw [List.getD_eq_default _ _ (Nat.le_of_not_lt hge), contains_iff] at hc
  exact absurd hc.2 (Nat.not_lt_zero v)

/-- The address that was given to `avmf_map`. -/
theorem map_self_iff {b : Avmf} {h : AvmfHeader} (hw : Rewritten a b j h (some j))
    (hc : h.contains virt = true) (hphys : h.physAddr < 2 ^ 64)
    (hend : h.virtAddr + h.size < 2 ^ 64) :
    (avmfVirtToPhys b virt).1 = h.physAddr ↔
      if DirectAddress virt then h.physAddr = virt - aosDirectMapBase else virt = h.virtAddr := by
  by_cases hd : DirectAddress virt
  · rw [if_pos hd, virtToPhys_direct hd]
    exact eq_comm
  · have hself : (b.header j).contains virt = true := by
      rw [hw.self]
      exact hc
    rw [contains_iff, add64_of_lt hend] at hc
    rw [if_neg hd, virtToPhys_found hd (find_remembered hw.last hself), hw.self,
      add64_self_iff hphys (by omega)]
    omega

/-- The other regions, when the remembered region has moved in physical
    memory. -/
theorem map_others_iff {b : Avmf} {h : AvmfHeader} (hw : Rewritten a b j h (some j))
    (hap : a.RegionsApart) (hin : a.InUse j) (hvirt : h.virtAddr = (a.header j).virtAddr)
    (hsize : h.size = (a.header j).size) (hphys : h.physAddr < 2 ^ 64) :
    (∀ k, a.Listed k → k ≠ j → SameTranslations a b (a.header k)) ↔
      (a.Listed j → ∀ k, a.Listed k → j < k → ∀ q,
        ¬ (h.holds q = true ∧ (a.header k).holds q = true)) := by
  constructor
  · rintro hsame hlisted k hk hjk q ⟨hhj, hhk⟩
    exact physToVirt_covered hw hap hvirt hsize hphys hlisted hk hjk hhj hhk
      ((hsame k hk (Nat.ne_of_gt hjk)).2 q hhk)
  · intro hclear k hk hkj
    refine ⟨fun u hu => hw.virtToPhys_same hap hk hkj hu (fun _ => ?_), fun q hq =>
      hw.physToVirt_same hap hk hkj hq (fun hl hjk hhj => hclear hl k hk hjk q ⟨hhj, hq⟩)⟩
    refine find_only ((hw.listed k).mpr hk) (by rw [hw.other k hkj]; exact hu) (fun i hi hci => ?_)
    have hia : a.InUse i := by
      rcases hi with hl | hl
      · exact Or.inl ((hw.listed i).mp hl)
      · rw [hw.last] at hl
        cases hl
        exact hin
    by_contra hik
    refine hap.virt i k hia (Or.inl hk) hik u ⟨?_, hu⟩
    by_cases hij : i = j
    · subst hij
      rw [hw.self] at hci
      rw [contains_iff, ← hvirt, ← hsize, ← contains_iff]
      exact hci
    · rw [hw.other i hij] at hci
      exact hci

/-- `avmf_map` does what it should exactly at the base of a region, when the
    region does not come to lie on a later one. -/
theorem mapTakesEffect_iff (hap : a.RegionsApart) (hp : phys < 2 ^ 64) :
    MapTakesEffect a virt phys flags ↔ MapAtBase a virt phys := by
  unfold MapTakesEffect MapAtBase
  rcases avmfFind_cases a virt with ⟨j, hfind, hc, hwhere⟩ | ⟨hfind, -⟩
  · have hj : (avmfFind a virt).1 = some j := by rw [hfind]
    have hin : a.InUse j := hwhere.symm
    obtain ⟨hone, hw⟩ := @avmfMap_one a virt phys flags j hj (lt_of_contains hc)
    have hself := map_self_iff hw hc hp (hap.virtEnd j hin)
    have hothers := map_others_iff hw hap hin rfl rfl hp
    rw [hone, hj]
    constructor
    · rintro h j' ⟨rfl⟩
      obtain ⟨hv, hs⟩ := h rfl
      exact ⟨hself.mp hv, hothers.mp (hs j rfl)⟩
    · intro h _
      obtain ⟨hv, hs⟩ := h j rfl
      refine ⟨hself.mpr hv, ?_⟩
      rintro j' ⟨rfl⟩
      exact hothers.mpr hs
  · have hnone : (avmfFind a virt).1 = none := by rw [hfind]
    have hzero : (avmfMap a virt phys flags).1 = 0 := by rw [avmfMap_none hfind]
    rw [hzero, hnone]
    exact iff_of_true (fun h => by cases h) (fun j hj => by cases hj)

end Map

/-! ## `avmf_map_identity_virt` -/

section Identity

variable {a b : Avmf} {virt phys flags j k : Nat} {h : AvmfHeader}

theorem avmfMapIdentityVirt_one (hj : a.scanPhys phys = some j) :
    (avmfMapIdentityVirt a virt phys flags).1 = 1 ∧
      Rewritten a (avmfMapIdentityVirt a virt phys flags).2 j
        { a.header j with virtAddr := virt, flags := (a.header j).flags ||| flags % 2 ^ 32 }
        a.lastFound := by
  rw [avmfMapIdentityVirt_some hj]
  exact ⟨rfl, rewritten_setHeader (scanPhys_first.mp hj).upper _ a.lastFound⟩

/-- A lookup of an address that both the moved region and another contain
    stops at the moved one, unless the other is remembered or, when the moved
    one is not, comes before it. -/
theorem find_moved (hw : Rewritten a b j h a.lastFound) (hap : a.RegionsApart) (hj : a.Listed j)
    (hk : a.Listed k) (hkj : k ≠ j) {u : Nat} (hhj : h.contains u = true)
    (hhk : (a.header k).contains u = true) :
    (avmfFind b u).1 =
      if a.lastFound ≠ some k ∧ (j < k ∨ a.lastFound = some j) then some j else some k := by
  have hself : (b.header j).contains u = true := by
    rw [hw.self]
    exact hhj
  have hother : (b.header k).contains u = true := by
    rw [hw.other k hkj]
    exact hhk
  have hapart : ∀ i, a.InUse i → i ≠ j → i ≠ k → ¬ (b.header i).contains u = true := by
    intro i hi hij hik hc
    rw [hw.other i hij] at hc
    exact hap.virt i k hi (Or.inl hk) hik u ⟨hc, hhk⟩
  have hscan : ∀ i, a.Listed i → (b.header i).contains u = true →
      (∀ i', a.Listed i' → i' < i → i' ≠ j ∧ i' ≠ k) → b.scanRegions u = some i := by
    intro i hi hc hleast
    rw [scanRegions_first]
    obtain ⟨hlo, hhi⟩ := listed_iff.mp ((hw.listed i).mpr hi)
    refine ⟨hlo, hhi, hc, fun i' hi' hlt => ?_⟩
    have hl' := (hw.listed i').mp (listed_iff.mpr ⟨hi', Nat.lt_trans hlt hhi⟩)
    obtain ⟨hne, hne'⟩ := hleast i' hl' hlt
    exact hapart i' (Or.inl hl') hne hne'
  by_cases hlastk : a.lastFound = some k
  · rw [if_neg (fun hc => hc.1 hlastk)]
    exact find_remembered (hw.last.trans hlastk) hother
  · by_cases hlastj : a.lastFound = some j
    · rw [if_pos ⟨hlastk, Or.inr hlastj⟩]
      exact find_remembered (hw.last.trans hlastj) hself
    · have hmiss : (avmfFind b u).1 = b.scanRegions u := by
        rw [avmfFind_lookup, hw.last]
        unfold lookup
        cases hl : a.lastFound with
        | none => rfl
        | some i =>
            refine if_neg (hapart i (Or.inr hl) ?_ ?_)
            · rintro rfl
              exact hlastj hl
            · rintro rfl
              exact hlastk hl
      rw [hmiss]
      by_cases hjk : j < k
      · rw [if_pos ⟨hlastk, Or.inl hjk⟩]
        refine hscan j hj hself (fun i' _ hlt => ⟨Nat.ne_of_lt hlt, ?_⟩)
        exact Nat.ne_of_lt (Nat.lt_trans hlt hjk)
      · rw [if_neg (fun hc => hc.2.elim hjk hlastj)]
        refine hscan k hk hother (fun i' _ hlt => ⟨?_, Nat.ne_of_lt hlt⟩)
        omega

/-- The physical address that was given to `avmf_map_identity_virt`. -/
theorem identity_self_iff (hw : Rewritten a b j h a.lastFound) (hj : a.scanPhys phys = some j)
    (hphys : h.physAddr = (a.header j).physAddr) (hsize : h.size = (a.header j).size)
    (hend : h.physAddr + h.size < 2 ^ 64) (hvirt : h.virtAddr < 2 ^ 64) :
    avmfPhysToVirt b phys = h.virtAddr ↔ phys = h.physAddr := by
  have hfirst := scanPhys_first.mp hj
  have hholds : h.holds phys = true := by
    rw [holds_iff_mod, hphys, hsize, ← holds_iff_mod]
    exact hfirst.covers
  have hlisted : a.Listed j := listed_iff.mpr ⟨hfirst.lower, hfirst.upper⟩
  have hscan : b.scanPhys phys = some j := by
    refine scanPhys_of_least ((hw.listed j).mpr hlisted) ?_ (fun i hi hlt => ?_)
    · rw [hw.self]
      exact hholds
    · rw [hw.other i (Nat.ne_of_lt hlt)]
      exact hfirst.least i (listed_iff.mp ((hw.listed i).mp hi)).1 hlt
  rw [holds_iff_mod, add64_of_lt hend] at hholds
  rw [physToVirt_scan hscan, hw.self, add64_self_iff hvirt (by omega)]
  omega

/-- The other regions, when a region has moved in virtual memory. -/
theorem identity_others_iff (hw : Rewritten a b j h a.lastFound) (hap : a.RegionsApart)
    (hj : a.Listed j) (hphys : h.physAddr = (a.header j).physAddr)
    (hsize : h.size = (a.header j).size) (hvirt : h.virtAddr < 2 ^ 64) :
    (∀ k, a.Listed k → k ≠ j → SameTranslations a b (a.header k)) ↔
      ∀ k, a.Listed k → k ≠ j → a.lastFound ≠ some k → (j < k ∨ a.lastFound = some j) →
        ∀ u, ¬ DirectAddress u → ¬ (h.contains u = true ∧ (a.header k).contains u = true) := by
  have hholds : ∀ q, h.holds q = true ↔ (a.header j).holds q = true := by
    intro q
    rw [holds_iff_mod, holds_iff_mod, hphys, hsize]
  constructor
  · rintro hsame k hk hkj hlast hbefore u hd ⟨hhj, hhk⟩
    have hfind := find_moved hw hap hj hk hkj hhj hhk
    rw [if_pos ⟨hlast, hbefore⟩] at hfind
    have heq := (hsame k hk hkj).1 u hhk
    rw [virtToPhys_found hd hfind, virtToPhys_found hd (hap.find hk hhk), hw.self, hphys] at heq
    have hjv := hap.virtEnd j (Or.inl hj)
    have hjp := hap.physEnd j (Or.inl hj)
    have hkp := hap.physEnd k (Or.inl hk)
    rw [contains_iff] at hhj hhk
    rw [add64_of_lt (hap.virtEnd k (Or.inl hk))] at hhk
    have hsmall : u - h.virtAddr < (a.header j).size := by
      rw [hsize] at hhj
      unfold add64 at hhj
      omega
    -- the two results would lie in two disjoint regions
    rw [add64_of_lt (by omega), add64_of_lt (by omega)] at heq
    refine hap.phys j k (Or.inl hj) (Or.inl hk) (Ne.symm hkj)
      ((a.header j).physAddr + (u - h.virtAddr)) ⟨?_, ?_⟩
    · rw [holds_iff_mod, add64_of_lt hjp]
      omega
    · rw [holds_iff_mod, add64_of_lt hkp]
      omega
  · intro hclear k hk hkj
    refine ⟨fun u hu => hw.virtToPhys_same hap hk hkj hu (fun hd => ?_), fun q hq =>
      hw.physToVirt_same hap hk hkj hq (fun _ _ hhj => ?_)⟩
    · by_cases hhj : h.contains u = true
      · rw [find_moved hw hap hj hk hkj hhj hu]
        exact if_neg (fun hc => hclear k hk hkj hc.1 hc.2 u hd ⟨hhj, hu⟩)
      · refine find_only ((hw.listed k).mpr hk) (by rw [hw.other k hkj]; exact hu)
          (fun i hi hci => ?_)
        have hij : i ≠ j := by
          rintro rfl
          rw [hw.self] at hci
          exact hhj hci
        have hia : a.InUse i := hi.imp (hw.listed i).mp hw.last.symm.trans
        rw [hw.other i hij] at hci
        by_contra hik
        exact hap.virt i k hia (Or.inl hk) hik u ⟨hci, hu⟩
    · exact hap.phys j k (Or.inl hj) (Or.inl hk) (Ne.symm hkj) q ⟨(hholds q).mp hhj, hq⟩

/-- `avmf_map_identity_virt` does what it should exactly at the base of a
    region, when the region does not come in the way of another. -/
theorem identityTakesEffect_iff (hap : a.RegionsApart) (hv : virt < 2 ^ 64) :
    IdentityTakesEffect a virt phys flags ↔ IdentityAtBase a virt phys := by
  unfold IdentityTakesEffect IdentityAtBase
  cases hj : a.scanPhys phys with
  | none =>
      rw [show (avmfMapIdentityVirt a virt phys flags).1 = 0 by rw [avmfMapIdentityVirt_none hj]]
      exact iff_of_true (fun h => by cases h) (fun j hj => by cases hj)
  | some j =>
      have hfirst := scanPhys_first.mp hj
      have hlisted : a.Listed j := listed_iff.mpr ⟨hfirst.lower, hfirst.upper⟩
      obtain ⟨hone, hw⟩ := @avmfMapIdentityVirt_one a virt phys flags j hj
      have hself := identity_self_iff hw hj rfl rfl (hap.physEnd j (Or.inl hlisted)) hv
      have hothers := identity_others_iff hw hap hlisted rfl rfl hv
      rw [hone]
      constructor
      · rintro h j' ⟨rfl⟩
        obtain ⟨hp, hs⟩ := h rfl
        exact ⟨hself.mp hp, hothers.mp (hs j rfl)⟩
      · intro h _
        obtain ⟨hp, hs⟩ := h j rfl
        refine ⟨hself.mpr hp, ?_⟩
        rintro j' ⟨rfl⟩
        exact hothers.mpr hs

end Identity

/-- On every list of disjoint regions, with every pair of addresses. -/
theorem remap_iff {a : Avmf} (hap : a.RegionsApart) {virt phys : Nat} (hv : virt < 2 ^ 64)
    (hp : phys < 2 ^ 64) (flags : Nat) :
    (MapTakesEffect a virt phys flags ↔ MapAtBase a virt phys) ∧
      (IdentityTakesEffect a virt phys flags ↔ IdentityAtBase a virt phys) :=
  ⟨mapTakesEffect_iff hap hp, identityTakesEffect_iff hap hv⟩

/-- One region of a page. -/
def oneRegion : Avmf := (avmfAllocRegion Avmf.boot 0x1000 0x200000 0x1000 0).2

theorem oneRegion_apart : oneRegion.RegionsApart := by
  have hzero : ∀ i, oneRegion.InUse i → i = 0 := by
    rintro i (⟨k, hk, -, hi⟩ | hlast)
    · exact Nat.lt_one_iff.mp hi
    · cases hlast
  refine ⟨?_, ?_, ?_, ?_⟩
  · intro i hi
    rw [hzero i hi]
    decide
  · intro i hi
    rw [hzero i hi]
    decide
  · intro i j hi hj hne
    exact absurd ((hzero i hi).trans (hzero j hj).symm) hne
  · intro i j hi hj hne
    exact absurd ((hzero i hi).trans (hzero j hj).symm) hne

/-- The base of the only region is remapped. -/
theorem remap_base : MapTakesEffect oneRegion 0x1000 0x5000 0 := by
  refine (remap_iff oneRegion_apart (by decide) (by decide) 0).1.mpr ?_
  intro j hj
  have hzero : j = 0 := by
    rw [show (avmfFind oneRegion 0x1000).1 = some 0 by decide] at hj
    exact (Option.some.inj hj).symm
  subst hzero
  refine ⟨by decide, fun _ k hk hlt => ?_⟩
  have hlast : k < 1 := (listed_iff.mp hk).2
  exact absurd hlt (by omega)

/-- An address in the middle of the region gets a translation half a page
    further on. -/
theorem remap_middle :
    oneRegion.RegionsApart ∧ ¬ MapTakesEffect oneRegion 0x1800 0x5000 0 := by
  refine ⟨oneRegion_apart, fun h => ?_⟩
  have hwrong := (h (by decide)).1
  revert hwrong
  decide

end Pfi
