import Mathlib.Logic.Function.Basic
import Pfi.ApBoot

/-! # The table of the cores

    `smp_init` fills `cores[i]` for the `i`-th APIC id, and remembers the
    index of the BSP's own id on the way; when the loop is over it stores the
    state of the BSP at that index.  The index is a static that starts at `0`:
    if the BSP's id is not among those that `acpi_get_apic_info` returns, the
    BSP takes the place of core 0.

    Only the table is followed here; the handshake with the started cores,
    which do not write to it, has its own module.  The loop has a closed form:
    an entry depends on its own id and allocations only
    (`bootCores_cores`), and the index on the ids only (`bootCores_bsp`). -/

namespace Pfi

/-! ## `smp_init` -/

/-- What the calls of `avmf_alloc` return, `0` on failure: for the `i`-th id
    its stack, its state and its idle thread, and for the BSP its state and
    its idle thread. -/
structure InitAllocs where
  apStack : Nat → Nat
  apState : Nat → Nat
  apIdle : Nat → Nat
  bspState : Nat
  bspIdle : Nat

/-- `cores` and `bsp_core_idx`. -/
structure CoreTable where
  cores : Nat → Option CoreState := fun _ => none
  bspCoreIdx : Nat := 0

section Init

variable (allocs : InitAllocs) (apicIds : List Nat) (bspApicId : Nat)

/-- An iteration of the loop of `smp_init`. -/
def CoreTable.boot (t : CoreTable) (i : Nat) : CoreTable :=
  if (t.cores i).isSome then t
  else
    let id := apicIds.getD i 0
    if id = bspApicId then { t with bspCoreIdx := i }
    -- a failed allocation leaves the entry `NULL`, and the loop goes on
    else if allocs.apStack i = 0 then t
    else if allocs.apState i = 0 then t
    else if allocs.apIdle i = 0 then t
    else
      { t with
        cores := Function.update t.cores i
          (some
            { self := allocs.apState i
              lapicId := id
              coreIdx := i
              idleThread := allocs.apIdle i
              stack := allocs.apStack i + apStackSize }) }

/-- The table after `n` iterations. -/
def bootCores (n : Nat) : CoreTable :=
  (List.range n).foldl (CoreTable.boot allocs apicIds bspApicId) {}

/-- The end of `smp_init`, which leaves the `stack` of the BSP's state
    unset. -/
def CoreTable.registerBsp (t : CoreTable) : CoreTable :=
  if allocs.bspState = 0 then t
  else
    -- whatever the loop has stored there
    { t with
      cores := Function.update t.cores t.bspCoreIdx
        (some
          { self := allocs.bspState
            lapicId := bspApicId
            coreIdx := t.bspCoreIdx
            idleThread := allocs.bspIdle
            stack := 0 }) }

/-- `smp_init`. -/
def smpInit : CoreTable :=
  (bootCores allocs apicIds bspApicId apicIds.length).registerBsp allocs bspApicId

/-! ## Consistency -/

/-- Every entry knows its index, no entry that the loop filled was
    overwritten, and the BSP, if it has a state, has a place that is listed
    for it or that no AP has. -/
structure Consistent : Prop where
  index : ∀ i cs, (smpInit allocs apicIds bspApicId).cores i = some cs → cs.coreIdx = i
  kept : ∀ n i cs, n ≤ apicIds.length → (bootCores allocs apicIds bspApicId n).cores i = some cs →
    (smpInit allocs apicIds bspApicId).cores i = some cs
  bsp : allocs.bspState ≠ 0 →
    apicIds[(smpInit allocs apicIds bspApicId).bspCoreIdx]? = some bspApicId ∨
      (bootCores allocs apicIds bspApicId apicIds.length).cores
        (smpInit allocs apicIds bspApicId).bspCoreIdx = none

/-- The BSP's id is listed, or there is no first AP to overwrite, because the
    list is empty or one of its allocations fails, or the BSP gets no state. -/
def BspHasPlace : Prop :=
  bspApicId ∈ apicIds ∨ apicIds = [] ∨
    allocs.apStack 0 = 0 ∨ allocs.apState 0 = 0 ∨ allocs.apIdle 0 = 0 ∨ allocs.bspState = 0

instance : Decidable (BspHasPlace allocs apicIds bspApicId) :=
  inferInstanceAs (Decidable (_ ∨ _))

/-! ## The loop in closed form -/

/-- The entry that the loop makes for the `i`-th id. -/
def apEntry (i : Nat) : Option CoreState :=
  if apicIds.getD i 0 = bspApicId ∨ allocs.apStack i = 0 ∨ allocs.apState i = 0 ∨
      allocs.apIdle i = 0 then none
  else
    some
      { self := allocs.apState i
        lapicId := apicIds.getD i 0
        coreIdx := i
        idleThread := allocs.apIdle i
        stack := allocs.apStack i + apStackSize }

variable {allocs apicIds bspApicId}

theorem bootCores_succ (n : Nat) :
    bootCores allocs apicIds bspApicId (n + 1)
      = (bootCores allocs apicIds bspApicId n).boot allocs apicIds bspApicId n := by
  unfold bootCores
  rw [List.range_succ, List.foldl_append, List.foldl_cons, List.foldl_nil]

/-- An iteration whose place is free. -/
theorem boot_free {t : CoreTable} {i : Nat} (hfree : t.cores i = none) :
    (t.boot allocs apicIds bspApicId i).cores
        = Function.update t.cores i (apEntry allocs apicIds bspApicId i) ∧
      (t.boot allocs apicIds bspApicId i).bspCoreIdx
        = if apicIds.getD i 0 = bspApicId then i else t.bspCoreIdx := by
  have hkeep : Function.update t.cores i none = t.cores := by
    rw [← hfree]
    exact Function.update_eq_self i t.cores
  unfold CoreTable.boot apEntry
  rw [hfree, if_neg (by decide)]
  dsimp only
  by_cases hid : apicIds.getD i 0 = bspApicId
  · rw [if_pos hid, if_pos hid, if_pos (Or.inl hid)]
    exact ⟨hkeep.symm, rfl⟩
  · rw [if_neg hid, if_neg hid]
    by_cases hstack : allocs.apStack i = 0
    · rw [if_pos hstack, if_pos (Or.inr (Or.inl hstack))]
      exact ⟨hkeep.symm, rfl⟩
    · rw [if_neg hstack]
      by_cases hstate : allocs.apState i = 0
      · rw [if_pos hstate, if_pos (Or.inr (Or.inr (Or.inl hstate)))]
        exact ⟨hkeep.symm, rfl⟩
      · rw [if_neg hstate]
        by_cases hidle : allocs.apIdle i = 0
        · rw [if_pos hidle, if_pos (Or.inr (Or.inr (Or.inr hidle)))]
          exact ⟨hkeep.symm, rfl⟩
        · rw [if_neg hidle, if_neg]
          · exact ⟨rfl, rfl⟩
          · rintro (h | h | h | h)
            · exact hid h
            · exact hstack h
            · exact hstate h
            · exact hidle h

/-- The first `n` entries are made, each from its own id and allocations. -/
theorem bootCores_cores (n i : Nat) :
    (bootCores allocs apicIds bspApicId n).cores i
      = if i < n then apEntry allocs apicIds bspApicId i else none := by
  induction n generalizing i with
  | zero => rw [if_neg (Nat.not_lt_zero i)]; rfl
  | succ n ih =>
      have hfree : (bootCores allocs apicIds bspApicId n).cores n = none := by
        rw [ih, if_neg (Nat.lt_irrefl n)]
      rw [bootCores_succ, (boot_free hfree).1]
      by_cases hi : i = n
      · rw [hi, Function.update_self, if_pos (Nat.lt_succ_self n)]
      · rw [Function.update_of_ne hi, ih]
        by_cases hlt : i < n
        · rw [if_pos hlt, if_pos (Nat.lt_succ_of_lt hlt)]
        · rw [if_neg hlt, if_neg (by omega)]

/-- The index is that of the BSP's id, if the loop has met it, and else
    `0`. -/
theorem bootCores_bsp (n : Nat) :
    ((bootCores allocs apicIds bspApicId n).bspCoreIdx < n ∧
        apicIds.getD (bootCores allocs apicIds bspApicId n).bspCoreIdx 0 = bspApicId) ∨
      ((bootCores allocs apicIds bspApicId n).bspCoreIdx = 0 ∧
        ∀ i, i < n → apicIds.getD i 0 ≠ bspApicId) := by
  induction n with
  | zero => exact Or.inr ⟨rfl, fun i hi => absurd hi (Nat.not_lt_zero i)⟩
  | succ n ih =>
      have hfree : (bootCores allocs apicIds bspApicId n).cores n = none := by
        rw [bootCores_cores, if_neg (Nat.lt_irrefl n)]
      rw [bootCores_succ, (boot_free hfree).2]
      by_cases hid : apicIds.getD n 0 = bspApicId
      · rw [if_pos hid]
        exact Or.inl ⟨Nat.lt_succ_self n, hid⟩
      · rw [if_neg hid]
        rcases ih with ⟨hlt, hlisted⟩ | ⟨hzero, hnone⟩
        · exact Or.inl ⟨Nat.lt_succ_of_lt hlt, hlisted⟩
        · refine Or.inr ⟨hzero, fun i hi => ?_⟩
          rcases Nat.lt_succ_iff_lt_or_eq.mp hi with hlt | rfl
          · exact hnone i hlt
          · exact hid

theorem apEntry_index {i : Nat} {cs : CoreState}
    (h : apEntry allocs apicIds bspApicId i = some cs) : cs.coreIdx = i := by
  unfold apEntry at h
  split at h
  · cases h
  · cases h
    rfl

/-- The end of `smp_init` keeps the index, and stores at it. -/
theorem smpInit_eq :
    (smpInit allocs apicIds bspApicId).bspCoreIdx
        = (bootCores allocs apicIds bspApicId apicIds.length).bspCoreIdx ∧
      (allocs.bspState = 0 → (smpInit allocs apicIds bspApicId).cores
        = (bootCores allocs apicIds bspApicId apicIds.length).cores) ∧
      (allocs.bspState ≠ 0 → ∃ cs : CoreState,
        cs.coreIdx = (bootCores allocs apicIds bspApicId apicIds.length).bspCoreIdx ∧
        cs.self = allocs.bspState ∧ cs.lapicId = bspApicId ∧
        (smpInit allocs apicIds bspApicId).cores
          = Function.update (bootCores allocs apicIds bspApicId apicIds.length).cores
              (bootCores allocs apicIds bspApicId apicIds.length).bspCoreIdx (some cs)) := by
  unfold smpInit CoreTable.registerBsp
  by_cases hstate : allocs.bspState = 0
  · rw [if_pos hstate]
    exact ⟨rfl, fun _ => rfl, fun h => absurd hstate h⟩
  · rw [if_neg hstate]
    exact ⟨rfl, fun h => absurd h hstate, fun _ => ⟨_, rfl, rfl, rfl, rfl⟩⟩

/-- Every entry knows its index, whatever the list and the allocations. -/
theorem smpInit_index {i : Nat} {cs : CoreState}
    (h : (smpInit allocs apicIds bspApicId).cores i = some cs) : cs.coreIdx = i := by
  have hloop : (bootCores allocs apicIds bspApicId apicIds.length).cores i = some cs →
      cs.coreIdx = i := by
    intro hi
    rw [bootCores_cores] at hi
    split at hi
    · exact apEntry_index hi
    · cases hi
  obtain ⟨-, hnone, hstored⟩ := @smpInit_eq allocs apicIds bspApicId
  by_cases hstate : allocs.bspState = 0
  · rw [hnone hstate] at h
    exact hloop h
  · obtain ⟨cs', hidx, -, -, hcores⟩ := hstored hstate
    rw [hcores] at h
    by_cases hi : i = (bootCores allocs apicIds bspApicId apicIds.length).bspCoreIdx
    · rw [hi, Function.update_self] at h
      cases h
      rw [hidx, hi]
    · rw [Function.update_of_ne hi] at h
      exact hloop h

/-- The table is consistent when no AP has the place at which the BSP's state
    is stored. -/
theorem consistent_of_free
    (hfree : allocs.bspState ≠ 0 →
      (bootCores allocs apicIds bspApicId apicIds.length).cores
        (bootCores allocs apicIds bspApicId apicIds.length).bspCoreIdx = none) :
    Consistent allocs apicIds bspApicId := by
  obtain ⟨hslot, hnone, hstored⟩ := @smpInit_eq allocs apicIds bspApicId
  refine ⟨fun i cs => smpInit_index, ?_, ?_⟩
  · intro n i cs hn hi
    -- what the first iterations filled, the loop has at its end
    have hend : (bootCores allocs apicIds bspApicId apicIds.length).cores i = some cs := by
      rw [bootCores_cores] at hi ⊢
      split at hi
      · rw [if_pos (by omega)]
        exact hi
      · cases hi
    by_cases hstate : allocs.bspState = 0
    · rw [hnone hstate]
      exact hend
    · obtain ⟨cs', -, -, -, hcores⟩ := hstored hstate
      have hne : i ≠ (bootCores allocs apicIds bspApicId apicIds.length).bspCoreIdx := by
        rintro rfl
        rw [hfree hstate] at hend
        cases hend
      rw [hcores, Function.update_of_ne hne]
      exact hend
  · intro hstate
    rw [hslot]
    exact Or.inr (hfree hstate)

/-- A consistent table: the BSP's state has overwritten no AP's. -/
theorem Consistent.free (h : Consistent allocs apicIds bspApicId) (hstate : allocs.bspState ≠ 0) :
    apicIds[(bootCores allocs apicIds bspApicId apicIds.length).bspCoreIdx]? = some bspApicId ∨
      (bootCores allocs apicIds bspApicId apicIds.length).cores
        (bootCores allocs apicIds bspApicId apicIds.length).bspCoreIdx = none := by
  obtain ⟨hslot, -, -⟩ := @smpInit_eq allocs apicIds bspApicId
  have hbsp := h.bsp hstate
  rw [hslot] at hbsp
  exact hbsp

/-- The table of the cores is consistent if and only if the BSP has a
    place. -/
theorem consistent_iff :
    Consistent allocs apicIds bspApicId ↔ BspHasPlace allocs apicIds bspApicId := by
  have hindex := @bootCores_bsp allocs apicIds bspApicId apicIds.length
  constructor
  · intro h
    by_contra hno
    unfold BspHasPlace at hno
    push Not at hno
    obtain ⟨hlisted, hne, hstack, hapState, hidle, hstate⟩ := hno
    have hpos : 0 < apicIds.length := List.length_pos_iff.mpr hne
    have hother : ∀ i, i < apicIds.length → apicIds.getD i 0 ≠ bspApicId := by
      intro i hi hc
      rw [List.getD_eq_getElem _ _ hi] at hc
      exact hlisted (hc ▸ List.getElem_mem hi)
    -- an id that is not listed leaves the BSP the index 0
    have hzero : (bootCores allocs apicIds bspApicId apicIds.length).bspCoreIdx = 0 := by
      rcases hindex with ⟨hlt, hid⟩ | ⟨hzero, -⟩
      · exact absurd hid (hother _ hlt)
      · exact hzero
    rcases h.free hstate with hid | hfree
    · rw [hzero, List.getElem?_eq_getElem hpos] at hid
      exact hlisted (Option.some.inj hid ▸ List.getElem_mem hpos)
    · -- the loop has filled entry 0
      rw [hzero, bootCores_cores, if_pos hpos] at hfree
      unfold apEntry at hfree
      rw [if_neg] at hfree
      · cases hfree
      · rintro (hc | hc | hc | hc)
        · exact hother 0 hpos hc
        · exact hstack hc
        · exact hapState hc
        · exact hidle hc
  · intro hplace
    refine consistent_of_free (fun hstate => ?_)
    rw [bootCores_cores]
    by_cases hlt : (bootCores allocs apicIds bspApicId apicIds.length).bspCoreIdx < apicIds.length
    · rw [if_pos hlt]
      unfold apEntry
      rw [if_pos]
      rcases hindex with ⟨-, hid⟩ | ⟨hzero, hnone⟩
      · exact Or.inl hid
      · rw [hzero] at hlt ⊢
        rcases hplace with hlisted | hempty | hstack | hapState | hidle | hbsp
        · obtain ⟨i, hi, hid⟩ := List.getElem_of_mem hlisted
          exact absurd ((List.getD_eq_getElem _ _ hi).trans hid) (hnone i hi)
        · rw [hempty] at hlt
          exact absurd hlt (Nat.lt_irrefl 0)
        · exact Or.inr (Or.inl hstack)
        · exact Or.inr (Or.inr (Or.inl hapState))
        · exact Or.inr (Or.inr (Or.inr hidle))
        · exact absurd hbsp hstate
    · rw [if_neg hlt]

end Init

/-- All allocations succeed, and the BSP's id 0 is not listed: the state of
    the core with id 1 is lost. -/
theorem unlisted_bsp_overwrites :
    let allocs : InitAllocs := ⟨fun _ => 0x1000, fun _ => 0x2000, fun _ => 0x3000, 0x4000, 0x5000⟩
    ((bootCores allocs [1, 2] 0 2).cores 0).map CoreState.lapicId = some 1 ∧
      ((smpInit allocs [1, 2] 0).cores 0).map CoreState.lapicId = some 0 ∧
      ¬ Consistent allocs [1, 2] 0 := by
  intro allocs
  have hloop : ((bootCores allocs [1, 2] 0 2).cores 0).map CoreState.lapicId = some 1 := by decide
  have hend : ((smpInit allocs [1, 2] 0).cores 0).map CoreState.lapicId = some 0 := by decide
  refine ⟨hloop, hend, fun h => ?_⟩
  obtain ⟨cs, hcs, hid⟩ := Option.map_eq_some_iff.mp hloop
  have hkept := h.kept 2 0 cs (by decide) hcs
  rw [hkept, Option.map_some, hid] at hend
  cases hend

end Pfi
