import Pfi.CoreTable

/-! # What the pages of the core states held before

    `avmf_alloc` does not clear the pages that it hands out.  `smp_init` sets
    the fields of a core state one by one, in a block of code for the APs and
    in another one for the BSP, and `ap_kernel_entry` sets two more.  A field
    that none of them sets keeps what the page held before.

    `reserve_core` is set in neither block.  The block for the BSP leaves out
    `shutdown_core` and `command_lock`, too, and `cur_thread` of an AP is left
    over until that AP enters.  All other fields that the scheduler reads come
    out the same: two runs agree on them all exactly when the old contents
    agree on those few (`leftover_hidden_iff`). -/

namespace Pfi

/-! ## Core states -/

/-- The fields of a `core_state`, without the descriptor table and the task
    state segment. -/
structure CoreFields where
  self : Nat := 0
  lapicId : Nat := 0
  coreIdx : Nat := 0
  shutdownCore : Nat := 0
  reserveCore : Nat := 0
  status : Nat := 0
  curThread : Nat := 0
  idleThread : Nat := 0
  readyList : Nat := 0
  nextTid : Nat := 0
  queueLock : Nat := 0
  commandLock : Nat := 0
  stack : Nat := 0
deriving DecidableEq

abbrev coreStatusReady : Nat := 0
abbrev coreStatusReserved : Nat := 1
abbrev coreStatusRunning : Nat := 2

/-- The pages of the core states: that of the `i`-th id, and that of the
    BSP. -/
inductive CorePage where
  | ap (i : Nat)
  | bsp
deriving DecidableEq

/-- The stores of `smp_init` for an AP, of which `cs` are the values. -/
def CoreFields.initAp (c : CoreFields) (cs : CoreState) : CoreFields :=
  { c with
    self := cs.self
    lapicId := cs.lapicId
    coreIdx := cs.coreIdx
    idleThread := cs.idleThread
    readyList := 0
    queueLock := 0
    commandLock := 0
    stack := cs.stack
    status := coreStatusReady
    nextTid := 0
    shutdownCore := 0 }

/-- The stores for the BSP; its idle thread is `0` where the allocation
    failed. -/
def CoreFields.initBsp (c : CoreFields) (self lapicId coreIdx idle : Nat) : CoreFields :=
  { c with
    self := self
    lapicId := lapicId
    coreIdx := coreIdx
    readyList := 0
    queueLock := 0
    status := coreStatusRunning
    nextTid := 0
    idleThread := idle
    curThread := idle }

/-- What `ap_kernel_entry` stores to the core state: on its way to the loop,
    before and after a halt. -/
inductive CoreAct where
  | enter
  | idle
  | wake
deriving DecidableEq

def CoreFields.act (c : CoreFields) : CoreAct → CoreFields
  | .enter => { c with status := coreStatusRunning, curThread := c.idleThread }
  | .idle =>
      { c with status := if c.reserveCore ≠ 0 then coreStatusReserved else coreStatusReady }
  | .wake => { c with status := coreStatusRunning }

/-- The fields that `smp_push_task`, `smp_yield`, `smp_reserve_core`,
    `smp_unreserve_core`, `smp_get_core_status`, `smp_get_first_free_core` or
    the dispatch loop reads: all but `stack`. -/
def CoreFields.reads (c : CoreFields) : List Nat :=
  [c.self, c.lapicId, c.coreIdx, c.shutdownCore, c.reserveCore, c.status, c.curThread,
    c.idleThread, c.readyList, c.nextTid, c.queueLock, c.commandLock]

section Init

variable (allocs : InitAllocs) (apicIds : List Nat) (bspApicId : Nat)

/-- The core states when `smp_init` has returned and the cores have come as far
    as `acts` says, on pages that held `old` before.  The loop fills the page
    of a core before it registers it. -/
def coreFields (acts : Nat → List CoreAct) (old : CorePage → CoreFields) :
    CorePage → Option CoreFields
  | .ap i =>
      ((bootCores allocs apicIds bspApicId apicIds.length).cores i).map
        (fun cs => (acts i).foldl CoreFields.act ((old (.ap i)).initAp cs))
  | .bsp =>
      if allocs.bspState = 0 then none
      else
        some ((old .bsp).initBsp allocs.bspState bspApicId
          (bootCores allocs apicIds bspApicId apicIds.length).bspCoreIdx allocs.bspIdle)

/-- The `i`-th id is that of an AP and its three allocations succeed. -/
def HasApState (i : Nat) : Prop :=
  i < apicIds.length ∧ apicIds.getD i 0 ≠ bspApicId ∧
    allocs.apStack i ≠ 0 ∧ allocs.apState i ≠ 0 ∧ allocs.apIdle i ≠ 0

/-- The old contents agree where they are left over: for every AP with a state
    on `reserve_core`, and on `cur_thread` if it has not entered; for the BSP on
    `reserve_core`, `shutdown_core` and `command_lock`. -/
structure LeftoverAgree (acts : Nat → List CoreAct) (old old' : CorePage → CoreFields) : Prop where
  reserve : ∀ i, HasApState allocs apicIds bspApicId i →
    (old (.ap i)).reserveCore = (old' (.ap i)).reserveCore
  cur : ∀ i, HasApState allocs apicIds bspApicId i → CoreAct.enter ∉ acts i →
    (old (.ap i)).curThread = (old' (.ap i)).curThread
  bsp : allocs.bspState ≠ 0 →
    (old .bsp).reserveCore = (old' .bsp).reserveCore ∧
      (old .bsp).shutdownCore = (old' .bsp).shutdownCore ∧
      (old .bsp).commandLock = (old' .bsp).commandLock

end Init

/-! ## One core -/

section Core

variable {c c' : CoreFields} {acts : List CoreAct}

/-- No store of the loop is to `reserve_core`. -/
theorem CoreFields.acts_reserveCore (acts : List CoreAct) (c : CoreFields) :
    (acts.foldl act c).reserveCore = c.reserveCore := by
  induction acts generalizing c with
  | nil => rfl
  | cons a acts ih =>
      rw [List.foldl_cons, ih]
      cases a with
      | enter => rfl
      | idle => rfl
      | wake => rfl

/-- `cur_thread` is left alone until the core enters. -/
theorem CoreFields.acts_curThread (hno : CoreAct.enter ∉ acts) :
    (acts.foldl act c).curThread = c.curThread := by
  induction acts generalizing c with
  | nil => rfl
  | cons a acts ih =>
      rw [List.mem_cons, not_or] at hno
      rw [List.foldl_cons, ih hno.2]
      cases a with
      | enter => exact absurd rfl hno.1
      | idle => rfl
      | wake => rfl

/-- Two core states that differ in `cur_thread` at most, as far as they are
    read. -/
def CoreFields.Alike (c c' : CoreFields) : Prop :=
  { c with curThread := 0 }.reads = { c' with curThread := 0 }.reads

theorem CoreFields.reads_eq_iff :
    c.reads = c'.reads ↔ c.Alike c' ∧ c.curThread = c'.curThread := by
  unfold Alike reads
  simp only [List.cons.injEq, and_true, true_and]
  tauto

/-- A store of the loop takes its value from the fields that agree. -/
theorem CoreFields.Alike.act (h : c.Alike c') (a : CoreAct) : (c.act a).Alike (c'.act a) := by
  unfold Alike reads at h ⊢
  simp only [List.cons.injEq, and_true, true_and] at h ⊢
  obtain ⟨hself, hlapic, hidx, hshutdown, hreserve, hstatus, hidle, hready, htid, hqueue, hcommand⟩
    := h
  cases a with
  | enter =>
      exact ⟨hself, hlapic, hidx, hshutdown, hreserve, rfl, hidle, hready, htid, hqueue, hcommand⟩
  | idle =>
      refine ⟨hself, hlapic, hidx, hshutdown, hreserve, ?_, hidle, hready, htid, hqueue, hcommand⟩
      -- the status is the only field that is computed, from `reserve_core`
      show (if c.reserveCore ≠ 0 then _ else _) = if c'.reserveCore ≠ 0 then _ else _
      rw [hreserve]
  | wake =>
      exact ⟨hself, hlapic, hidx, hshutdown, hreserve, rfl, hidle, hready, htid, hqueue, hcommand⟩

theorem CoreFields.Alike.idleThread (h : c.Alike c') : c.idleThread = c'.idleThread := by
  unfold Alike reads at h
  simp only [List.cons.injEq] at h
  exact h.2.2.2.2.2.2.2.1

/-- What a core has stored is the same from two states that are alike, once it
    has entered or when `cur_thread` was the same. -/
theorem CoreFields.Alike.reads_acts (acts : List CoreAct) : ∀ {c c' : CoreFields}, c.Alike c' →
    (CoreAct.enter ∉ acts → c.curThread = c'.curThread) →
    (acts.foldl CoreFields.act c).reads = (acts.foldl CoreFields.act c').reads := by
  induction acts with
  | nil =>
      intro c c' h hcur
      exact CoreFields.reads_eq_iff.mpr ⟨h, hcur List.not_mem_nil⟩
  | cons a acts ih =>
      intro c c' h hcur
      rw [List.foldl_cons, List.foldl_cons]
      refine ih (h.act a) (fun hno => ?_)
      cases a with
      -- from here on `cur_thread` is no longer what the page held
      | enter => exact h.idleThread
      | idle => exact hcur (fun hc => (List.mem_cons.mp hc).elim (fun he => by cases he) hno)
      | wake => exact hcur (fun hc => (List.mem_cons.mp hc).elim (fun he => by cases he) hno)

/-- When two pages give an AP the same fields. -/
theorem CoreFields.ap_reads_iff (cs : CoreState) :
    (acts.foldl act (c.initAp cs)).reads = (acts.foldl act (c'.initAp cs)).reads ↔
      c.reserveCore = c'.reserveCore ∧
        (CoreAct.enter ∉ acts → c.curThread = c'.curThread) := by
  constructor
  · intro h
    obtain ⟨halike, hcur⟩ := reads_eq_iff.mp h
    have hreserve : (acts.foldl act (c.initAp cs)).reserveCore
        = (acts.foldl act (c'.initAp cs)).reserveCore := by
      unfold Alike reads at halike
      simp only [List.cons.injEq] at halike
      exact halike.2.2.2.2.1
    rw [acts_reserveCore, acts_reserveCore] at hreserve
    refine ⟨hreserve, fun hno => ?_⟩
    rw [acts_curThread hno, acts_curThread hno] at hcur
    exact hcur
  · rintro ⟨hreserve, hcur⟩
    refine Alike.reads_acts acts ?_ hcur
    unfold Alike reads initAp
    dsimp only
    rw [hreserve]

/-- When two pages give the BSP the same fields. -/
theorem CoreFields.bsp_reads_iff (self lapicId coreIdx idle : Nat) :
    (c.initBsp self lapicId coreIdx idle).reads = (c'.initBsp self lapicId coreIdx idle).reads ↔
      c.reserveCore = c'.reserveCore ∧ c.shutdownCore = c'.shutdownCore ∧
        c.commandLock = c'.commandLock := by
  unfold reads initBsp
  simp only [List.cons.injEq, and_true, true_and]
  tauto

end Core

/-! ## All cores -/

section All

variable {allocs : InitAllocs} {apicIds : List Nat} {bspApicId : Nat}

/-- The APs that `smp_init` registers. -/
theorem hasApState_iff {i : Nat} :
    (∃ cs, (bootCores allocs apicIds bspApicId apicIds.length).cores i = some cs) ↔
      HasApState allocs apicIds bspApicId i := by
  unfold HasApState
  rw [bootCores_cores]
  by_cases hi : i < apicIds.length
  · rw [if_pos hi]
    unfold apEntry
    by_cases hno : apicIds.getD i 0 = bspApicId ∨ allocs.apStack i = 0 ∨ allocs.apState i = 0 ∨
        allocs.apIdle i = 0
    · rw [if_pos hno]
      refine iff_of_false (fun ⟨cs, hc⟩ => by cases hc) ?_
      rintro ⟨-, hid, hstack, hstate, hidle⟩
      rcases hno with h | h | h | h
      · exact hid h
      · exact hstack h
      · exact hstate h
      · exact hidle h
    · rw [if_neg hno]
      push Not at hno
      exact iff_of_true ⟨_, rfl⟩ ⟨hi, hno⟩
  · rw [if_neg hi]
    exact iff_of_false (fun ⟨cs, hc⟩ => by cases hc) (fun h => hi h.1)

/-- Two runs on different old contents agree on all fields that the scheduler
    reads exactly when the contents agree where they are left over. -/
theorem leftover_hidden_iff (acts : Nat → List CoreAct) (old old' : CorePage → CoreFields) :
    (∀ page, (coreFields allocs apicIds bspApicId acts old page).map CoreFields.reads
        = (coreFields allocs apicIds bspApicId acts old' page).map CoreFields.reads) ↔
      LeftoverAgree allocs apicIds bspApicId acts old old' := by
  have hap : ∀ {i : Nat} {cs : CoreState},
      (bootCores allocs apicIds bspApicId apicIds.length).cores i = some cs →
      ((coreFields allocs apicIds bspApicId acts old (.ap i)).map CoreFields.reads
          = (coreFields allocs apicIds bspApicId acts old' (.ap i)).map CoreFields.reads ↔
        (old (.ap i)).reserveCore = (old' (.ap i)).reserveCore ∧
          (CoreAct.enter ∉ acts i → (old (.ap i)).curThread = (old' (.ap i)).curThread)) := by
    intro i cs hcs
    unfold coreFields
    dsimp only
    rw [hcs, Option.map_some, Option.map_some, Option.map_some, Option.map_some,
      Option.some_inj]
    exact CoreFields.ap_reads_iff cs
  have hbsp : allocs.bspState ≠ 0 →
      ((coreFields allocs apicIds bspApicId acts old .bsp).map CoreFields.reads
          = (coreFields allocs apicIds bspApicId acts old' .bsp).map CoreFields.reads ↔
        (old .bsp).reserveCore = (old' .bsp).reserveCore ∧
          (old .bsp).shutdownCore = (old' .bsp).shutdownCore ∧
          (old .bsp).commandLock = (old' .bsp).commandLock) := by
    intro hstate
    unfold coreFields
    dsimp only
    rw [if_neg hstate, if_neg hstate, Option.map_some, Option.map_some, Option.some_inj]
    exact CoreFields.bsp_reads_iff ..
  constructor
  · intro h
    refine ⟨fun i hi => ?_, fun i hi => ?_, fun hstate => (hbsp hstate).mp (h .bsp)⟩
    · obtain ⟨cs, hcs⟩ := hasApState_iff.mpr hi
      exact ((hap hcs).mp (h (.ap i))).1
    · obtain ⟨cs, hcs⟩ := hasApState_iff.mpr hi
      exact ((hap hcs).mp (h (.ap i))).2
  · intro h page
    cases page with
    | ap i =>
        cases hcs : (bootCores allocs apicIds bspApicId apicIds.length).cores i with
        -- no state was registered, so there is nothing to compare
        | none =>
            unfold coreFields
            dsimp only
            rw [hcs]
            rfl
        | some cs =>
            have hi := hasApState_iff.mp ⟨cs, hcs⟩
            exact (hap hcs).mpr ⟨h.reserve i hi, h.cur i hi⟩
    | bsp =>
        by_cases hstate : allocs.bspState = 0
        · unfold coreFields
          dsimp only
          rw [if_pos hstate, if_pos hstate]
        · exact (hbsp hstate).mpr (h.bsp hstate)

/-- Cores 0 and 1, with the BSP's id 0, on pages of zeros and on a page for
    core 1 whose byte at `reserve_core` is 1: after its first turn core 1 calls
    itself reserved in the second run only. -/
theorem leftover_reserves_core :
    let allocs : InitAllocs := ⟨fun _ => 0x1000, fun _ => 0x2000, fun _ => 0x3000, 0x4000, 0x5000⟩
    let acts : Nat → List CoreAct := fun _ => [.enter, .idle]
    let old : CorePage → CoreFields := fun _ => {}
    let old' : CorePage → CoreFields :=
      fun page => if page = .ap 1 then { reserveCore := 1 } else {}
    (coreFields allocs [0, 1] 0 acts old (.ap 1)).map CoreFields.status = some coreStatusReady ∧
      (coreFields allocs [0, 1] 0 acts old' (.ap 1)).map CoreFields.status
        = some coreStatusReserved ∧
      ¬ ∀ page, (coreFields allocs [0, 1] 0 acts old page).map CoreFields.reads
        = (coreFields allocs [0, 1] 0 acts old' page).map CoreFields.reads := by
  intro allocs acts old old'
  refine ⟨by decide, by decide, fun h => ?_⟩
  have hap := h (.ap 1)
  revert hap
  decide

end All

end Pfi
