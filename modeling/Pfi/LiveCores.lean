import Pfi.CalmBoot
import Pfi.Wakeup
import Pfi.YieldOrder

/-! # The cores that are offered

    `smp_get_first_free_core` returns the first core whose status is READY.
    The status of a core state has two writers: `smp_init` sets it to READY
    before it starts the core, and the core sets it to RUNNING when it has
    come up, and to READY or RESERVED around each halt of its dispatch loop.

    A core that never checks in leaves it as `smp_init` has set it, and is
    offered.  A core that has checked in and is not halted has the status
    RUNNING (`OffersOk.awake`), so whoever reads READY has found a core that
    halts or wakes up; but it may take a task before the call returns.  If
    neither happens and no core is started twice, only live cores are offered
    (`first_free_core_live`).

    The boot, the dispatch loops and the calls of `smp_push_task` are those of
    their own modules, here put together: a core state is found by its
    address, a processor by its APIC id, and all of them take their steps in
    any order.  `smp_shutdown` is left out. -/

namespace Pfi

open Run

/-! ## The system -/

/-- Where a call of `smp_get_first_free_core` stands. -/
inductive LookupPc where
  | scan (i : Nat)
  /-- The status of `cores[i]` was read as READY. -/
  | found (i : Nat)
  | returned
deriving Repr, DecidableEq

/-- The boot, the core states by their addresses (their `cpu` is not used),
    what the processors execute by their APIC ids, and the calls of
    `smp_get_first_free_core` so far.  `bspSlot` is the index at which
    `smp_init` has stored the state of the BSP, and `initDone` tells that it
    has returned. -/
structure Offers where
  boot : Boot := {}
  bspCoreIdx : Nat := 0
  bspSlot : Option Nat := none
  initDone : Bool := false
  states : Nat → Smp
  cpus : Nat → Cpu := fun _ => .off
  lookups : List LookupPc := []

/-- The steps: of `smp_init`, of a processor, of a call of `smp_push_task`
    for core `i`, of `smp_reserve_core` and `smp_unreserve_core`, and of the
    calls of `smp_get_first_free_core`. -/
inductive OffersAct where
  | bsp (b : Bool)
  | ap (a : Nat) (b : Bool)
  | push (i p new : Nat)
  | reserve (i : Nat) (b : Bool)
  | call
  | look (p : Nat)
deriving Repr, DecidableEq

/-- The state of an AP in `cores[i]`.  That of the BSP stays RUNNING, and the
    BSP dispatches nothing. -/
def Offers.slot (s : Offers) (i : Nat) : Option CoreState :=
  if s.bspSlot = some i then none else s.boot.cores i

def Offers.setState (s : Offers) (core : Nat) (m : Smp) : Offers :=
  { s with states := Function.update s.states core m }

/-- The stores of `smp_init` to a core state, which leave `reserve_core` and
    `cur_thread` as they are. -/
def Smp.prepared (m : Smp) (idleThread : Nat) : Smp :=
  { idleThread := idleThread, reserveCore := m.reserveCore, curThread := m.curThread }

/-- A step of processor `a` in its dispatch loop or in a thread. -/
def Offers.runs (s : Offers) (a core : Nat) : Offers :=
  let m := Smp.yieldOnly { s.states core with cpu := s.cpus a }
  { s with
    states := Function.update s.states core m
    cpus := Function.update s.cpus a m.cpu }

/-- The stores of `ap_kernel_entry` before the flag. -/
def Smp.enter (m : Smp) : Smp := loopStep (loopStep m .enterStatus) .enterCur

section Steps

variable (apicIds : List Nat) (bspApicId : Nat)

/-- A step of `smp_init`. -/
def Offers.bsp (s : Offers) (b : Bool) : Offers :=
  match s.boot.pc with
  | .next =>
      { s with
        boot := s.boot.bsp apicIds bspApicId b
        bspCoreIdx :=
          if s.boot.cores s.boot.i = none ∧ apicIds[s.boot.i]? = some bspApicId then s.boot.i
          else s.bspCoreIdx }
  | .mailStack cs =>
      { s.setState cs.self ((s.states cs.self).prepared cs.idleThread) with
        boot := s.boot.bsp apicIds bspApicId b }
  | .done =>
      if s.initDone then s
      else
        let (state, boot) := s.boot.avmfAlloc pageSize b
        { s with
          boot := boot
          bspSlot := if state = 0 then none else some s.bspCoreIdx
          initDone := true }
  | _ => { s with boot := s.boot.bsp apicIds bspApicId b }

/-- A step of the AP with APIC id `a`. -/
def Offers.ap (s : Offers) (a : Nat) (b : Bool) : Offers :=
  match s.boot.aps a with
  | .online r => s.runs a r.core
  | .allocMemoryEmergency r =>
      { s.setState r.core (s.states r.core).enter with boot := s.boot.ap a b }
  | .setFlag _ =>
      { s with boot := s.boot.ap a b, cpus := Function.update s.cpus a (.loop .top) }
  | _ => { s with boot := s.boot.ap a b }

/-- A step of the `p`-th call of `smp_get_first_free_core`. -/
def Offers.look (s : Offers) (p : Nat) : Offers :=
  match s.lookups[p]? with
  | some (.scan i) =>
      if 255 < i then { s with lookups := s.lookups.set p .returned }
      else
        match s.slot i with
        | none => { s with lookups := s.lookups.set p (.scan (i + 1)) }
        | some cs =>
            if (s.states cs.self).status = .ready then
              { s with lookups := s.lookups.set p (.found i) }
            else { s with lookups := s.lookups.set p (.scan (i + 1)) }
  | some (.found _) => { s with lookups := s.lookups.set p .returned }
  | some .returned => s
  | none => s

/-- The index that the `p`-th call returns with its next step. -/
def Offers.returns (s : Offers) (p : Nat) : Option Nat :=
  match s.lookups[p]? with
  | some (.found i) => (s.slot i).map (fun cs => cs.coreIdx)
  | _ => none

/-- A step of the system.  The scheduler is called when `smp_init` has
    returned. -/
def Offers.step (s : Offers) : OffersAct → Offers
  | .bsp b => s.bsp apicIds bspApicId b
  | .ap a b => s.ap a b
  | .push i p new =>
      if s.initDone ∧ i ≤ 255 then
        match s.slot i with
        | none => s
        | some cs => s.setState cs.self (pushStep (s.states cs.self) p new)
      else s
  | .reserve i b =>
      if s.initDone ∧ i ≤ 255 then
        match s.slot i with
        | none => s
        | some cs => s.setState cs.self { s.states cs.self with reserveCore := b }
      else s
  | .call => if s.initDone then { s with lookups := s.lookups ++ [.scan 0] } else s
  | .look p => s.look p

/-! ## Live cores -/

/-- The processor runs a thread. -/
def Cpu.inTask : Cpu → Bool
  | .task _ => true
  | .yield _ _ => true
  | _ => false

/-- Core `j` has set the flag and does not run a task. -/
def Offers.Live (s : Offers) (j : Nat) : Prop :=
  ∃ a r, apicIds[j]? = some a ∧ s.boot.aps a = .online r ∧ (s.cpus a).inTask = false

/-- A call that returns a core returns a live one. -/
def Offers.ReturnsLive (s : Offers) : OffersAct → Prop
  | .look p => ∀ j, s.returns p = some j → s.Live apicIds j
  | _ => True

/-- The processor is about to switch to a thread. -/
def Cpu.loads : Cpu → Bool
  | .loop (.load _) => true
  | _ => false

/-- The APIC id of the core that a call is about to return. -/
def LookupPc.apicId : LookupPc → Option Nat
  | .found i => apicIds[i]?
  | _ => none

/-- The wait for a core ends with the flag set, an interrupt goes to a core
    that is off, and no core takes a task that a call is about to return. -/
def Offers.OnTime (s : Offers) : OffersAct → Prop
  | .bsp b => s.boot.Calm apicIds (.bsp b)
  | .ap a _ => (s.cpus a).loads = true → ∀ pc ∈ s.lookups, pc.apicId apicIds ≠ some a
  | _ => True

instance decidableOffersOnTime (s : Offers) : (act : OffersAct) → Decidable (s.OnTime apicIds act)
  | .bsp b => inferInstanceAs (Decidable (s.boot.Calm apicIds (.bsp b)))
  | .ap a _ =>
      inferInstanceAs
        (Decidable ((s.cpus a).loads = true → ∀ pc ∈ s.lookups, pc.apicId apicIds ≠ some a))
  | .push _ _ _ => isTrue trivial
  | .reserve _ _ => isTrue trivial
  | .call => isTrue trivial
  | .look _ => isTrue trivial

end Steps

/-! ## The status of a core -/

/-- The processor is halted, or woke up and has not said so. -/
def Cpu.halts : Cpu → Bool
  | .loop .hlt => true
  | .loop .setRunning => true
  | _ => false

/-- Unless the core halts, its status is RUNNING. -/
def Smp.Awake (m : Smp) : Prop := m.cpu.halts = false → m.status = .running

theorem Smp.resume_status (m : Smp) (t : Nat) : (m.resume t).status = m.status := by
  unfold Smp.resume
  cases m.saved t with
  | none => rfl
  | some r =>
      cases r with
      | thread u => rfl
      | loop => rfl

/-- The dispatch loop sets its status on both sides of the halt. -/
theorem Smp.Awake.loop {m : Smp} {pc : LoopPc} (h : m.Awake) (hpc : m.cpu = .loop pc) :
    (loopStep m pc).Awake := by
  have hrun : (Cpu.loop pc).halts = false → m.status = .running := by
    rw [← hpc]
    exact h
  cases pc with
  | enterStatus => exact fun _ => rfl
  | enterCur => exact fun _ => hrun rfl
  | top => exact fun _ => hrun rfl
  | check => exact fun _ => hrun rfl
  | pop =>
      intro _
      simp only [loopStep]
      cases m.readyList with
      | none => exact hrun rfl
      | some n => exact hrun rfl
  | readPrev n => exact fun _ => hrun rfl
  | setCur prev n => exact fun _ => hrun rfl
  | setStatus prev n => exact fun _ => hrun rfl
  | save prev n => exact fun _ => hrun rfl
  | load n => exact fun _ => (m.resume_status n).trans (hrun rfl)
  | readReserve => exact fun _ => hrun rfl
  -- the status is given up together with the place before the halt
  | setIdleStatus reserved =>
      intro hc
      cases hc
  | hlt =>
      intro hc
      cases hc
  | setRunning => exact fun _ => rfl

theorem Smp.Awake.yieldOnly {m : Smp} (h : m.Awake) : m.yieldOnly.Awake := by
  unfold Smp.yieldOnly
  cases hcpu : m.cpu with
  | loop pc => exact h.loop hcpu
  | task t =>
      have hrun : m.status = .running := h (by rw [hcpu]; rfl)
      exact fun _ => hrun
  | yield t pc =>
      have hrun : m.status = .running := h (by rw [hcpu]; rfl)
      intro _
      cases pc with
      | load idle => exact (m.resume_status idle).trans hrun
      | readCur => exact hrun
      | readIdle cur => exact hrun
      | setReady cur idle => exact hrun
      | push cur idle => exact hrun
      | setCur cur idle => exact hrun
      | save cur idle => exact hrun
  | off => exact h
  | wild => exact h

/-- A thread is taken with the load of its stack only. -/
theorem Smp.yieldOnly_inTask {m : Smp} (htask : m.cpu.inTask = false)
    (hloads : m.cpu.loads = false) : m.yieldOnly.cpu.inTask = false := by
  unfold Smp.yieldOnly
  cases hcpu : m.cpu with
  | loop pc =>
      rw [hcpu] at hloads
      cases pc with
      | load n => cases hloads
      | check =>
          simp only [loopStep]
          split
          · rfl
          · rfl
      | top =>
          simp only [loopStep]
          split
          · rfl
          · rfl
      | pop =>
          simp only [loopStep]
          cases m.readyList with
          | none => rfl
          | some n => rfl
      | enterStatus => rfl
      | enterCur => rfl
      | readPrev n => rfl
      | setCur prev n => rfl
      | setStatus prev n => rfl
      | save prev n => rfl
      | readReserve => rfl
      | setIdleStatus reserved => rfl
      | hlt => rfl
      | setRunning => rfl
  | task t =>
      rw [hcpu] at htask
      cases htask
  | yield t pc =>
      rw [hcpu] at htask
      cases htask
  | off => exact htask
  | wild => exact htask

/-! ## The invariant -/

/-- A core that is about to set the flag, or awake behind it, has the status
    RUNNING, and a core that a call is about to return is live. -/
structure OffersOk (apicIds : List Nat) (s : Offers) : Prop where
  boot : CalmOk apicIds s.boot
  entered : ∀ a r, s.boot.aps a = .setFlag r → (s.states r.core).status = .running
  awake : ∀ a r, s.boot.aps a = .online r → (s.cpus a).halts = false →
    (s.states r.core).status = .running
  done : s.initDone = true → s.boot.pc = .done
  called : ∀ pc ∈ s.lookups, s.initDone = true
  found : ∀ i, .found i ∈ s.lookups → s.Live apicIds i

section Invariant

variable {apicIds : List Nat} {s : Offers}

theorem offersOk_init (old : Nat → Smp) : OffersOk apicIds { states := old } where
  boot := calmOk_init
  entered := by
    intro a r hr
    cases hr
  awake := by
    intro a r hr
    cases hr
  done := by
    intro hc
    cases hc
  called := by
    intro pc hpc
    cases hpc
  found := by
    intro i hi
    cases hi

/-- When `smp_init` has returned, every processor is off or online. -/
theorem OffersOk.at_rest (h : OffersOk apicIds s) (hdone : s.initDone = true) (a : Nat) :
    s.boot.aps a = .off ∨ ∃ r, s.boot.aps a = .online r :=
  h.boot.at_rest (Boot.not_waits (h.done hdone) (by decide) (by decide)) a

theorem Offers.slot_cores {i : Nat} {cs : CoreState} (hslot : s.slot i = some cs) :
    s.boot.cores i = some cs := by
  unfold Offers.slot at hslot
  by_cases hbsp : s.bspSlot = some i
  · rw [if_pos hbsp] at hslot
    cases hslot
  · rw [if_neg hbsp] at hslot
    exact hslot

/-- A call whose status read finds READY has found a live core. -/
theorem OffersOk.live (h : OffersOk apicIds s) (hdone : s.initDone = true) {i : Nat}
    {cs : CoreState} (hslot : s.slot i = some cs)
    (hready : (s.states cs.self).status = .ready) : s.Live apicIds i := by
  have hcs := Offers.slot_cores hslot
  obtain ⟨a, ha⟩ := h.boot.listed i cs hcs
  have hpc := h.done hdone
  have hipi : s.boot.pc ≠ .sendIpi := by
    rw [hpc]
    decide
  obtain ⟨r, hr, hindex⟩ :=
    h.boot.online (Boot.not_waits hpc (by decide) (by decide)) hipi hcs ha
  -- the core runs with the state whose status was read
  have hcore : r.core = cs.self := by
    have hap := h.boot.aps a
    rw [hr] at hap
    obtain ⟨-, ct, hct, -, hself⟩ := hap i (by rw [← hindex]; rfl)
    rw [hcs] at hct
    rw [Option.some.inj hct]
    exact hself r.core List.mem_cons_self
  refine ⟨a, r, ha, hr, ?_⟩
  -- in a thread its status would be RUNNING
  cases hcpu : s.cpus a with
  | loop pc => rfl
  | off => rfl
  | wild => rfl
  | task t =>
      have hrun := h.awake a r hr (by rw [hcpu]; rfl)
      rw [hcore, hready] at hrun
      cases hrun
  | yield t pc =>
      have hrun := h.awake a r hr (by rw [hcpu]; rfl)
      rw [hcore, hready] at hrun
      cases hrun

/-! ## The steps of the boot -/

/-- A step of the boot that brings no processor to the flag, and stores to no
    core state that one of them runs with. -/
theorem OffersOk.moved {boot : Boot} {states : Nat → Smp} (h : OffersOk apicIds s)
    (hboot : CalmOk apicIds boot)
    (hset : ∀ a r, boot.aps a = .setFlag r → s.boot.aps a = .setFlag r)
    (honline : ∀ a r, boot.aps a = .online r → s.boot.aps a = .online r)
    (hstates : ∀ a, ∀ core ∈ (s.boot.aps a).coreState, states core = s.states core)
    (hdone : s.initDone = false) (idx : Nat) :
    OffersOk apicIds { s with boot := boot, bspCoreIdx := idx, states := states } where
  boot := hboot
  entered := by
    intro a r hr
    have hold := hset a r hr
    dsimp only
    rw [hstates a r.core (by rw [hold]; exact List.mem_cons_self)]
    exact h.entered a r hold
  awake := by
    intro a r hr hhalts
    have hold := honline a r hr
    dsimp only
    rw [hstates a r.core (by rw [hold]; exact List.mem_cons_self)]
    exact h.awake a r hold hhalts
  done := by
    intro hc
    exact absurd (hdone.symm.trans hc) (by decide)
  called := h.called
  found := by
    intro i hi
    exact absurd (hdone.symm.trans (h.called _ hi)) (by decide)

/-- The core state that is being prepared is nobody's. -/
theorem OffersOk.fresh (h : OffersOk apicIds s) {cs : CoreState}
    (hpc : s.boot.pc = .mailStack cs) (a : Nat) :
    ∀ core ∈ (s.boot.aps a).coreState, core ≠ cs.self := by
  intro core hcore
  have hbsp := h.boot.bsp
  rw [hpc] at hbsp
  obtain ⟨i, hi⟩ := ApPc.index_of_coreState hcore
  obtain ⟨-, ct, hct, -, hself⟩ := h.boot.aps a i hi
  rw [hself core hcore]
  exact hbsp.2.2.2 i ct hct

theorem OffersOk.bsp (h : OffersOk apicIds s) (bspApicId : Nat) {b : Bool}
    (hcalm : s.boot.Calm apicIds (.bsp b)) : OffersOk apicIds (s.bsp apicIds bspApicId b) := by
  have hboot := h.boot.bspStep bspApicId hcalm
  have hset : ∀ a r, (s.boot.bsp apicIds bspApicId b).aps a = .setFlag r →
      s.boot.aps a = .setFlag r :=
    fun a r hr => Boot.aps_of_bsp hr (fun _ => ApPc.noConfusion)
  have honline : ∀ a r, (s.boot.bsp apicIds bspApicId b).aps a = .online r →
      s.boot.aps a = .online r :=
    fun a r hr => Boot.aps_of_bsp hr (fun _ => ApPc.noConfusion)
  by_cases hpc : s.boot.pc = .done
  · simp only [Offers.bsp, hpc]
    by_cases hdone : s.initDone = true
    · rw [if_pos hdone]
      exact h
    · rw [if_neg hdone]
      obtain ⟨v, n, halloc, hn, -⟩ := s.boot.avmfAlloc_cases pageSize b
      rw [halloc]
      exact
        { boot := h.boot.grow hn
          entered := h.entered
          awake := h.awake
          done := fun _ => hpc
          called := fun _ _ => rfl
          found := fun i hi => absurd (h.called _ hi) hdone }
  · -- before the end of `smp_init` no call has begun
    have hrun : s.initDone = false := by
      cases hdone : s.initDone with
      | false => rfl
      | true => exact absurd (h.done hdone) hpc
    have hmoved := fun idx => h.moved hboot hset honline (fun _ _ _ => rfl) hrun idx
    unfold Offers.bsp
    cases hcase : s.boot.pc with
    | next => exact hmoved _
    | mailStack cs =>
        refine h.moved hboot hset honline ?_ hrun s.bspCoreIdx
        intro a core hcore
        exact Function.update_of_ne (h.fresh hcase a core hcore) _ _
    | clearFlag => exact hmoved s.bspCoreIdx
    | allocStack => exact hmoved s.bspCoreIdx
    | allocState apStack => exact hmoved s.bspCoreIdx
    | allocIdle apStack apState => exact hmoved s.bspCoreIdx
    | mailState cs => exact hmoved s.bspCoreIdx
    | register cs => exact hmoved s.bspCoreIdx
    | sendIpi => exact hmoved s.bspCoreIdx
    | checkFlag => exact hmoved s.bspCoreIdx
    | spin => exact hmoved s.bspCoreIdx
    | report => exact hmoved s.bspCoreIdx
    | done => exact absurd hcase hpc

/-- The states change, but no status does. -/
theorem OffersOk.sameStatus {states : Nat → Smp} (h : OffersOk apicIds s)
    (hstatus : ∀ core, (states core).status = (s.states core).status) :
    OffersOk apicIds { s with states := states } where
  boot := h.boot
  entered := by
    intro a r hr
    exact (hstatus r.core).trans (h.entered a r hr)
  awake := by
    intro a r hr hhalts
    exact (hstatus r.core).trans (h.awake a r hr hhalts)
  done := h.done
  called := h.called
  found := h.found

theorem OffersOk.setState {core : Nat} {m : Smp} (h : OffersOk apicIds s)
    (hstatus : m.status = (s.states core).status) : OffersOk apicIds (s.setState core m) := by
  refine h.sameStatus ?_
  intro c
  by_cases hc : c = core
  · rw [hc, Function.update_self]
    exact hstatus
  · rw [Function.update_of_ne hc]

/-! ## The steps of the processors -/

/-- A processor that is on its way to the dispatch loop moves before the end of
    `smp_init`. -/
theorem OffersOk.booting (h : OffersOk apicIds s) {a : Nat} (hoff : s.boot.aps a ≠ .off)
    (honline : ∀ r, s.boot.aps a ≠ .online r) : s.initDone = false := by
  cases hdone : s.initDone with
  | false => rfl
  | true =>
      rcases h.at_rest hdone a with hc | ⟨r, hr⟩
      · exact absurd hc hoff
      · exact absurd hr (honline r)

/-- A processor that runs has a core state of its own. -/
theorem OffersOk.core_ne (h : OffersOk apicIds s) {a c core core' : Nat} (hne : c ≠ a)
    (hcore : core ∈ (s.boot.aps a).coreState) (hcore' : core' ∈ (s.boot.aps c).coreState) :
    core' ≠ core := by
  rintro rfl
  exact h.boot.handshake.cores c a hne core' hcore' hcore

/-- A step in the dispatch loop or in a thread. -/
theorem OffersOk.runs (h : OffersOk apicIds s) {a : Nat} {r : ApRun}
    (hpc : s.boot.aps a = .online r)
    (htime : (s.cpus a).loads = true → ∀ pc ∈ s.lookups, pc.apicId apicIds ≠ some a) :
    OffersOk apicIds (s.runs a r.core) where
  boot := h.boot
  entered := by
    intro c q hq
    dsimp only [Offers.runs] at hq ⊢
    have hne : c ≠ a := by
      rintro rfl
      rw [hpc] at hq
      cases hq
    have hcore : q.core ≠ r.core :=
      h.core_ne hne (by rw [hpc]; exact List.mem_cons_self) (by rw [hq]; exact List.mem_cons_self)
    rw [Function.update_of_ne hcore]
    exact h.entered c q hq
  awake := by
    intro c q hq hhalts
    dsimp only [Offers.runs] at hq hhalts ⊢
    by_cases hne : c = a
    · rw [hne, hpc] at hq
      obtain rfl := ApPc.online.inj hq
      rw [hne, Function.update_self] at hhalts
      rw [Function.update_self]
      have hawake : Smp.Awake { s.states r.core with cpu := s.cpus a } := h.awake a r hpc
      exact hawake.yieldOnly hhalts
    · have hcore : q.core ≠ r.core :=
        h.core_ne hne (by rw [hpc]; exact List.mem_cons_self)
          (by rw [hq]; exact List.mem_cons_self)
      rw [Function.update_of_ne hne] at hhalts
      rw [Function.update_of_ne hcore]
      exact h.awake c q hq hhalts
  done := h.done
  called := h.called
  found := by
    intro i hi
    obtain ⟨c, q, hid, hq, htask⟩ := h.found i hi
    refine ⟨c, q, hid, hq, ?_⟩
    dsimp only [Offers.runs]
    by_cases hne : c = a
    · rw [hne, Function.update_self]
      -- a call is about to return this core, so it does not take a task now
      have hloads : (s.cpus a).loads = false := by
        cases hl : (s.cpus a).loads with
        | false => rfl
        | true =>
            rw [hne] at hid
            exact absurd hid (htime hl _ hi)
      rw [hne] at htask
      exact Smp.yieldOnly_inTask htask hloads
    · rw [Function.update_of_ne hne]
      exact htask

/-- Where a processor stands when one has moved. -/
theorem aps_update {aps : Nat → ApPc} {a c : Nat} {pc pc' : ApPc}
    (h : Function.update aps a pc c = pc') : (c = a ∧ pc = pc') ∨ (c ≠ a ∧ aps c = pc') := by
  by_cases hc : c = a
  · rw [hc, Function.update_self] at h
    exact Or.inl ⟨hc, h⟩
  · rw [Function.update_of_ne hc] at h
    exact Or.inr ⟨hc, h⟩

/-- A step before the stores that precede the flag. -/
theorem OffersOk.onWay (h : OffersOk apicIds s) {a : Nat} {b : Bool} {pc : ApPc}
    (haps : (s.boot.ap a b).aps = Function.update s.boot.aps a pc)
    (hset : ∀ r, pc ≠ .setFlag r) (honline : ∀ r, pc ≠ .online r) (hrun : s.initDone = false) :
    OffersOk apicIds { s with boot := s.boot.ap a b } := by
  refine h.moved (h.boot.apStep a b) ?_ ?_ (fun _ _ _ => rfl) hrun s.bspCoreIdx
  · intro c r hr
    rw [haps] at hr
    rcases aps_update hr with ⟨-, hnew⟩ | ⟨-, hold⟩
    · exact absurd hnew (hset r)
    · exact hold
  · intro c r hr
    rw [haps] at hr
    rcases aps_update hr with ⟨-, hnew⟩ | ⟨-, hold⟩
    · exact absurd hnew (honline r)
    · exact hold

/-- The stores that precede the flag. -/
theorem OffersOk.enter (h : OffersOk apicIds s) {a : Nat} {b : Bool} {r : ApRun}
    (hpc : s.boot.aps a = .allocMemoryEmergency r) (hrun : s.initDone = false) :
    OffersOk apicIds
      { s.setState r.core (s.states r.core).enter with boot := s.boot.ap a b } := by
  have haps : (s.boot.ap a b).aps = Function.update s.boot.aps a (.setFlag r) := by
    rw [Boot.ap, hpc]
  have hne : ∀ c (q : ApRun), c ≠ a → q.core ∈ (s.boot.aps c).coreState → q.core ≠ r.core := by
    intro c q hc hq
    exact h.core_ne hc (by rw [hpc]; exact List.mem_cons_self) hq
  constructor
  · exact h.boot.apStep a b
  · intro c q hq
    dsimp only [Offers.setState] at hq ⊢
    rw [haps] at hq
    rcases aps_update hq with ⟨-, hnew⟩ | ⟨hc, hold⟩
    · obtain rfl := ApPc.setFlag.inj hnew
      rw [Function.update_self]
      rfl
    · rw [Function.update_of_ne (hne c q hc (by rw [hold]; exact List.mem_cons_self))]
      exact h.entered c q hold
  · intro c q hq hhalts
    dsimp only [Offers.setState] at hq hhalts ⊢
    rw [haps] at hq
    rcases aps_update hq with ⟨-, hnew⟩ | ⟨hc, hold⟩
    · cases hnew
    · rw [Function.update_of_ne (hne c q hc (by rw [hold]; exact List.mem_cons_self))]
      exact h.awake c q hold hhalts
  · intro hdone
    exact absurd (hrun.symm.trans hdone) (by decide)
  · exact h.called
  · intro i hi
    exact absurd (hrun.symm.trans (h.called _ hi)) (by decide)

/-- The flag is set, and the dispatch loop begins. -/
theorem OffersOk.setFlag (h : OffersOk apicIds s) {a : Nat} {b : Bool} {r : ApRun}
    (hpc : s.boot.aps a = .setFlag r) (hrun : s.initDone = false) :
    OffersOk apicIds
      { s with boot := s.boot.ap a b, cpus := Function.update s.cpus a (.loop .top) } := by
  have haps : (s.boot.ap a b).aps = Function.update s.boot.aps a (.online r) := by
    rw [Boot.ap, hpc]
  constructor
  · exact h.boot.apStep a b
  · intro c q hq
    dsimp only at hq ⊢
    rw [haps] at hq
    rcases aps_update hq with ⟨-, hnew⟩ | ⟨-, hold⟩
    · cases hnew
    · exact h.entered c q hold
  · intro c q hq hhalts
    dsimp only at hq hhalts ⊢
    rw [haps] at hq
    rcases aps_update hq with ⟨-, hnew⟩ | ⟨hc, hold⟩
    · obtain rfl := ApPc.online.inj hnew
      exact h.entered a r hpc
    · rw [Function.update_of_ne hc] at hhalts
      exact h.awake c q hold hhalts
  · intro hdone
    exact absurd (hrun.symm.trans hdone) (by decide)
  · exact h.called
  · intro i hi
    exact absurd (hrun.symm.trans (h.called _ hi)) (by decide)

theorem OffersOk.ap (h : OffersOk apicIds s) {a : Nat}
    (htime : (s.cpus a).loads = true → ∀ pc ∈ s.lookups, pc.apicId apicIds ≠ some a) (b : Bool) :
    OffersOk apicIds (s.ap a b) := by
  have hrun := h.booting (a := a)
  unfold Offers.ap
  cases hpc : s.boot.aps a with
  | off =>
      have hsame : s.boot.ap a b = s.boot := by
        rw [Boot.ap, hpc]
      dsimp only
      rw [hsame]
      exact h
  | trampoline i =>
      rw [hpc] at hrun
      exact h.onWay (by rw [Boot.ap, hpc]) (by simp) (by simp) (hrun (by simp) (by simp))
  | entry i rsp =>
      rw [hpc] at hrun
      exact h.onWay (by rw [Boot.ap, hpc]) (by simp) (by simp) (hrun (by simp) (by simp))
  | readCore i rsp kernelStack =>
      rw [hpc] at hrun
      exact h.onWay (by rw [Boot.ap, hpc]) (by simp) (by simp) (hrun (by simp) (by simp))
  | allocEmergency r =>
      rw [hpc] at hrun
      exact h.onWay (by rw [Boot.ap, hpc]) (by simp) (by simp) (hrun (by simp) (by simp))
  | allocMemoryEmergency r =>
      rw [hpc] at hrun
      exact h.enter hpc (hrun (by simp) (by simp))
  | setFlag r =>
      rw [hpc] at hrun
      exact h.setFlag hpc (hrun (by simp) (by simp))
  | online r => exact h.runs hpc htime

/-! ## The steps of the callers -/

/-- A call goes on, and has found a live core if it has found one. -/
theorem OffersOk.lookedAt (h : OffersOk apicIds s) {p : Nat} {pc : LookupPc}
    (hdone : s.initDone = true) (hlive : ∀ i, pc = .found i → s.Live apicIds i) :
    OffersOk apicIds { s with lookups := s.lookups.set p pc } where
  boot := h.boot
  entered := h.entered
  awake := h.awake
  done := h.done
  called := fun _ _ => hdone
  found := by
    intro i hi
    rcases List.mem_or_eq_of_mem_set hi with hold | hnew
    · exact h.found i hold
    · exact hlive i hnew.symm

theorem OffersOk.look (h : OffersOk apicIds s) (p : Nat) : OffersOk apicIds (s.look p) := by
  unfold Offers.look
  cases hp : s.lookups[p]? with
  | none => exact h
  | some pc =>
      have hdone := h.called pc (List.mem_of_getElem? hp)
      cases pc with
      | scan i =>
          dsimp only
          by_cases hend : 255 < i
          · rw [if_pos hend]
            exact h.lookedAt hdone (fun _ hc => by cases hc)
          · rw [if_neg hend]
            cases hslot : s.slot i with
            | none => exact h.lookedAt hdone (fun _ hc => by cases hc)
            | some cs =>
                dsimp only
                by_cases hready : (s.states cs.self).status = .ready
                · rw [if_pos hready]
                  refine h.lookedAt hdone ?_
                  rintro j ⟨⟩
                  exact h.live hdone hslot hready
                · rw [if_neg hready]
                  exact h.lookedAt hdone (fun _ hc => by cases hc)
      | found i => exact h.lookedAt hdone (fun _ hc => by cases hc)
      | returned => exact h

/-- A call returns the index of the core that it has found. -/
theorem OffersOk.returnsLive (h : OffersOk apicIds s) {p j : Nat} (hj : s.returns p = some j) :
    s.Live apicIds j := by
  unfold Offers.returns at hj
  cases hp : s.lookups[p]? with
  | none =>
      rw [hp] at hj
      cases hj
  | some pc =>
      rw [hp] at hj
      cases pc with
      | scan i => cases hj
      | returned => cases hj
      | found i =>
          obtain ⟨cs, hslot, rfl⟩ := Option.map_eq_some_iff.mp hj
          have hcs := Offers.slot_cores hslot
          rw [h.boot.coreIdx i cs hcs]
          exact h.found i (List.mem_of_getElem? hp)

theorem OffersOk.step (h : OffersOk apicIds s) (bspApicId : Nat) {act : OffersAct}
    (htime : s.OnTime apicIds act) : OffersOk apicIds (s.step apicIds bspApicId act) := by
  cases act with
  | bsp b =>
      show OffersOk apicIds (s.bsp apicIds bspApicId b)
      exact h.bsp bspApicId htime
  | ap a b =>
      show OffersOk apicIds (s.ap a b)
      exact h.ap htime b
  | push i p new =>
      simp only [Offers.step]
      split
      · cases s.slot i with
        | none => exact h
        | some cs => exact h.setState (pushStep_core _ p new).2
      · exact h
  | reserve i b =>
      simp only [Offers.step]
      split
      · cases s.slot i with
        | none => exact h
        | some cs => exact h.setState rfl
      · exact h
  | call =>
      simp only [Offers.step]
      by_cases hdone : s.initDone = true
      · rw [if_pos hdone]
        refine { h with called := fun _ _ => hdone, found := ?_ }
        intro i hi
        rcases List.mem_append.mp hi with hold | hnew
        · exact h.found i hold
        · rw [List.mem_singleton] at hnew
          cases hnew
      · rw [if_neg hdone]
        exact h
  | look p => exact h.look p

end Invariant

/-! ## Every run -/

/-- When every wait for a core ends with the flag, no core is started twice,
    and no core takes a task while a call is about to return it, then
    `smp_get_first_free_core` returns live cores only, whatever the pages of
    the core states held before. -/
theorem first_free_core_live {apicIds : List Nat} {bspApicId : Nat} {old : Nat → Smp}
    {acts : List OffersAct}
    (htime : Along (Offers.step apicIds bspApicId) (Offers.OnTime apicIds) { states := old } acts) :
    Along (Offers.step apicIds bspApicId) (Offers.ReturnsLive apicIds) { states := old } acts := by
  refine along_of_invariant ?_ ?_ (offersOk_init old : OffersOk apicIds { states := old }) htime
  · intro s act h _
    cases act with
    | look p => exact fun j hj => h.returnsLive hj
    | bsp b => trivial
    | ap a b => trivial
    | push i p new => trivial
    | reserve i b => trivial
    | call => trivial
  · intro s act h hok
    exact h.step bspApicId hok

/-- Core 1 checks in, halts and is returned; then it takes a task, and the next
    call does not find it. -/
theorem first_free_core_live_one :
    Along (Offers.step [0, 1] 0) (Offers.ReturnsLive [0, 1])
      { states := fun _ => { idleThread := 0 } }
      (List.replicate 10 (.bsp true) ++ List.replicate 6 (.ap 1 true)
        ++ List.replicate 4 (.bsp true) ++ List.replicate 4 (.ap 1 true)
        ++ [.call, .look 0, .look 0, .look 0]
        ++ List.replicate 4 (.push 1 0 7) ++ List.replicate 10 (.ap 1 true)
        ++ [.call, .look 1, .look 1, .look 1]) :=
  first_free_core_live (by decide)

/-- Core 1 never starts, and is returned. -/
theorem first_free_core_dead :
    let acts : List OffersAct :=
      List.replicate 15 (.bsp true) ++ [.call, .look 0, .look 0, .look 0]
    ¬ Along (Offers.step [0, 1] 0) (Offers.ReturnsLive [0, 1])
      { states := fun _ => { idleThread := 0 } } acts := by
  intro acts h
  obtain ⟨-, -, -, -, hlast, -⟩ := along_append.mp h
  obtain ⟨a, r, ha, hr, -⟩ := hlast 1 (by decide)
  obtain rfl : 1 = a := Option.some.inj ha
  revert hr
  exact ApPc.noConfusion

end Pfi
