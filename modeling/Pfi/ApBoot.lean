import Pfi.Avmf
import Pfi.Run

/-! # The boot of the application processors

    `smp_init` boots the cores one after another.  For each it clears
    `ap_boot_flag`, writes the stack and the core state it has allocated to
    the words 0x510 and 0x520, sends the startup interrupt, and waits a bounded
    time for the flag.  A started core reads its stack pointer and then, in
    `ap_kernel_entry`, its stack and its state from the same two words, and
    sets the flag.  One mailbox and one flag serve all cores.

    A core that is slower than the wait finds the mailbox of the core after
    it, and its flag is taken for that core's.  As long as each core reads a
    word before `smp_init` writes it for another core, and does not set the
    flag during the boot of another one, the handshake holds
    (`handshake_on_time`).

    Only the loop of `smp_init` is modelled; each call of `avmf_alloc` is one
    step, which may fail. -/

namespace Pfi

open Run

/-! ## The two sides -/

/-- What `smp_init` writes to a `core_state` for the core to find. -/
structure CoreState where
  self : Nat
  lapicId : Nat
  coreIdx : Nat
  idleThread : Nat
  stack : Nat
deriving Repr, DecidableEq

/-- The place of the BSP in the loop of `smp_init`. -/
inductive BspPc where
  | next
  | clearFlag
  | allocStack
  | allocState (apStack : Nat)
  | allocIdle (apStack apState : Nat)
  | mailStack (cs : CoreState)
  | mailState (cs : CoreState)
  | register (cs : CoreState)
  | sendIpi
  | checkFlag
  | spin
  | report
  | done
deriving Repr, DecidableEq

/-- What an AP has read in the trampoline and in `ap_kernel_entry`, and the
    index of the core that it was started as. -/
structure ApRun where
  index : Nat
  rsp : Nat
  kernelStack : Nat
  core : Nat
deriving Repr, DecidableEq

/-- The place of an AP. -/
inductive ApPc where
  | off
  | trampoline (index : Nat)
  | entry (index rsp : Nat)
  | readCore (index rsp kernelStack : Nat)
  | allocEmergency (r : ApRun)
  | allocMemoryEmergency (r : ApRun)
  | setFlag (r : ApRun)
  | online (r : ApRun)
deriving Repr, DecidableEq

/-- The boot: `apBootFlag` holds the APIC id of the core that has set the
    flag, `mail510For` and `mail520For` the index of the core for which the
    word was last written, and `checkedIn` the reported indices with the core
    that had set the flag.  No code reads these three. -/
structure Boot where
  pc : BspPc := .next
  i : Nat := 0
  apBootFlag : Option Nat := none
  mail510 : Nat := 0
  mail520 : Nat := 0
  cores : Nat → Option CoreState := fun _ => none
  heapKernel : Nat := aosKernelSpaceBase
  aps : Nat → ApPc := fun _ => .off
  mail510For : Option Nat := none
  mail520For : Option Nat := none
  checkedIn : List (Nat × Nat) := []

/-- `avmf_alloc` of a KERNEL block of `size` bytes, a multiple of a page: the
    heap moves on as soon as there is room, and `granted` tells whether the
    pages are found. -/
def Boot.avmfAlloc (s : Boot) (size : Nat) (granted : Bool) : Nat × Boot :=
  if heapEnd .kernel < s.heapKernel + size then (0, s)
  else (if granted then s.heapKernel else 0, { s with heapKernel := s.heapKernel + size })

abbrev apStackSize : Nat := 16384

section Steps

variable (apicIds : List Nat) (bspApicId : Nat)

/-- The next iteration of the loop. -/
def Boot.skip (s : Boot) : Boot := { s with pc := .next, i := s.i + 1 }

/-- A step of the BSP.  `b` is the outcome of an allocation, and in the wait
    whether the time is up. -/
def Boot.bsp (s : Boot) (b : Bool) : Boot :=
  match s.pc with
  | .next =>
      match apicIds[s.i]? with
      | none => { s with pc := .done }
      | some id =>
          if (s.cores s.i).isSome ∨ id = bspApicId then s.skip
          else { s with pc := .clearFlag }
  | .clearFlag => { s with apBootFlag := none, pc := .allocStack }
  | .allocStack =>
      let (apStack, s) := s.avmfAlloc apStackSize b
      if apStack = 0 then s.skip else { s with pc := .allocState apStack }
  | .allocState apStack =>
      let (apState, s) := s.avmfAlloc pageSize b
      if apState = 0 then s.skip else { s with pc := .allocIdle apStack apState }
  | .allocIdle apStack apState =>
      let (idle, s) := s.avmfAlloc pageSize b
      if idle = 0 then s.skip
      else
        { s with
          pc := .mailStack
            { self := apState, lapicId := apicIds.getD s.i 0, coreIdx := s.i
              idleThread := idle, stack := apStack + apStackSize } }
  | .mailStack cs =>
      { s with mail510 := cs.stack, mail510For := some s.i, pc := .mailState cs }
  | .mailState cs =>
      { s with mail520 := cs.self, mail520For := some s.i, pc := .register cs }
  | .register cs =>
      { s with cores := Function.update s.cores s.i (some cs), pc := .sendIpi }
  -- INIT resets the core wherever it is
  | .sendIpi =>
      { s with
        aps := Function.update s.aps (apicIds.getD s.i 0) (.trampoline s.i)
        pc := .checkFlag }
  -- the second interrupt is a fixed one, which starts no core
  | .checkFlag => if s.apBootFlag = none then { s with pc := .spin } else { s with pc := .report }
  | .spin => if s.apBootFlag = none ∧ b = false then s else { s with pc := .report }
  | .report =>
      match s.apBootFlag with
      | none => s.skip
      | some a => { s.skip with checkedIn := (s.i, a) :: s.checkedIn }
  | .done => s

/-- A step of the AP with APIC id `a`. -/
def Boot.ap (s : Boot) (a : Nat) (b : Bool) : Boot :=
  match s.aps a with
  | .off => s
  | .trampoline i => { s with aps := Function.update s.aps a (.entry i s.mail510) }
  | .entry i rsp => { s with aps := Function.update s.aps a (.readCore i rsp s.mail510) }
  | .readCore i rsp kernelStack =>
      { s with aps := Function.update s.aps a (.allocEmergency ⟨i, rsp, kernelStack, s.mail520⟩) }
  | .allocEmergency r =>
      { (s.avmfAlloc pageSize b).2 with
        aps := Function.update s.aps a (.allocMemoryEmergency r) }
  | .allocMemoryEmergency r =>
      { (s.avmfAlloc pageSize b).2 with aps := Function.update s.aps a (.setFlag r) }
  | .setFlag r => { s with apBootFlag := some a, aps := Function.update s.aps a (.online r) }
  | .online _ => s

/-- A step of the boot. -/
inductive BootAct where
  | bsp (b : Bool)
  | ap (a : Nat) (b : Bool)
deriving Repr, DecidableEq

def Boot.step (s : Boot) : BootAct → Boot
  | .bsp b => s.bsp apicIds bspApicId b
  | .ap a b => s.ap a b

end Steps

/-! ## The handshake -/

/-- The stacks an AP has loaded. -/
def ApPc.rsps : ApPc → List Nat
  | .off => []
  | .trampoline _ => []
  | .entry _ rsp => [rsp]
  | .readCore _ rsp kernelStack => [rsp, kernelStack]
  | .allocEmergency r => [r.rsp, r.kernelStack]
  | .allocMemoryEmergency r => [r.rsp, r.kernelStack]
  | .setFlag r => [r.rsp, r.kernelStack]
  | .online r => [r.rsp, r.kernelStack]

/-- The core state an AP runs `ap_kernel_entry` with. -/
def ApPc.coreState : ApPc → List Nat
  | .allocEmergency r => [r.core]
  | .allocMemoryEmergency r => [r.core]
  | .setFlag r => [r.core]
  | .online r => [r.core]
  | _ => []

/-- No two APs run on one stack or with one core state, and a core that was
    reported as checked in has set the flag itself. -/
structure Boot.Handshake (apicIds : List Nat) (s : Boot) : Prop where
  rsps : ∀ a b, a ≠ b → ∀ v ∈ (s.aps a).rsps, v ∉ (s.aps b).rsps
  cores : ∀ a b, a ≠ b → ∀ v ∈ (s.aps a).coreState, v ∉ (s.aps b).coreState
  reports : ∀ c ∈ s.checkedIn, apicIds[c.1]? = some c.2

/-- The core whose boot is under way. -/
def Boot.booting (s : Boot) : Option Nat :=
  match s.pc with
  | .next => none
  | .clearFlag => none
  | .done => none
  | _ => some s.i

/-- An AP reads a word of the mailbox while it is the one written for it, and
    sets the flag at a time that is not the boot of another core. -/
def Boot.ApOnTime (s : Boot) : ApPc → Prop
  | .trampoline i => s.mail510For = some i
  | .entry i _ => s.mail510For = some i
  | .readCore i _ _ => s.mail520For = some i
  | .setFlag r => s.booting = none ∨ s.booting = some r.index
  | _ => True

def Boot.OnTime (s : Boot) : BootAct → Prop
  | .bsp _ => True
  | .ap a _ => s.ApOnTime (s.aps a)

instance decidableApOnTime (s : Boot) : (pc : ApPc) → Decidable (s.ApOnTime pc)
  | .off => isTrue trivial
  | .trampoline i => inferInstanceAs (Decidable (s.mail510For = some i))
  | .entry i _ => inferInstanceAs (Decidable (s.mail510For = some i))
  | .readCore i _ _ => inferInstanceAs (Decidable (s.mail520For = some i))
  | .allocEmergency _ => isTrue trivial
  | .allocMemoryEmergency _ => isTrue trivial
  | .setFlag r => inferInstanceAs (Decidable (s.booting = none ∨ s.booting = some r.index))
  | .online _ => isTrue trivial

instance decidableBootOnTime (s : Boot) : (act : BootAct) → Decidable (s.OnTime act)
  | .bsp _ => isTrue trivial
  | .ap a _ => inferInstanceAs (Decidable (s.ApOnTime (s.aps a)))

/-! ## The invariant -/

/-- The index that an AP was started for. -/
def ApPc.index : ApPc → Option Nat
  | .off => none
  | .trampoline i => some i
  | .entry i _ => some i
  | .readCore i _ _ => some i
  | .allocEmergency r => some r.index
  | .allocMemoryEmergency r => some r.index
  | .setFlag r => some r.index
  | .online r => some r.index

/-- Core `i` is not registered and has an APIC id. -/
def Boot.Unregistered (apicIds : List Nat) (s : Boot) : Prop :=
  s.cores s.i = none ∧ apicIds[s.i]? = some (apicIds.getD s.i 0)

/-- A stack that no registered core has. -/
def Boot.FreshStack (s : Boot) (stack : Nat) : Prop :=
  stack ≤ s.heapKernel ∧ ∀ i cs, s.cores i = some cs → cs.stack ≠ stack

/-- A core state that no registered core has. -/
def Boot.FreshState (s : Boot) (self : Nat) : Prop :=
  self < s.heapKernel ∧ ∀ i cs, s.cores i = some cs → cs.self ≠ self

/-- What the BSP has done for the core that it boots. -/
def Boot.BspOk (apicIds : List Nat) (s : Boot) : BspPc → Prop
  | .clearFlag => s.Unregistered apicIds
  | .allocStack => s.Unregistered apicIds
  | .allocState apStack => s.Unregistered apicIds ∧ s.FreshStack (apStack + apStackSize)
  | .allocIdle apStack apState =>
      s.Unregistered apicIds ∧ s.FreshStack (apStack + apStackSize) ∧ s.FreshState apState
  | .mailStack cs =>
      s.Unregistered apicIds ∧ s.FreshStack cs.stack ∧ s.FreshState cs.self
  | .mailState cs =>
      s.Unregistered apicIds ∧ s.FreshStack cs.stack ∧ s.FreshState cs.self ∧
        s.mail510 = cs.stack
  | .register cs =>
      s.Unregistered apicIds ∧ s.FreshStack cs.stack ∧ s.FreshState cs.self ∧
        s.mail510 = cs.stack ∧ s.mail520 = cs.self
  | .sendIpi =>
      (∃ cs, s.cores s.i = some cs) ∧ apicIds[s.i]? = some (apicIds.getD s.i 0)
  | _ => True

/-- An AP runs with what `smp_init` registered for its index. -/
def Boot.ApOk (apicIds : List Nat) (s : Boot) (a : Nat) (pc : ApPc) : Prop :=
  ∀ i, pc.index = some i →
    apicIds[i]? = some a ∧ ∃ cs, s.cores i = some cs ∧
      (∀ v ∈ pc.rsps, v = cs.stack) ∧ ∀ v ∈ pc.coreState, v = cs.self

structure BootOk (apicIds : List Nat) (s : Boot) : Prop where
  heap : 0 < s.heapKernel
  below : ∀ i cs, s.cores i = some cs → cs.stack ≤ s.heapKernel ∧ cs.self < s.heapKernel
  apart : ∀ i j cs ct, i ≠ j → s.cores i = some cs → s.cores j = some ct →
    cs.stack ≠ ct.stack ∧ cs.self ≠ ct.self
  bsp : s.BspOk apicIds s.pc
  aps : ∀ a, s.ApOk apicIds a (s.aps a)
  mail510 : ∀ i cs, s.mail510For = some i → s.cores i = some cs → s.mail510 = cs.stack
  mail520 : ∀ i cs, s.mail520For = some i → s.cores i = some cs → s.mail520 = cs.self
  flag : ∀ i a, s.booting = some i → s.apBootFlag = some a → apicIds[i]? = some a
  reports : ∀ c ∈ s.checkedIn, apicIds[c.1]? = some c.2

/-- An AP that holds something has an index. -/
theorem ApPc.index_of_rsps {pc : ApPc} {v : Nat} (h : v ∈ pc.rsps) : ∃ i, pc.index = some i := by
  cases pc with
  | off => cases h
  | trampoline i => cases h
  | entry i rsp => exact ⟨i, rfl⟩
  | readCore i rsp kernelStack => exact ⟨i, rfl⟩
  | allocEmergency r => exact ⟨r.index, rfl⟩
  | allocMemoryEmergency r => exact ⟨r.index, rfl⟩
  | setFlag r => exact ⟨r.index, rfl⟩
  | online r => exact ⟨r.index, rfl⟩

theorem ApPc.index_of_coreState {pc : ApPc} {v : Nat} (h : v ∈ pc.coreState) :
    ∃ i, pc.index = some i := by
  cases pc with
  | off => cases h
  | trampoline i => cases h
  | entry i rsp => cases h
  | readCore i rsp kernelStack => cases h
  | allocEmergency r => exact ⟨r.index, rfl⟩
  | allocMemoryEmergency r => exact ⟨r.index, rfl⟩
  | setFlag r => exact ⟨r.index, rfl⟩
  | online r => exact ⟨r.index, rfl⟩

section Invariant

variable {apicIds : List Nat} {s : Boot}

/-- Two APs were started for different indices. -/
theorem BootOk.index_ne (h : BootOk apicIds s) {a b i j : Nat} (hab : a ≠ b)
    (hi : (s.aps a).index = some i) (hj : (s.aps b).index = some j) : i ≠ j := by
  rintro rfl
  have ha := (h.aps a i hi).1
  have hb := (h.aps b i hj).1
  rw [ha] at hb
  exact hab (Option.some.inj hb)

theorem BootOk.handshake (h : BootOk apicIds s) : s.Handshake apicIds := by
  constructor
  · intro a b hab v hv hv'
    obtain ⟨i, hi⟩ := ApPc.index_of_rsps hv
    obtain ⟨j, hj⟩ := ApPc.index_of_rsps hv'
    obtain ⟨-, cs, hcs, hstack, -⟩ := h.aps a i hi
    obtain ⟨-, ct, hct, hstack', -⟩ := h.aps b j hj
    have hne := (h.apart i j cs ct (h.index_ne hab hi hj) hcs hct).1
    exact hne ((hstack v hv).symm.trans (hstack' v hv'))
  · intro a b hab v hv hv'
    obtain ⟨i, hi⟩ := ApPc.index_of_coreState hv
    obtain ⟨j, hj⟩ := ApPc.index_of_coreState hv'
    obtain ⟨-, cs, hcs, -, hself⟩ := h.aps a i hi
    obtain ⟨-, ct, hct, -, hself'⟩ := h.aps b j hj
    have hne := (h.apart i j cs ct (h.index_ne hab hi hj) hcs hct).2
    exact hne ((hself v hv).symm.trans (hself' v hv'))
  · exact h.reports

theorem bootOk_init : BootOk apicIds {} := by
  constructor
  · decide
  · intro i cs hcs
    cases hcs
  · intro i j cs ct _ hcs
    cases hcs
  · trivial
  · intro a i hi
    cases hi
  · intro i cs hi
    cases hi
  · intro i cs hi
    cases hi
  · intro i a hi
    cases hi
  · intro c hc
    cases hc

/-! ## What the steps keep -/

theorem Boot.avmfAlloc_cases (s : Boot) (size : Nat) (b : Bool) :
    ∃ v n, s.avmfAlloc size b = (v, { s with heapKernel := n }) ∧ s.heapKernel ≤ n ∧
      (v ≠ 0 → v = s.heapKernel ∧ n = s.heapKernel + size) := by
  unfold Boot.avmfAlloc
  split
  · exact ⟨0, s.heapKernel, rfl, Nat.le_refl _, fun hv => absurd rfl hv⟩
  · cases b with
    | false => exact ⟨0, _, rfl, Nat.le_add_right _ _, fun hv => absurd rfl hv⟩
    | true => exact ⟨s.heapKernel, _, rfl, Nat.le_add_right _ _, fun _ => ⟨rfl, rfl⟩⟩

/-- The block that the BSP allocates next, and where it goes on with it. -/
def Boot.allocates (apicIds : List Nat) (s : Boot) : BspPc → Option (Nat × (Nat → BspPc))
  | .allocStack => some (apStackSize, fun apStack => .allocState apStack)
  | .allocState apStack => some (pageSize, fun apState => .allocIdle apStack apState)
  | .allocIdle apStack apState =>
      some (pageSize, fun idle => .mailStack
        { self := apState, lapicId := apicIds.getD s.i 0, coreIdx := s.i
          idleThread := idle, stack := apStack + apStackSize })
  | _ => none

/-- A failed allocation ends the boot of the core, and one that succeeds starts
    at the heap's end. -/
theorem Boot.bsp_alloc {size : Nat} {pc : Nat → BspPc} (bspApicId : Nat) (b : Bool)
    (halloc : s.allocates apicIds s.pc = some (size, pc)) :
    ∃ n, s.heapKernel ≤ n ∧
      (s.bsp apicIds bspApicId b = Boot.skip { s with heapKernel := n } ∨
        s.bsp apicIds bspApicId b = { s with heapKernel := n, pc := pc s.heapKernel } ∧
          n = s.heapKernel + size) := by
  obtain ⟨v, n, hcases, hn, hv⟩ := s.avmfAlloc_cases size b
  have hstep : s.bsp apicIds bspApicId b
      = if v = 0 then Boot.skip { s with heapKernel := n }
        else { s with heapKernel := n, pc := pc v } := by
    unfold Boot.bsp
    cases hpc : s.pc with
    | allocStack =>
        rw [hpc] at halloc
        obtain ⟨rfl, rfl⟩ := Prod.mk.inj (Option.some.inj halloc)
        simp only [hcases, Boot.skip]
    | allocState apStack =>
        rw [hpc] at halloc
        obtain ⟨rfl, rfl⟩ := Prod.mk.inj (Option.some.inj halloc)
        simp only [hcases, Boot.skip]
    | allocIdle apStack apState =>
        rw [hpc] at halloc
        obtain ⟨rfl, rfl⟩ := Prod.mk.inj (Option.some.inj halloc)
        simp only [hcases, Boot.skip]
    | _ =>
        rw [hpc] at halloc
        cases halloc
  refine ⟨n, hn, ?_⟩
  rw [hstep]
  by_cases h0 : v = 0
  · rw [if_pos h0]
    exact Or.inl rfl
  · rw [if_neg h0]
    obtain ⟨rfl, hsize⟩ := hv h0
    exact Or.inr ⟨rfl, hsize⟩

/-- A block from the heap's end is nobody's. -/
theorem BootOk.freshStack (h : BootOk apicIds s) {n : Nat}
    (hn : n = s.heapKernel + apStackSize) :
    Boot.FreshStack { s with heapKernel := n } (s.heapKernel + apStackSize) := by
  constructor
  · exact hn.ge
  · intro i cs hcs heq
    have hle := (h.below i cs hcs).1
    rw [heq] at hle
    simp only [apStackSize] at hle
    omega

theorem BootOk.freshState (h : BootOk apicIds s) {n : Nat} (hn : n = s.heapKernel + pageSize) :
    Boot.FreshState { s with heapKernel := n } s.heapKernel := by
  constructor
  · show s.heapKernel < n
    simp only [hn, pageSize]
    omega
  · intro i cs hcs heq
    exact absurd heq (Nat.ne_of_lt (h.below i cs hcs).2)

theorem Boot.FreshStack.grow {stack n : Nat} (h : s.FreshStack stack) (hn : s.heapKernel ≤ n) :
    Boot.FreshStack { s with heapKernel := n } stack :=
  ⟨h.1.trans hn, h.2⟩

theorem Boot.FreshState.grow {self n : Nat} (h : s.FreshState self) (hn : s.heapKernel ≤ n) :
    Boot.FreshState { s with heapKernel := n } self :=
  ⟨h.1.trans_le hn, h.2⟩

theorem Boot.BspOk.grow {pc : BspPc} {n : Nat} (h : s.BspOk apicIds pc)
    (hn : s.heapKernel ≤ n) : Boot.BspOk apicIds { s with heapKernel := n } pc := by
  cases pc with
  | allocState apStack => exact ⟨h.1, h.2.grow hn⟩
  | allocIdle apStack apState => exact ⟨h.1, h.2.1.grow hn, h.2.2.grow hn⟩
  | mailStack cs => exact ⟨h.1, h.2.1.grow hn, h.2.2.grow hn⟩
  | mailState cs => exact ⟨h.1, h.2.1.grow hn, h.2.2.1.grow hn, h.2.2.2⟩
  | register cs => exact ⟨h.1, h.2.1.grow hn, h.2.2.1.grow hn, h.2.2.2⟩
  | clearFlag => exact h
  | allocStack => exact h
  | sendIpi => exact h
  | next => trivial
  | checkFlag => trivial
  | spin => trivial
  | report => trivial
  | done => trivial

/-- The heap moves on. -/
theorem BootOk.grow (h : BootOk apicIds s) {n : Nat} (hn : s.heapKernel ≤ n) :
    BootOk apicIds { s with heapKernel := n } where
  heap := Nat.lt_of_lt_of_le h.heap hn
  below := by
    intro i cs hcs
    obtain ⟨hstack, hself⟩ := h.below i cs hcs
    exact ⟨hstack.trans hn, hself.trans_le hn⟩
  apart := h.apart
  bsp := h.bsp.grow hn
  aps := h.aps
  mail510 := h.mail510
  mail520 := h.mail520
  flag := h.flag
  reports := h.reports

/-- The BSP goes on. -/
theorem BootOk.move (h : BootOk apicIds s) {pc : BspPc} {i : Nat}
    (hbsp : Boot.BspOk apicIds { s with pc := pc, i := i } pc)
    (hflag : ∀ j a, Boot.booting { s with pc := pc, i := i } = some j →
      s.apBootFlag = some a → apicIds[j]? = some a) :
    BootOk apicIds { s with pc := pc, i := i } where
  heap := h.heap
  below := h.below
  apart := h.apart
  bsp := hbsp
  aps := h.aps
  mail510 := h.mail510
  mail520 := h.mail520
  flag := hflag
  reports := h.reports

theorem BootOk.skip (h : BootOk apicIds s) : BootOk apicIds s.skip := by
  refine h.move trivial ?_
  intro j a hj
  cases hj

/-- The BSP goes on within the boot of the same core. -/
theorem BootOk.moveOn (h : BootOk apicIds s) (pc : BspPc) (hbooting : s.booting = some s.i)
    (hbsp : s.BspOk apicIds pc) : BootOk apicIds { s with pc := pc } := by
  refine h.move hbsp ?_
  intro j a hj ha
  refine h.flag j a ?_ ha
  rw [hbooting]
  unfold Boot.booting at hj
  split at hj
  · cases hj
  · cases hj
  · cases hj
  · exact hj

/-- An AP goes on. -/
theorem BootOk.moveAp (h : BootOk apicIds s) {a : Nat} {pc : ApPc}
    (hpc : s.ApOk apicIds a pc) :
    BootOk apicIds { s with aps := Function.update s.aps a pc } where
  heap := h.heap
  below := h.below
  apart := h.apart
  bsp := h.bsp
  aps := by
    intro c
    by_cases hc : c = a
    · subst hc
      dsimp only
      rw [Function.update_self]
      exact hpc
    · dsimp only
      rw [Function.update_of_ne hc]
      exact h.aps c
  mail510 := h.mail510
  mail520 := h.mail520
  flag := h.flag
  reports := h.reports

/-- An AP goes on with what it has read. -/
theorem Boot.ApOk.same {a : Nat} {pc pc' : ApPc} (h : s.ApOk apicIds a pc)
    (hindex : pc'.index = pc.index) (hrsps : pc'.rsps = pc.rsps)
    (hcore : pc'.coreState = pc.coreState) : s.ApOk apicIds a pc' := by
  intro i hi
  rw [hindex] at hi
  rw [hrsps, hcore]
  exact h i hi

/-- An AP that acts on time keeps the invariant. -/
theorem BootOk.ap (h : BootOk apicIds s) {a : Nat} (htime : s.ApOnTime (s.aps a)) (b : Bool) :
    BootOk apicIds (s.ap a b) := by
  have hap := h.aps a
  unfold Boot.ap
  cases hpc : s.aps a with
  | off => exact h
  | trampoline i =>
      rw [hpc] at hap htime
      refine h.moveAp ?_
      rintro j ⟨⟩
      obtain ⟨hid, cs, hcs, -, -⟩ := hap i rfl
      refine ⟨hid, cs, hcs, ?_, fun v hv => by cases hv⟩
      intro v hv
      rw [List.mem_singleton.mp hv]
      exact h.mail510 i cs htime hcs
  | entry i rsp =>
      rw [hpc] at hap htime
      refine h.moveAp ?_
      rintro j ⟨⟩
      obtain ⟨hid, cs, hcs, hrsp, -⟩ := hap i rfl
      refine ⟨hid, cs, hcs, ?_, fun v hv => by cases hv⟩
      intro v hv
      rcases List.mem_cons.mp hv with hv | hv
      · rw [hv]
        exact hrsp rsp List.mem_cons_self
      · rw [List.mem_singleton.mp hv]
        exact h.mail510 i cs htime hcs
  | readCore i rsp kernelStack =>
      rw [hpc] at hap htime
      refine h.moveAp ?_
      rintro j ⟨⟩
      obtain ⟨hid, cs, hcs, hrsp, -⟩ := hap i rfl
      refine ⟨hid, cs, hcs, hrsp, ?_⟩
      intro v hv
      rw [List.mem_singleton.mp hv]
      exact h.mail520 i cs htime hcs
  | allocEmergency r =>
      rw [hpc] at hap
      obtain ⟨v, n, halloc, hn, -⟩ := s.avmfAlloc_cases pageSize b
      simp only [halloc]
      exact (h.grow hn).moveAp (hap.same rfl rfl rfl)
  | allocMemoryEmergency r =>
      rw [hpc] at hap
      obtain ⟨v, n, halloc, hn, -⟩ := s.avmfAlloc_cases pageSize b
      simp only [halloc]
      exact (h.grow hn).moveAp (hap.same rfl rfl rfl)
  | setFlag r =>
      rw [hpc] at hap htime
      have hmoved : BootOk apicIds { s with aps := Function.update s.aps a (.online r) } :=
        h.moveAp (hap.same rfl rfl rfl)
      refine { hmoved with flag := ?_ }
      -- the boot under way, if any, is that of the core that sets the flag
      rintro i c hi ⟨⟩
      have hindex : i = r.index := by
        rcases htime with hnone | hsome
        · exact absurd (hi.symm.trans hnone) (fun hc => by cases hc)
        · exact Option.some.inj (hi.symm.trans hsome)
      rw [hindex]
      exact (hap r.index rfl).1
  | online r => exact h

/-- The next core is registered. -/
theorem BootOk.register (h : BootOk apicIds s) {cs : CoreState} (hpc : s.pc = .register cs) :
    BootOk apicIds
      { s with cores := Function.update s.cores s.i (some cs), pc := .sendIpi } := by
  have hbsp := h.bsp
  rw [hpc] at hbsp
  obtain ⟨⟨hnone, hid⟩, hstack, hself, h510, h520⟩ := hbsp
  -- what the registry says of an index
  have hcores : ∀ i ct, Function.update s.cores s.i (some cs) i = some ct →
      (i = s.i ∧ ct = cs) ∨ (i ≠ s.i ∧ s.cores i = some ct) := by
    intro i ct hct
    by_cases hi : i = s.i
    · rw [hi, Function.update_self] at hct
      exact Or.inl ⟨hi, (Option.some.inj hct).symm⟩
    · rw [Function.update_of_ne hi] at hct
      exact Or.inr ⟨hi, hct⟩
  constructor
  · exact h.heap
  · intro i ct hct
    rcases hcores i ct hct with ⟨-, rfl⟩ | ⟨-, hct⟩
    · exact ⟨hstack.1, hself.1⟩
    · exact h.below i ct hct
  · intro i j ct cu hij hct hcu
    rcases hcores i ct hct with ⟨hi, rfl⟩ | ⟨-, hct'⟩
    · rcases hcores j cu hcu with ⟨hj, -⟩ | ⟨-, hcu'⟩
      · exact absurd (hi.trans hj.symm) hij
      · exact ⟨(hstack.2 j cu hcu').symm, (hself.2 j cu hcu').symm⟩
    · rcases hcores j cu hcu with ⟨-, rfl⟩ | ⟨-, hcu'⟩
      · exact ⟨hstack.2 i ct hct', hself.2 i ct hct'⟩
      · exact h.apart i j ct cu hij hct' hcu'
  · exact ⟨⟨cs, Function.update_self _ _ _⟩, hid⟩
  · intro a i hi
    obtain ⟨ha, ct, hct, hrsp, hcore⟩ := h.aps a i hi
    refine ⟨ha, ct, ?_, hrsp, hcore⟩
    have hne : i ≠ s.i := by
      rintro rfl
      rw [hnone] at hct
      cases hct
    dsimp only
    rw [Function.update_of_ne hne]
    exact hct
  · intro i ct hi hct
    rcases hcores i ct hct with ⟨-, rfl⟩ | ⟨-, hct⟩
    · exact h510
    · exact h.mail510 i ct hi hct
  · intro i ct hi hct
    rcases hcores i ct hct with ⟨-, rfl⟩ | ⟨-, hct⟩
    · exact h520
    · exact h.mail520 i ct hi hct
  · intro i a hi ha
    refine h.flag i a ?_ ha
    simp only [Boot.booting, hpc]
    exact hi
  · exact h.reports

/-- The stack of the next core is put into the mailbox. -/
theorem BootOk.mailStack (h : BootOk apicIds s) {cs : CoreState} (hpc : s.pc = .mailStack cs) :
    BootOk apicIds
      { s with mail510 := cs.stack, mail510For := some s.i, pc := .mailState cs } := by
  have hbsp := h.bsp
  rw [hpc] at hbsp
  obtain ⟨hun, hstack, hself⟩ := hbsp
  have hmoved := h.moveOn (.mailStack cs) (by rw [Boot.booting, hpc]) ⟨hun, hstack, hself⟩
  refine { hmoved with bsp := ⟨hun, hstack, hself, rfl⟩, mail510 := ?_ }
  -- no registered core has the index of the core that is booted
  rintro i ct ⟨⟩ hct
  rw [hun.1] at hct
  cases hct

theorem BootOk.mailState (h : BootOk apicIds s) {cs : CoreState} (hpc : s.pc = .mailState cs) :
    BootOk apicIds
      { s with mail520 := cs.self, mail520For := some s.i, pc := .register cs } := by
  have hbsp := h.bsp
  rw [hpc] at hbsp
  obtain ⟨hun, hstack, hself, h510⟩ := hbsp
  have hmoved := h.moveOn (.mailStack cs) (by rw [Boot.booting, hpc]) ⟨hun, hstack, hself⟩
  refine { hmoved with bsp := ⟨hun, hstack, hself, h510, rfl⟩, mail520 := ?_ }
  rintro i ct ⟨⟩ hct
  rw [hun.1] at hct
  cases hct

/-- The BSP allocates a block for the core that it boots. -/
theorem BootOk.alloc (h : BootOk apicIds s) {size : Nat} {pc : Nat → BspPc} (bspApicId : Nat)
    (b : Bool) (halloc : s.allocates apicIds s.pc = some (size, pc))
    (hbooting : s.booting = some s.i)
    (hbsp : ∀ n, s.heapKernel ≤ n → n = s.heapKernel + size →
      Boot.BspOk apicIds { s with heapKernel := n } (pc s.heapKernel)) :
    BootOk apicIds (s.bsp apicIds bspApicId b) := by
  obtain ⟨n, hn, hstep | ⟨hstep, hsize⟩⟩ := Boot.bsp_alloc bspApicId b halloc
  · rw [hstep]
    exact (h.grow hn).skip
  · rw [hstep]
    exact (h.grow hn).moveOn _ hbooting (hbsp n hn hsize)

/-- The BSP's steps keep the invariant, whatever the APs have done. -/
theorem BootOk.bspStep (h : BootOk apicIds s) (bspApicId : Nat) (b : Bool) :
    BootOk apicIds (s.bsp apicIds bspApicId b) := by
  have hbsp := h.bsp
  cases hpc : s.pc with
  | next =>
      rw [Boot.bsp, hpc]
      cases hid : apicIds[s.i]? with
      | none =>
          refine h.move trivial ?_
          intro j a hj
          cases hj
      | some id =>
          dsimp only
          by_cases hskip : (s.cores s.i).isSome ∨ id = bspApicId
          · rw [if_pos hskip]
            exact h.skip
          · rw [if_neg hskip]
            refine h.move ⟨?_, ?_⟩ ?_
            · have hnone : (s.cores s.i).isNone := by
                rw [Option.isNone_iff_eq_none]
                by_contra hc
                exact hskip (Or.inl (Option.isSome_iff_ne_none.mpr hc))
              exact Option.isNone_iff_eq_none.mp hnone
            · show apicIds[s.i]? = some (apicIds.getD s.i 0)
              rw [List.getD_eq_getElem?_getD, hid]
              rfl
            · intro j a hj
              cases hj
  | clearFlag =>
      rw [hpc] at hbsp
      rw [Boot.bsp, hpc]
      have hmoved : BootOk apicIds { s with pc := .clearFlag } :=
        h.move hbsp (fun j a hj => by cases hj)
      refine { hmoved with bsp := hbsp, flag := ?_ }
      rintro j a - ⟨⟩
  | allocStack =>
      rw [hpc] at hbsp
      refine h.alloc bspApicId b (by rw [hpc]; rfl) (by rw [Boot.booting, hpc]) ?_
      intro n _ hsize
      exact ⟨hbsp, h.freshStack hsize⟩
  | allocState apStack =>
      rw [hpc] at hbsp
      refine h.alloc bspApicId b (by rw [hpc]; rfl) (by rw [Boot.booting, hpc]) ?_
      intro n hn hsize
      exact ⟨hbsp.1, hbsp.2.grow hn, h.freshState hsize⟩
  | allocIdle apStack apState =>
      rw [hpc] at hbsp
      refine h.alloc bspApicId b (by rw [hpc]; rfl) (by rw [Boot.booting, hpc]) ?_
      intro n hn _
      exact ⟨hbsp.1, hbsp.2.1.grow hn, hbsp.2.2.grow hn⟩
  | mailStack cs =>
      rw [Boot.bsp, hpc]
      exact h.mailStack hpc
  | mailState cs =>
      rw [Boot.bsp, hpc]
      exact h.mailState hpc
  | register cs =>
      rw [Boot.bsp, hpc]
      exact h.register hpc
  | sendIpi =>
      rw [hpc] at hbsp
      rw [Boot.bsp, hpc]
      obtain ⟨⟨cs, hcs⟩, hid⟩ := hbsp
      refine (h.moveOn .checkFlag (by rw [Boot.booting, hpc]) trivial).moveAp ?_
      -- the core is back at the start of the trampoline and holds nothing
      rintro i ⟨⟩
      exact ⟨hid, cs, hcs, fun v hv => (by cases hv), fun v hv => (by cases hv)⟩
  | checkFlag =>
      rw [Boot.bsp, hpc]
      dsimp only
      split
      · exact h.moveOn _ (by rw [Boot.booting, hpc]) trivial
      · exact h.moveOn _ (by rw [Boot.booting, hpc]) trivial
  | spin =>
      rw [Boot.bsp, hpc]
      dsimp only
      split
      · exact h
      · exact h.moveOn _ (by rw [Boot.booting, hpc]) trivial
  | report =>
      rw [Boot.bsp, hpc]
      cases hflag : s.apBootFlag with
      | none => exact h.skip
      | some a =>
          refine { h.skip with reports := ?_ }
          intro c hc
          rcases List.mem_cons.mp hc with rfl | hc
          · exact h.flag s.i a (by rw [Boot.booting, hpc]) hflag
          · exact h.reports c hc
  | done =>
      rw [Boot.bsp, hpc]
      exact h

end Invariant

/-! ## Every timing -/

section Timing

variable {apicIds : List Nat} {bspApicId : Nat} {acts : List BootAct}

/-- When every AP reads the mailbox and sets the flag on time, no two run on
    one stack or with one core state, and whoever is reported as checked in
    set the flag. -/
theorem handshake_on_time
    (htime : Along (Boot.step apicIds bspApicId) Boot.OnTime {} acts) :
    Throughout (Boot.step apicIds bspApicId) (Boot.Handshake apicIds) {} acts := by
  refine throughout_of_invariant (fun _ h => h.handshake) ?_ bootOk_init htime
  intro s act h hok
  cases act with
  | bsp b => exact h.bspStep bspApicId b
  | ap a b => exact h.ap hok b

end Timing

/-- Core 1 checks in within its wait. -/
theorem handshake_on_time_two :
    Throughout (Boot.step [0, 1, 2] 0) (Boot.Handshake [0, 1, 2]) {}
      (List.replicate 11 (.bsp true) ++ List.replicate 6 (.ap 1 true)
        ++ List.replicate 11 (.bsp true)) :=
  handshake_on_time (by decide)

/-- The wait for core 1 times out, and core 1 starts when the mailbox is
    already core 2's: both run with one core state, and the flag that core 1
    sets reports core 2. -/
theorem late_core_shares_state :
    let late : List BootAct :=
      List.replicate 22 (.bsp true) ++ List.replicate 6 (.ap 1 true)
        ++ List.replicate 2 (.bsp true) ++ List.replicate 3 (.ap 2 true)
    let s := exec (Boot.step [0, 1, 2] 0) {} late
    (∃ v ∈ (s.aps 1).coreState, v ∈ (s.aps 2).coreState) ∧ (2, 1) ∈ s.checkedIn ∧
      ¬ s.Handshake [0, 1, 2] := by
  intro late s
  have hshared : ∃ v ∈ (s.aps 1).coreState, v ∈ (s.aps 2).coreState := by decide
  have hreport : (2, 1) ∈ s.checkedIn := by decide
  refine ⟨hshared, hreport, ?_⟩
  intro hs
  exact absurd (hs.reports (2, 1) hreport) (by decide)

end Pfi
