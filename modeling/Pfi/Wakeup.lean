import Pfi.Smp
import Pfi.Run

/-! # The wake-up of an idle core

    The dispatch loop tests the ready list with interrupts off, writes its
    status, and halts with `sti; hlt`.  `smp_push_task` queues its thread,
    reads the status, and sends a wake-up interrupt unless the status is
    RUNNING.  Interrupts are messages in flight: one that arrives while
    interrupts are off stays pending and ends the next `hlt` at once.

    A push between the test and the write of the status is seen by neither
    side: the loop has found an empty list, and the pusher still reads
    RUNNING.  As long as no pusher reads the status there, a queued thread
    always has a wake-up on its way while the core idles
    (`no_lost_wakeup`). -/

namespace Pfi

open Run

/-! ## The core with its interrupts -/

/-- The core, its interrupt flag and pending interrupt, the pushers that are
    about to send, and the number of wake-ups in flight. -/
structure Wake where
  smp : Smp
  iflag : Bool := false
  pending : Bool := false
  halted : Bool := false
  sending : Nat → Bool := fun _ => false
  inFlight : Nat := 0

/-- A step of the core, of a pusher, of the interrupts, or of
    `smp_shutdown`, `smp_reserve_core` and `smp_unreserve_core`, whose own
    wake-ups are left out. -/
inductive WakeAct where
  | core
  | push (p new : Nat)
  | send (p : Nat)
  | deliver
  | timer
  | shutdown
  | reserve (b : Bool)
deriving Repr, DecidableEq

/-- `sti`; a pending interrupt is taken, and its handler only acknowledges
    it. -/
def Wake.sti (w : Wake) : Wake := { w with iflag := true, pending := false }

/-- A step of the dispatch loop: `cli` stands before the test of
    `shutdown_core`, `sti` after a test that found a thread and before the
    `hlt`. -/
def Wake.loop (w : Wake) : LoopPc → Wake
  | .top => { w with smp := loopStep w.smp .top, iflag := false }
  | .check =>
      if w.smp.readyList = none then { w with smp := loopStep w.smp .check }
      else Wake.sti { w with smp := loopStep w.smp .check }
  | .hlt =>
      if w.halted then w
      else if w.pending then Wake.sti { w with smp := loopStep w.smp .hlt }
      else { w with iflag := true, halted := true }
  | pc => { w with smp := loopStep w.smp pc }

/-- A step of whatever the core executes; a task calls `smp_yield`. -/
def Wake.core (w : Wake) : Wake :=
  match w.smp.cpu with
  | .loop pc => w.loop pc
  | .task t => { w with smp := { w.smp with cpu := .yield t .readCur } }
  | .yield t pc => { w with smp := yieldStep w.smp t pc }
  | .off => w
  | .wild => w

/-- An interrupt ends the `hlt`. -/
def Wake.wake (w : Wake) : Wake := { w with smp := loopStep w.smp .hlt, halted := false }

/-- A wake-up arrives. -/
def Wake.deliver (w : Wake) : Wake :=
  if w.inFlight = 0 then w
  else if w.halted then { w.wake with inFlight := w.inFlight - 1 }
  else if w.iflag then { w with inFlight := w.inFlight - 1 }
  else { w with inFlight := w.inFlight - 1, pending := true }

/-- A step of pusher `p`, which first sends a wake-up that it decided on. -/
def Wake.push (w : Wake) (p new : Nat) : Wake :=
  if w.sending p = true ∨ new ∈ w.smp.created ∨ new = w.smp.idleThread then w
  else
    match w.smp.pushers p with
    | .readStatus =>
        { w with
          smp := pushStep w.smp p new
          sending := Function.update w.sending p (decide (w.smp.status ≠ .running)) }
    | _ => { w with smp := pushStep w.smp p new }

def Wake.step (w : Wake) : WakeAct → Wake
  | .core => w.core
  | .push p new => w.push p new
  | .send p =>
      if w.sending p then
        { w with sending := Function.update w.sending p false, inFlight := w.inFlight + 1 }
      else w
  | .deliver => w.deliver
  | .timer => if w.halted then w.wake else w
  | .shutdown => { w with smp := { w.smp with shutdownCore := true } }
  | .reserve b => { w with smp := { w.smp with reserveCore := b } }

/-- The core as `smp_init` leaves it, with no interrupt anywhere. -/
def Wake.Init (w : Wake) : Prop := w.smp.Init ∧ w = { smp := w.smp }

/-- When every pusher has returned and the core is halted, nothing is queued
    or a wake-up is in flight. -/
def Wake.Awake (w : Wake) : Prop :=
  (∀ p, w.smp.pushers p = .readTid ∧ w.sending p = false) → w.halted = true →
    w.smp.readyList = none ∨ 0 < w.inFlight

/-- The loop has found the list empty and has not written its status yet. -/
def Cpu.testedEmpty : Cpu → Bool
  | .loop .readReserve => true
  | .loop (.setIdleStatus _) => true
  | _ => false

/-- A pusher does not read the status between the loop's test and its write of
    the status. -/
def Wake.OnTime (w : Wake) : WakeAct → Prop
  | .push p _ => w.smp.pushers p = .readStatus → w.smp.cpu.testedEmpty = false
  | _ => True

instance (w : Wake) : (act : WakeAct) → Decidable (w.OnTime act)
  | .core => isTrue trivial
  | .push p _ =>
      inferInstanceAs (Decidable (w.smp.pushers p = .readStatus → w.smp.cpu.testedEmpty = false))
  | .send _ => isTrue trivial
  | .deliver => isTrue trivial
  | .timer => isTrue trivial
  | .shutdown => isTrue trivial
  | .reserve _ => isTrue trivial

/-! ## The invariant -/

/-- From the empty test to the end of the `hlt`. -/
def Cpu.idling : Cpu → Bool
  | .loop .hlt => true
  | cpu => cpu.testedEmpty

/-- From the test to the `hlt`, where interrupts are off. -/
def Cpu.masked : Cpu → Bool
  | .loop .check => true
  | cpu => cpu.idling

/-- Someone is about to wake the core: a pusher that has queued its thread and
    has not read the status or not sent yet, or an interrupt that has not
    been taken. -/
def Wake.Coming (w : Wake) : Prop :=
  (∃ p, w.smp.pushers p = .readStatus ∨ w.sending p = true) ∨ w.pending = true ∨
    0 < w.inFlight

structure WakeOk (w : Wake) : Prop where
  halted : w.halted = true → w.smp.cpu = .loop .hlt ∧ w.pending = false
  status : w.smp.cpu = .loop .hlt → w.smp.status ≠ .running
  masked : w.smp.cpu.masked = true → w.halted = false → w.iflag = false
  coming : w.smp.cpu.idling = true → w.smp.readyList ≠ none → w.Coming

theorem WakeOk.awake {w : Wake} (h : WakeOk w) : w.Awake := by
  intro hdone hhalted
  obtain ⟨hcpu, hpending⟩ := h.halted hhalted
  by_cases hready : w.smp.readyList = none
  · exact Or.inl hready
  · right
    have hidling : w.smp.cpu.idling = true := by
      rw [hcpu]
      rfl
    rcases h.coming hidling hready with ⟨p, hp | hp⟩ | hp | hp
    · rw [(hdone p).1] at hp
      cases hp
    · rw [(hdone p).2] at hp
      cases hp
    · rw [hpending] at hp
      cases hp
    · exact hp

theorem wakeOk_init {w : Wake} (h : w.Init) : WakeOk w := by
  obtain ⟨⟨hcpu, hready, -, -⟩, hw⟩ := h
  constructor
  · intro hhalted
    rw [hw] at hhalted
    cases hhalted
  · intro hc
    rw [hcpu] at hc
    cases hc
  · intro _ _
    rw [hw]
  · intro _ hc
    exact absurd hready hc

section Step

variable {w : Wake}

/-- A state in which the core does not stand before or in a `hlt`. -/
theorem wakeOk_busy (hhalted : w.halted = false) (hmasked : w.smp.cpu.masked = false) :
    WakeOk w := by
  constructor
  · intro hc
    rw [hhalted] at hc
    cases hc
  · intro hc
    rw [hc] at hmasked
    cases hmasked
  · intro hc
    rw [hmasked] at hc
    cases hc
  · intro hc
    have hno : w.smp.cpu.masked = true := by
      generalize w.smp.cpu = cpu at hc ⊢
      unfold Cpu.masked
      split
      · rfl
      · exact hc
    rw [hmasked] at hno
    cases hno

/-- A state in which it stands before one, with interrupts off. -/
theorem wakeOk_masked (hhalted : w.halted = false) (hiflag : w.iflag = false)
    (hstatus : w.smp.cpu = .loop .hlt → w.smp.status ≠ .running)
    (hcoming : w.smp.cpu.idling = true → w.smp.readyList ≠ none → w.Coming) : WakeOk w := by
  refine ⟨fun hc => ?_, hstatus, fun _ _ => hiflag, hcoming⟩
  rw [hhalted] at hc
  cases hc

/-- A resumed stack is a thread, the top of the loop, or was never saved. -/
theorem resume_not_masked (s : Smp) (t : Nat) : (s.resume t).cpu.masked = false := by
  unfold Smp.resume
  split
  · rfl
  · rfl
  · rfl

/-- The core is awake unless it stands at the `hlt`. -/
theorem WakeOk.not_halted (h : WakeOk w) (hcpu : w.smp.cpu ≠ .loop .hlt) :
    w.halted = false := by
  by_contra hc
  exact hcpu (h.halted (Bool.not_eq_false _ ▸ hc)).1

/-- The top of the loop, which turns interrupts off for the test that
    follows. -/
theorem WakeOk.loop_top (hhalted : w.halted = false) : WakeOk (w.loop .top) := by
  by_cases hdown : w.smp.shutdownCore = true
  · refine wakeOk_busy hhalted ?_
    simp only [Wake.loop, loopStep, hdown, if_true]
    rfl
  · have hcpu : (w.loop .top).smp.cpu = .loop .check := by
      simp only [Wake.loop, loopStep]
      exact if_neg hdown
    refine wakeOk_masked hhalted rfl ?_ ?_
    · intro hc
      rw [hcpu] at hc
      cases hc
    · intro hc
      rw [hcpu] at hc
      cases hc

/-- The test of the ready list. -/
theorem WakeOk.loop_check (hhalted : w.halted = false) (hiflag : w.iflag = false) :
    WakeOk (w.loop .check) := by
  by_cases hready : w.smp.readyList = none
  · -- the list is empty now
    have hloop : w.loop .check = { w with smp := { w.smp with cpu := .loop .readReserve } } := by
      simp only [Wake.loop, loopStep, hready, if_true]
    rw [hloop]
    refine wakeOk_masked hhalted hiflag ?_ ?_
    · intro hc
      cases hc
    · intro _ hc
      exact absurd hready hc
  · have hloop : w.loop .check = Wake.sti { w with smp := { w.smp with cpu := .loop .pop } } := by
      simp only [Wake.loop, loopStep, hready, if_false]
    rw [hloop]
    exact wakeOk_busy hhalted rfl

/-- The `hlt`. -/
theorem WakeOk.loop_hlt (h : WakeOk w) (hpc : w.smp.cpu = .loop .hlt) : WakeOk (w.loop .hlt) := by
  have hcoming := h.coming
  rw [hpc] at hcoming
  simp only [Wake.loop]
  by_cases hhalted : w.halted = true
  · rw [if_pos hhalted]
    exact h
  · rw [if_neg hhalted]
    by_cases hpending : w.pending = true
    · -- a pending interrupt ends the halt at once
      rw [if_pos hpending]
      exact wakeOk_busy (Bool.eq_false_iff.mpr hhalted) rfl
    · rw [if_neg hpending]
      constructor
      · intro _
        exact ⟨hpc, Bool.eq_false_iff.mpr hpending⟩
      · exact h.status
      · intro _ hc
        cases hc
      · intro _ hready
        exact hcoming rfl hready

theorem WakeOk.loop (h : WakeOk w) {pc : LoopPc} (hpc : w.smp.cpu = .loop pc) :
    WakeOk (w.loop pc) := by
  have hoff : pc ≠ .hlt → w.halted = false :=
    fun hne => h.not_halted (fun hc => hne (Cpu.loop.inj (hpc.symm.trans hc)))
  have hmasked := h.masked
  have hcoming := h.coming
  rw [hpc] at hmasked hcoming
  cases pc with
  | enterStatus => exact wakeOk_busy (hoff (by decide)) rfl
  | enterCur => exact wakeOk_busy (hoff (by decide)) rfl
  | top => exact loop_top (hoff (by decide))
  | check => exact loop_check (hoff (by decide)) (hmasked rfl (hoff (by decide)))
  | pop =>
      refine wakeOk_busy (hoff (by decide)) ?_
      simp only [Wake.loop, loopStep]
      split
      · rfl
      · rfl
  | readPrev n => exact wakeOk_busy (hoff (fun hc => by cases hc)) rfl
  | setCur prev n => exact wakeOk_busy (hoff (fun hc => by cases hc)) rfl
  | setStatus prev n => exact wakeOk_busy (hoff (fun hc => by cases hc)) rfl
  | save prev n => exact wakeOk_busy (hoff (fun hc => by cases hc)) rfl
  | load n => exact wakeOk_busy (hoff (fun hc => by cases hc)) (resume_not_masked w.smp n)
  | readReserve =>
      have hhalted := hoff (by decide)
      refine wakeOk_masked hhalted (hmasked rfl hhalted) ?_ (fun _ hready => hcoming rfl hready)
      intro hc
      cases hc
  | setIdleStatus reserved =>
      have hhalted := hoff (fun hc => by cases hc)
      refine wakeOk_masked hhalted (hmasked rfl hhalted) ?_ (fun _ hready => hcoming rfl hready)
      intro _ hc
      cases reserved with
      | true => cases hc
      | false => cases hc
  | hlt => exact h.loop_hlt hpc
  | setRunning => exact wakeOk_busy (hoff (by decide)) rfl

theorem WakeOk.core (h : WakeOk w) : WakeOk w.core := by
  unfold Wake.core
  cases hcpu : w.smp.cpu with
  | loop pc => exact h.loop hcpu
  | task t =>
      have hhalted := h.not_halted (by rw [hcpu]; exact fun hc => by cases hc)
      exact wakeOk_busy hhalted rfl
  | yield t pc =>
      have hhalted := h.not_halted (by rw [hcpu]; exact fun hc => by cases hc)
      refine wakeOk_busy hhalted ?_
      cases pc with
      | readIdle cur =>
          simp only [yieldStep]
          split
          · rfl
          · rfl
      | load idle => exact resume_not_masked w.smp idle
      | readCur => rfl
      | setReady cur idle => rfl
      | push cur idle => rfl
      | setCur cur idle => rfl
      | save cur idle => rfl
  | off => exact h
  | wild => exact h

/-- A pusher touches neither the core nor its status. -/
theorem pushStep_core (s : Smp) (p new : Nat) :
    (pushStep s p new).cpu = s.cpu ∧ (pushStep s p new).status = s.status := by
  unfold pushStep
  split
  · exact ⟨rfl, rfl⟩
  · exact ⟨rfl, rfl⟩
  · exact ⟨rfl, rfl⟩
  · exact ⟨rfl, rfl⟩
  · exact ⟨rfl, rfl⟩

/-- A pusher moves only itself. -/
theorem pushStep_pushers (s : Smp) {p q : Nat} (new : Nat) (hq : q ≠ p) :
    (pushStep s p new).pushers q = s.pushers q := by
  unfold pushStep
  split
  · exact Function.update_of_ne hq _ _
  · exact Function.update_of_ne hq _ _
  · exact Function.update_of_ne hq _ _
  · exact Function.update_of_ne hq _ _
  · exact Function.update_of_ne hq _ _

/-- After a step of a pusher the list is as before, or the pusher is about to
    read the status. -/
theorem pushStep_ready (s : Smp) (p new : Nat) :
    (pushStep s p new).readyList = s.readyList ∨
      (pushStep s p new).pushers p = .readStatus := by
  unfold pushStep
  split
  · exact Or.inl rfl
  · exact Or.inl rfl
  · exact Or.inl rfl
  · exact Or.inr (Function.update_self _ _ _)
  · exact Or.inl rfl

/-- A step of a pusher that does not read the status. -/
theorem WakeOk.pushQuiet (h : WakeOk w) {p : Nat} (hpc : w.smp.pushers p ≠ .readStatus)
    (new : Nat) : WakeOk { w with smp := pushStep w.smp p new } := by
  obtain ⟨hcpu, hstatus⟩ := pushStep_core w.smp p new
  constructor
  · intro hc
    rw [hcpu]
    exact h.halted hc
  · intro hc
    rw [hcpu] at hc
    rw [hstatus]
    exact h.status hc
  · intro hc
    rw [hcpu] at hc
    exact h.masked hc
  · intro hc hready
    rw [hcpu] at hc
    rcases pushStep_ready w.smp p new with hsame | hread
    · rw [hsame] at hready
      rcases h.coming hc hready with ⟨q, hq | hq⟩ | hq
      · left
        refine ⟨q, Or.inl ?_⟩
        have hne : q ≠ p := by
          rintro rfl
          exact hpc hq
        exact (pushStep_pushers w.smp new hne).trans hq
      · exact Or.inl ⟨q, Or.inr hq⟩
      · exact Or.inr hq
    · exact Or.inl ⟨p, Or.inl hread⟩

/-- A pusher that reads the status on time sends if the core idles. -/
theorem WakeOk.readStatus (h : WakeOk w) {p : Nat} (hpc : w.smp.pushers p = .readStatus)
    (htime : w.smp.cpu.testedEmpty = false) (new : Nat) :
    WakeOk { w with
      smp := pushStep w.smp p new
      sending := Function.update w.sending p (decide (w.smp.status ≠ .running)) } := by
  have hstep : pushStep w.smp p new
      = { w.smp with pushers := Function.update w.smp.pushers p .readTid } := by
    simp only [pushStep, hpc]
  rw [hstep]
  constructor
  · exact h.halted
  · exact h.status
  · exact h.masked
  · intro hc _
    left
    refine ⟨p, Or.inr ?_⟩
    -- the core idles at its `hlt`, with its status written
    have hhlt : w.smp.cpu = .loop .hlt := by
      change w.smp.cpu.idling = true at hc
      generalize w.smp.cpu = cpu at hc htime
      unfold Cpu.idling at hc
      split at hc
      · rfl
      · rw [htime] at hc
        cases hc
    show Function.update w.sending p (decide (w.smp.status ≠ .running)) p = true
    rw [Function.update_self]
    exact decide_eq_true (h.status hhlt)

theorem WakeOk.send (h : WakeOk w) (p : Nat) :
    WakeOk { w with
      sending := Function.update w.sending p false, inFlight := w.inFlight + 1 } :=
  ⟨h.halted, h.status, h.masked, fun _ _ => Or.inr (Or.inr (Nat.succ_pos _))⟩

theorem WakeOk.deliver (h : WakeOk w) : WakeOk w.deliver := by
  unfold Wake.deliver
  by_cases hnone : w.inFlight = 0
  · rw [if_pos hnone]
    exact h
  · rw [if_neg hnone]
    by_cases hhalted : w.halted = true
    · rw [if_pos hhalted]
      exact wakeOk_busy rfl rfl
    · rw [if_neg hhalted]
      have hawake : w.halted = false := Bool.eq_false_iff.mpr hhalted
      by_cases hflag : w.iflag = true
      · -- with interrupts on the core does not stand between its test and the halt
        rw [if_pos hflag]
        refine wakeOk_busy hawake ?_
        by_contra hc
        have hoff := h.masked (Bool.not_eq_false _ ▸ hc) hawake
        rw [hflag] at hoff
        cases hoff
      · rw [if_neg hflag]
        constructor
        · intro hc
          exact absurd hc hhalted
        · exact h.status
        · intro _ _
          exact Bool.eq_false_iff.mpr hflag
        · intro _ _
          exact Or.inr (Or.inl rfl)

/-- Every step on time keeps the invariant. -/
theorem WakeOk.step (h : WakeOk w) {act : WakeAct} (hok : w.OnTime act) :
    WakeOk (w.step act) := by
  cases act with
  | core => exact h.core
  | push p new =>
      simp only [Wake.step, Wake.push]
      split
      · exact h
      · split
        · rename_i hpc
          exact h.readStatus hpc (hok hpc) new
        · rename_i hpc
          exact h.pushQuiet (fun hc => hpc hc) new
  | send p =>
      simp only [Wake.step]
      split
      · exact h.send p
      · exact h
  | deliver => exact h.deliver
  | timer =>
      simp only [Wake.step]
      split
      · exact wakeOk_busy rfl rfl
      · exact h
  | shutdown => exact ⟨h.halted, h.status, h.masked, h.coming⟩
  | reserve b => exact ⟨h.halted, h.status, h.masked, h.coming⟩

end Step

/-! ## Every interleaving -/

/-- In every state of an interleaving in which no pusher reads the status
    between the loop's empty test and its write of the status, no wake-up is
    lost. -/
theorem no_lost_wakeup {w : Wake} {acts : List WakeAct} (h0 : w.Init)
    (htime : Along Wake.step Wake.OnTime w acts) : Throughout Wake.step Wake.Awake w acts :=
  throughout_of_invariant (fun _ h => h.awake) (fun _ _ h hok => h.step hok) (wakeOk_init h0)
    htime

/-- A push to a halted core, which is woken. -/
theorem no_lost_wakeup_sent :
    Throughout Wake.step Wake.Awake { smp := { idleThread := 1 } }
      [.core, .core, .core, .core, .core, .core, .core, .push 0 7, .push 0 7, .push 0 7,
        .push 0 8, .push 0 8, .send 0, .deliver, .core, .core, .core] :=
  no_lost_wakeup ⟨⟨rfl, rfl, rfl, fun _ => rfl⟩, rfl⟩ (by decide)

/-- A push between the empty test and the write of the status: the pusher
    reads RUNNING, and the core halts with a thread in its list. -/
theorem wakeup_lost :
    let acts : List WakeAct :=
      [.core, .core, .core, .core, .push 0 7, .push 0 7, .push 0 7, .push 0 8, .push 0 8,
        .core, .core, .core]
    Wake.Init { smp := { idleThread := 1 } } ∧
      ¬ (exec Wake.step { smp := { idleThread := 1 } } acts).Awake := by
  intro acts
  refine ⟨⟨⟨rfl, rfl, rfl, fun _ => rfl⟩, rfl⟩, ?_⟩
  intro hawake
  have hhalted : (exec Wake.step { smp := { idleThread := 1 } } acts).halted = true := by decide
  have hqueued : (exec Wake.step { smp := { idleThread := 1 } } acts).smp.readyList = some 7 := by
    decide
  have hflight : (exec Wake.step { smp := { idleThread := 1 } } acts).inFlight = 0 := by decide
  have hdone : ∀ p, (exec Wake.step { smp := { idleThread := 1 } } acts).smp.pushers p = .readTid ∧
      (exec Wake.step { smp := { idleThread := 1 } } acts).sending p = false := by
    intro p
    simp [acts, exec, Wake.step, Wake.core, Wake.loop, loopStep, Wake.push, pushStep,
      Smp.pushReady]
  rcases hawake hdone hhalted with hc | hc
  · rw [hqueued] at hc
    cases hc
  · rw [hflight] at hc
    exact absurd hc (Nat.lt_irrefl 0)

end Pfi
