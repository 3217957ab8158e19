import Pfi.FirmwareLocks
import Pfi.SpinLock

/-! # The spin locks of the firmware

    `spin_lock` and `spin_lock_irqsave` exchange a word until it was zero; the
    calls of the firmware (its `*_init` functions excepted) run on them in the
    machine of `SpinLock`.  The queues of the cores are locked without the
    interrupt flag, all other locks with it.

    The order of the locks carries over: a lock has one holder, no interrupt is
    taken where one of the masked locks is held, and a core that spins at a word
    waits for one that does not (`spin_waits_end`). -/

namespace Pfi.Locks

open LockOrder Run

/-- Taken by `spin_lock_irqsave`. -/
def Lock.masks : Lock → Bool
  | .queue _ => false
  | _ => true

/-- Every call keeps the order. -/
theorem isCall_above {p : Prog Lock} (h : IsCall p) : Above Lock.rank 0 p := by
  obtain ⟨f, rfl⟩ := h
  exact f.locks_above

section Cores

variable {C : Type} [DecidableEq C] {s : Spin Lock C}

/-- Whatever the cores call (the `*_init` functions excepted) and however their
    accesses to the words are interleaved: each state is one that the machine of
    locks reaches, a word is one exactly while one core has its lock, a core has
    no interrupts while it has a masked lock, and between its calls it has the
    flag that it had set. -/
theorem spin_locks_safe (h : SpinRuns Lock.masks IsCall s) :
    (∃ t, Runs IsCall t ∧ Fits Lock.rank Lock.masks s t) ∧ s.Safe Lock.rank Lock.masks := by
  obtain ⟨t, ht, hfits⟩ := h.fits (fun _ hp => isCall_above hp)
  exact ⟨⟨t, ht, hfits⟩, hfits.safe (ht.disciplined (fun _ hp => isCall_above hp))⟩

end Cores

/-- Two cores between calls, with their interrupts enabled. -/
def idleCores : Spin Lock (Fin 2) :=
  ⟨fun _ => 0, fun _ => [], fun _ => .run, fun _ => true, fun _ => [], fun _ => true⟩

/-- The cores have nothing to do, and no word is taken. -/
theorem idleCores_idle : idleCores.Idle :=
  ⟨fun _ => rfl, fun _ => rfl, fun _ => rfl, fun _ => rfl, fun _ => rfl⟩

/-- A call of `serial_printc`. -/
theorem serialPrintc_call : IsCall serialPrintc := ⟨.serialPrintc, rfl⟩

/-- Core 0 in `serial_printc`, with the word of the lock set, and core 1 between
    its calls. -/
theorem printing_reached :
    ∃ s : Spin Lock (Fin 2), SpinRuns Lock.masks IsCall s ∧ s.word .serialc = 1 ∧
      s.cont 1 = [] ∧ s.phase 1 = .run := by
  have h0 : SpinRuns Lock.masks IsCall idleCores := .start idleCores_idle
  have h1 := Reachable.step h0 (SpinStep.call (c := 0) rfl rfl serialPrintc_call)
  have h2 := Reachable.step h1 (SpinStep.go (c := 0) rfl Local.seq)
  have h3 := Reachable.step h2 (SpinStep.enterMasked (c := 0) (l := .serialc) rfl rfl rfl)
  have h4 := Reachable.step h3 (SpinStep.take (c := 0) (l := .serialc) rfl rfl rfl)
  exact ⟨_, h4, rfl, rfl, rfl⟩

theorem spin_locks_safe_serial :
    ∃ s : Spin Lock (Fin 2), SpinRuns Lock.masks IsCall s ∧ s.word .serialc = 1 ∧
      s.Safe Lock.rank Lock.masks := by
  obtain ⟨s, hs, hword, -⟩ := printing_reached
  exact ⟨s, hs, hword, (spin_locks_safe hs).2⟩

/-- Whatever the cores call (the `*_init` functions excepted) and however their
    accesses to the words are interleaved: no cores wait for each other in a
    circle, and a core in a call waits at most, from the holder of one word to
    that of the next, for a core in a call that is at no taken word.  Whether
    that one ever leaves its loop is up to the device or the counter that it
    reads. -/
theorem spin_waits_end {C : Type} [DecidableEq C] [Finite C] {s : Spin Lock C}
    (h : SpinRuns Lock.masks IsCall s) (c : C) :
    ¬ Relation.TransGen (s.WaitsFor Lock.rank) c c ∧
      (s.Busy c → ∃ d, Relation.ReflTransGen (s.WaitsFor Lock.rank) c d ∧ s.Busy d ∧
        ∀ l, ¬ s.Blocked d l) :=
  ⟨h.not_waits_cycle (fun _ hp => isCall_above hp) c,
    h.waits_end (fun _ hp => isCall_above hp)⟩

/-- Core 1 spins at the word that core 0 has taken. -/
theorem spin_waits_end_serial :
    ∃ s : Spin Lock (Fin 2), s.Blocked 1 .serialc ∧
      ∃ d, Relation.ReflTransGen (s.WaitsFor Lock.rank) 1 d ∧ ∀ l, ¬ s.Blocked d l := by
  obtain ⟨s, hs, hword, hcont, hphase⟩ := printing_reached
  have h1 := Reachable.step hs (SpinStep.call (c := 1) hcont hphase serialPrintc_call)
  have h2 := Reachable.step h1 (SpinStep.go (c := 1) rfl Local.seq)
  obtain ⟨d, hd, -, hfree⟩ := (spin_waits_end h2 1).2 (Or.inl (fun hc => by cases hc))
  refine ⟨_, ⟨⟨_, rfl⟩, fun hzero => ?_⟩, d, hd, hfree⟩
  exact Nat.one_ne_zero (hword.symm.trans hzero)

end Pfi.Locks
