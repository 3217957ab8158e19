import Mathlib.Data.List.Basic
import Mathlib.Logic.Function.Basic
import Pfi.Run

/-! # An object behind a lock

    Threads work on an object.  An operation is a list of small steps, which a
    thread takes one at a time while it holds the lock; between them other
    threads move, but not in the object.

    Run what the holder still has to do, and the object is the one that the
    operations make when each is done at once, in the order in which the lock was
    taken (`Serial`).  That order has the operations of each thread in the order
    of its calls.  So whenever the lock is free, the run is a sequential one
    (`serializes`). -/

namespace LockedObject

open Run

/-- The place of a thread. -/
inductive Phase (σ O : Type) where
  | idle
  | waits (o : O)
  | inside (rest : List (σ → σ))

/-- The object, the holder of the lock and the threads.  No code reads the order
    in which the lock was taken, nor the calls of each thread. -/
structure State (σ O C : Type) where
  obj : σ
  holder : Option C := none
  phase : C → Phase σ O := fun _ => .idle
  order : List (C × O) := []
  calls : C → List O := fun _ => []

section Object

variable {σ O C : Type}

/-- The small steps, one after the other. -/
def finish (x : σ) (steps : List (σ → σ)) : σ := steps.foldl (fun x f => f x) x

@[simp] theorem finish_nil (x : σ) : finish x [] = x := rfl

@[simp] theorem finish_cons (x : σ) (f : σ → σ) (steps : List (σ → σ)) :
    finish x (f :: steps) = finish (f x) steps := rfl

/-- An operation that is done at once. -/
def atOnce (steps : O → List (σ → σ)) (x : σ) (o : O) : σ := finish x (steps o)

/-- The operation that a thread is about to do. -/
def Phase.pending : Phase σ O → List O
  | .waits o => [o]
  | _ => []

/-- The operations in the order in which the lock was taken. -/
def State.ops (s : State σ O C) : List O := s.order.map Prod.snd

variable [DecidableEq C]

/-- Those of one thread. -/
def State.opsOf (s : State σ O C) (c : C) : List O :=
  (s.order.filter (fun e => decide (e.1 = c))).map Prod.snd

def State.goTo (s : State σ O C) (c : C) (p : Phase σ O) : State σ O C :=
  { s with phase := Function.update s.phase c p }

/-- A step of a thread. -/
inductive Step (steps : O → List (σ → σ)) : State σ O C → State σ O C → Prop where
  | call {s : State σ O C} {c : C} (o : O) :
      s.phase c = .idle →
      Step steps s
        { s.goTo c (.waits o) with calls := Function.update s.calls c (s.calls c ++ [o]) }
  | acquire {s : State σ O C} {c : C} {o : O} :
      s.phase c = .waits o → s.holder = none →
      Step steps s
        { s.goTo c (.inside (steps o)) with holder := some c, order := s.order ++ [(c, o)] }
  | small {s : State σ O C} {c : C} {f : σ → σ} {rest : List (σ → σ)} :
      s.phase c = .inside (f :: rest) →
      Step steps s { s.goTo c (.inside rest) with obj := f s.obj }
  | release {s : State σ O C} {c : C} :
      s.phase c = .inside [] → Step steps s { s.goTo c .idle with holder := none }

/-- The threads are idle, and the object is `x`. -/
def State.start (x : σ) : State σ O C := { obj := x }

/-- The object is that of a sequential run, up to what the holder has to do. -/
structure Serial (steps : O → List (σ → σ)) (x : σ) (s : State σ O C) : Prop where
  holder : ∀ c, s.holder = some c ↔ ∃ rest, s.phase c = .inside rest
  free : s.holder = none → s.obj = exec (atOnce steps) x s.ops
  inside : ∀ c rest, s.phase c = .inside rest →
    finish s.obj rest = exec (atOnce steps) x s.ops
  called : ∀ c, s.opsOf c ++ (s.phase c).pending = s.calls c

variable {steps : O → List (σ → σ)} {x : σ} {s t : State σ O C} {c d : C} {o : O} {p : Phase σ O}

@[simp] theorem goTo_phase_self : (s.goTo c p).phase c = p := Function.update_self ..

@[simp] theorem goTo_phase_of_ne (h : d ≠ c) : (s.goTo c p).phase d = s.phase d :=
  Function.update_of_ne h ..

theorem Serial.start : Serial steps x (State.start x : State σ O C) := by
  refine ⟨fun c => iff_of_false (fun hc => ?_) ?_, fun _ => rfl, fun c rest hc => ?_, fun c => rfl⟩
  · exact Option.some_ne_none c hc.symm
  · rintro ⟨rest, hrest⟩
    cases hrest
  · cases hc

/-- One thread is inside at most. -/
theorem Serial.unique (h : Serial steps x s) {rest rest' : List (σ → σ)}
    (hc : s.phase c = .inside rest) (hd : s.phase d = .inside rest') : d = c := by
  have hholder := (h.holder c).mpr ⟨rest, hc⟩
  rw [(h.holder d).mpr ⟨rest', hd⟩] at hholder
  exact Option.some.inj hholder

/-- Nobody is inside while the lock is free. -/
theorem Serial.outside (h : Serial steps x s) (hfree : s.holder = none) {rest : List (σ → σ)} :
    s.phase d ≠ .inside rest := by
  intro hd
  have hholder := (h.holder d).mpr ⟨rest, hd⟩
  rw [hfree] at hholder
  exact Option.some_ne_none d hholder.symm

/-- A thread goes on with the operations that it had. -/
theorem Serial.called_goTo (h : Serial steps x s) (hp : p.pending = (s.phase c).pending) (d : C) :
    s.opsOf d ++ ((s.goTo c p).phase d).pending = s.calls d := by
  by_cases hdc : d = c
  · rw [hdc, goTo_phase_self, hp]
    exact h.called c
  · rw [goTo_phase_of_ne hdc]
    exact h.called d

/-- A thread calls. -/
theorem Serial.call (h : Serial steps x s) (hc : s.phase c = .idle) (o : O) :
    Serial steps x
      { s.goTo c (.waits o) with calls := Function.update s.calls c (s.calls c ++ [o]) } := by
  have hinside : ∀ d rest, (s.goTo c (.waits o)).phase d = .inside rest →
      s.phase d = .inside rest := by
    intro d rest hd
    by_cases hdc : d = c
    · rw [hdc, goTo_phase_self] at hd
      cases hd
    · rw [goTo_phase_of_ne hdc] at hd
      exact hd
  refine ⟨fun d => (h.holder d).trans ⟨?_, ?_⟩, h.free,
    fun d rest hd => h.inside d rest (hinside d rest hd), fun d => ?_⟩
  · rintro ⟨rest, hd⟩
    have hdc : d ≠ c := by
      intro heq
      rw [heq, hc] at hd
      cases hd
    exact ⟨rest, (goTo_phase_of_ne hdc).trans hd⟩
  · rintro ⟨rest, hd⟩
    exact ⟨rest, hinside d rest hd⟩
  · show s.opsOf d ++ ((s.goTo c (.waits o)).phase d).pending
      = Function.update s.calls c (s.calls c ++ [o]) d
    have hd := h.called d
    by_cases hdc : d = c
    · rw [hdc, hc] at hd
      rw [hdc, goTo_phase_self, Function.update_self, ← hd]
      exact congrArg (· ++ [o]) (List.append_nil _).symm
    · rw [goTo_phase_of_ne hdc, Function.update_of_ne hdc]
      exact hd

/-- A thread takes the lock: its operation is the last one. -/
theorem Serial.acquire (h : Serial steps x s) (hc : s.phase c = .waits o)
    (hfree : s.holder = none) :
    Serial steps x
      { s.goTo c (.inside (steps o)) with holder := some c, order := s.order ++ [(c, o)] } := by
  have hops : exec (atOnce steps) x ((s.order ++ [(c, o)]).map Prod.snd)
      = finish s.obj (steps o) := by
    rw [List.map_append, exec_append, h.free hfree]
    rfl
  refine ⟨fun d => ?_, fun hnone => absurd hnone (Option.some_ne_none c), fun d rest hd => ?_,
    fun d => ?_⟩
  · show some c = some d ↔ ∃ rest, (s.goTo c (.inside (steps o))).phase d = .inside rest
    by_cases hdc : d = c
    · rw [hdc]
      exact iff_of_true rfl ⟨steps o, goTo_phase_self⟩
    · refine iff_of_false (fun heq => hdc (Option.some.inj heq).symm) ?_
      rintro ⟨rest, hd⟩
      rw [goTo_phase_of_ne hdc] at hd
      exact h.outside hfree hd
  · have hd' : (s.goTo c (.inside (steps o))).phase d = .inside rest := hd
    by_cases hdc : d = c
    · rw [hdc, goTo_phase_self] at hd'
      cases hd'
      exact hops.symm
    · rw [goTo_phase_of_ne hdc] at hd'
      exact absurd hd' (h.outside hfree)
  · show ((s.order ++ [(c, o)]).filter (fun e => decide (e.1 = d))).map Prod.snd
      ++ ((s.goTo c (.inside (steps o))).phase d).pending = s.calls d
    have hd := h.called d
    unfold State.opsOf at hd
    rw [List.filter_append, List.map_append]
    by_cases hdc : d = c
    · rw [hdc, hc] at hd
      rw [hdc, goTo_phase_self]
      simpa [Phase.pending] using hd
    · rw [goTo_phase_of_ne hdc]
      simpa [Ne.symm hdc] using hd

/-- The holder takes a small step. -/
theorem Serial.small (h : Serial steps x s) {f : σ → σ} {rest : List (σ → σ)}
    (hc : s.phase c = .inside (f :: rest)) :
    Serial steps x { s.goTo c (.inside rest) with obj := f s.obj } := by
  have hholder := (h.holder c).mpr ⟨_, hc⟩
  refine ⟨fun d => (h.holder d).trans ⟨?_, ?_⟩, fun hnone => ?_, fun d rest' hd => ?_,
    h.called_goTo (by rw [hc]; rfl)⟩
  · rintro ⟨rest', hd⟩
    rw [h.unique hc hd]
    exact ⟨rest, goTo_phase_self⟩
  · rintro ⟨rest', hd⟩
    have hd' : (s.goTo c (.inside rest)).phase d = .inside rest' := hd
    by_cases hdc : d = c
    · rw [hdc]
      exact ⟨_, hc⟩
    · rw [goTo_phase_of_ne hdc] at hd'
      exact ⟨rest', hd'⟩
  · have hnone' : s.holder = none := hnone
    rw [hholder] at hnone'
    exact absurd hnone' (Option.some_ne_none c)
  · have hd' : (s.goTo c (.inside rest)).phase d = .inside rest' := hd
    by_cases hdc : d = c
    · rw [hdc, goTo_phase_self] at hd'
      cases hd'
      exact h.inside c (f :: rest) hc
    · rw [goTo_phase_of_ne hdc] at hd'
      exact absurd (h.unique hc hd') hdc

/-- The holder is done and releases the lock. -/
theorem Serial.release (h : Serial steps x s) (hc : s.phase c = .inside []) :
    Serial steps x { s.goTo c .idle with holder := none } := by
  have houtside : ∀ d rest, (s.goTo c .idle).phase d ≠ .inside rest := by
    intro d rest hd
    by_cases hdc : d = c
    · rw [hdc, goTo_phase_self] at hd
      cases hd
    · rw [goTo_phase_of_ne hdc] at hd
      exact hdc (h.unique hc hd)
  refine ⟨fun d => iff_of_false (fun hd => Option.some_ne_none d hd.symm) ?_,
    fun _ => h.inside c [] hc, fun d rest hd => absurd hd (houtside d rest),
    h.called_goTo (by rw [hc]; rfl)⟩
  rintro ⟨rest, hd⟩
  exact houtside d rest hd

theorem Serial.step (h : Serial steps x s) (hst : Step steps s t) : Serial steps x t := by
  cases hst with
  | call o hc => exact h.call hc o
  | acquire hc hfree => exact h.acquire hc hfree
  | small hc => exact h.small hc
  | release hc => exact h.release hc

/-- Every run is a sequential one. -/
theorem serializes (h : Reachable (· = State.start x) (Step steps) s) : Serial steps x s := by
  refine h.invariant (fun s₀ h0 => ?_) (fun _ _ hI hst => hI.step hst)
  rw [h0]
  exact Serial.start

end Object

end LockedObject
