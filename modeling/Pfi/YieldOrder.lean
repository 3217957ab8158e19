import Pfi.SmpProofs

/-! # The order in which yielding threads run

    `smp_yield` puts the thread that yields at the head of the ready list, and
    `ap_kernel_entry` takes the next thread from the head.  So a thread that
    yields is the one that is dispatched next: when the threads of a core do
    nothing but yield, a turn of sixteen steps dispatches the first thread of
    the list and ends with the list as it was (`Smp.Waiting.turn`).  By
    induction on the turns every dispatch is of that thread
    (`Smp.Waiting.dispatches_replicate`), and the other threads never run
    (`yield_never_rotates`). -/

namespace Pfi

open Links Run

/-! ## A core whose threads only yield -/

/-- A step of the core when its threads only call `smp_yield` and no other
    core does anything. -/
def Smp.yieldOnly (s : Smp) : Smp :=
  match s.cpu with
  | .loop pc => loopStep s pc
  | .task t => { s with cpu := .yield t .readCur }
  | .yield t pc => yieldStep s t pc
  | .off => s
  | .wild => s

/-- The thread that the dispatch loop switches to. -/
def Smp.dispatched (s : Smp) : Option Nat :=
  match s.cpu with
  | .loop (.load n) => some n
  | _ => none

/-- The threads that are dispatched in the first `k` steps, in order. -/
def dispatches : (k : Nat) → Smp → List Nat
  | 0, _ => []
  | k + 1, s => s.dispatched.toList ++ dispatches k s.yieldOnly

/-- The dispatch loop starts an iteration, as the idle thread, and `ts` are
    the ready threads, in the order of the ready list and with their registers
    saved. -/
structure Smp.Waiting (s : Smp) (ts : List Nat) : Prop where
  top : s.cpu = .loop .top
  runs : s.shutdownCore = false
  cur : s.curThread = s.idleThread
  queue : Linked s.next s.readyList ts
  saved : ∀ t ∈ ts, s.saved t = some (.thread t)
  idle : s.idleThread ∉ ts
  distinct : ts.Nodup

/-- Any consecutive dispatches, as many as there are threads, run each of the
    threads once. -/
def RunsInTurn (s : Smp) (ts : List Nat) : Prop :=
  ∀ k w, w <:+: dispatches k s → w.length = ts.length → ∀ t ∈ ts, w.count t = 1

/-! ## One turn -/

/-- The state after a turn in which thread `h` ran and yielded. -/
def Smp.turned (s : Smp) (h : Nat) : Smp :=
  { s with
    cpu := .loop .top
    curThread := s.idleThread
    readyList := some h
    next := Function.update s.next h (s.next h)
    threadStatus := Function.update (Function.update s.threadStatus h .running) h .ready
    saved := Function.update (Function.update (Function.update (Function.update s.saved
      s.idleThread (some .loop)) h none) h (some (.thread h))) s.idleThread none }

section Turn

variable {s : Smp} {h : Nat} {ts : List Nat}

/-- Eight steps of the dispatch loop and eight of the thread that it
    dispatches, which is the first of the ready list. -/
theorem Smp.Waiting.turn (hw : s.Waiting (h :: ts)) (k : Nat) :
    dispatches (16 + k) s = h :: dispatches k (s.turned h) := by
  have hcpu := hw.top
  have hruns := hw.runs
  have hcur := hw.cur
  have hready : s.readyList = some h := (linked_cons.mp hw.queue).1
  have hsaved := hw.saved h List.mem_cons_self
  have hidle : h ≠ s.idleThread := fun hc => hw.idle (hc ▸ List.mem_cons_self)
  rw [Nat.add_comm]
  simp [dispatches, Smp.dispatched, Smp.yieldOnly, loopStep, yieldStep, Smp.resume,
    Smp.pushReady, Smp.turned, hcpu, hruns, hcur, hready, hsaved, hidle, hidle.symm]

/-- After the turn the same threads wait, in the same order. -/
theorem Smp.Waiting.turned (hw : s.Waiting (h :: ts)) : (s.turned h).Waiting (h :: ts) := by
  obtain ⟨-, hrest⟩ := linked_cons.mp hw.queue
  have hkeep : Function.update s.next h (s.next h) = s.next := Function.update_eq_self h s.next
  refine ⟨rfl, hw.runs, rfl, ?_, ?_, hw.idle, hw.distinct⟩
  · show Linked (Function.update s.next h (s.next h)) (some h) (h :: ts)
    rw [hkeep]
    exact ⟨rfl, hrest⟩
  · intro t ht
    have hidle : t ≠ s.idleThread := fun hc => hw.idle (hc ▸ ht)
    show (s.turned h).saved t = some (Resume.thread t)
    unfold Smp.turned
    dsimp only
    rw [Function.update_of_ne hidle]
    by_cases hth : t = h
    · rw [hth, Function.update_self]
    · rw [Function.update_of_ne hth, Function.update_of_ne hth, Function.update_of_ne hidle]
      exact hw.saved t ht

/-- Every dispatch is of the first thread.  The induction is on the turns. -/
theorem Smp.Waiting.dispatches_replicate (hw : s.Waiting (h :: ts)) (n : Nat) :
    dispatches (16 * n) s = List.replicate n h := by
  induction n generalizing s with
  | zero => rfl
  | succ n ih =>
      rw [Nat.mul_succ, Nat.add_comm, hw.turn, ih hw.turned, List.replicate_succ]

end Turn

/-- Two or more ready threads that only yield are never run in turn. -/
theorem yield_never_rotates {s : Smp} {ts : List Nat} (hw : s.Waiting ts)
    (hn : 2 ≤ ts.length) : ¬ RunsInTurn s ts := by
  obtain _ | ⟨h, _ | ⟨t, rest⟩⟩ := ts
  · exact absurd hn (by decide)
  · exact absurd hn (by rw [List.length_singleton]; decide)
  · intro hturn
    have hall := hw.dispatches_replicate (rest.length + 2)
    -- as many dispatches as there are threads, and none of them is of `t`
    have hcount := hturn (16 * (rest.length + 2)) (List.replicate (rest.length + 2) h)
      (hall ▸ List.infix_rfl) (by rw [List.length_replicate]; rfl) t
      (List.mem_cons_of_mem h List.mem_cons_self)
    have hne : h ≠ t := fun hc => (List.nodup_cons.mp hw.distinct).1 (hc ▸ List.mem_cons_self)
    rw [List.count_replicate, if_neg (by simpa using hne)] at hcount
    cases hcount

/-- Threads 1 and 2 are ready, thread 0 is the idle thread. -/
def twoReady : Smp :=
  { cpu := .loop .top
    readyList := some 1
    next := fun t => if t = 1 then some 2 else none
    idleThread := 0
    saved := fun t => if t = 0 then none else some (.thread t) }

theorem twoReady_waiting : twoReady.Waiting [1, 2] := by
  refine ⟨rfl, rfl, rfl, ⟨rfl, rfl, trivial⟩, ?_, by decide, by decide⟩
  intro t ht
  rcases List.mem_cons.mp ht with rfl | ht
  · rfl
  · rw [List.mem_singleton.mp ht]
    rfl

theorem yield_never_rotates_two : ¬ RunsInTurn twoReady [1, 2] :=
  yield_never_rotates twoReady_waiting (by decide)

/-- Two dispatches, and both are of thread 1. -/
theorem yield_runs_first_twice :
    twoReady.Waiting [1, 2] ∧ dispatches 32 twoReady = [1, 1] ∧ ¬ RunsInTurn twoReady [1, 2] := by
  have hall : dispatches 32 twoReady = [1, 1] := by decide
  refine ⟨twoReady_waiting, hall, fun hturn => ?_⟩
  have hcount := hturn 32 [1, 1] (hall ▸ List.infix_rfl) rfl 2 (by decide)
  cases hcount

end Pfi
