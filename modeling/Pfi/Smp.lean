import Mathlib.Logic.Function.Basic

/-! # The dispatch loop of one core

    The model of the scheduling part of `smp.c`: the loop of `ap_kernel_entry`
    on one core, `smp_yield` by the tasks it runs, and any number of other
    cores in `smp_push_task` towards it.  A step is one critical section of
    `queue_lock`, or one read or write outside it.

    Threads are pointers, with `none` for a null one.  A thread's saved `rsp`
    is modelled by what its stack resumes; it is `none` while the thread runs,
    when the slot is stale.  Interrupts only end a `hlt`, since the handlers
    do no more than acknowledge them.  Messages and the emergency stack are
    left out. -/

namespace Pfi

/-! ## State -/

inductive ThreadStatus where
  | ready
  | running
deriving Repr, DecidableEq

inductive CoreStatus where
  | ready
  | reserved
  | running
deriving Repr, DecidableEq

/-- What a saved stack resumes: a thread's own code, or the dispatch loop
    behind its call of `thread_context_switch`. -/
inductive Resume where
  | thread (t : Nat)
  | loop
deriving Repr, DecidableEq

/-- Where the dispatch loop stands; the arguments are its local variables. -/
inductive LoopPc where
  | enterStatus
  | enterCur
  | top
  | check
  | pop
  | readPrev (next : Nat)
  | setCur (prev next : Nat)
  | setStatus (prev next : Nat)
  | save (prev next : Nat)
  | load (next : Nat)
  | readReserve
  | setIdleStatus (reserved : Bool)
  | hlt
  | setRunning
deriving Repr, DecidableEq

/-- Where a call of `smp_yield` stands. -/
inductive YieldPc where
  | readCur
  | readIdle (cur : Nat)
  | setReady (cur idle : Nat)
  | push (cur idle : Nat)
  | setCur (cur idle : Nat)
  | save (cur idle : Nat)
  | load (idle : Nat)
deriving Repr, DecidableEq

/-- What the core executes: the dispatch loop, the code of a thread, a call of
    `smp_yield` by a thread, the final halt, or a stack that was never
    saved. -/
inductive Cpu where
  | loop (pc : LoopPc)
  | task (t : Nat)
  | yield (t : Nat) (pc : YieldPc)
  | off
  | wild
deriving Repr, DecidableEq

/-- Where another core stands in `smp_push_task`. -/
inductive PusherPc where
  | readTid
  | writeTid (tid : Nat)
  | create (tid : Nat)
  | push (t : Nat)
  | readStatus
deriving Repr, DecidableEq

/-- `struct core_state` and the threads it handles.  `created` lists the
    results of `create_thread`. -/
structure Smp where
  cpu : Cpu := .loop .enterStatus
  readyList : Option Nat := none
  next : Nat → Option Nat := fun _ => none
  curThread : Nat := 0
  idleThread : Nat
  status : CoreStatus := .ready
  shutdownCore : Bool := false
  reserveCore : Bool := false
  nextTid : Nat := 0
  threadStatus : Nat → ThreadStatus := fun _ => .running
  tid : Nat → Nat := fun _ => 0
  saved : Nat → Option Resume := fun _ => none
  pushers : Nat → PusherPc := fun _ => .readTid
  created : List Nat := []

/-! ## Steps -/

/-- `mov rsp, [rsi]` and what follows: the stack of the thread resumes. -/
def Smp.resume (s : Smp) (t : Nat) : Smp :=
  match s.saved t with
  | none => { s with cpu := .wild }
  | some (.thread u) => { s with cpu := .task u, saved := Function.update s.saved t none }
  | some .loop => { s with cpu := .loop .top, saved := Function.update s.saved t none }

/-- The critical section of a push. -/
def Smp.pushReady (s : Smp) (t : Nat) : Smp :=
  { s with next := Function.update s.next t s.readyList, readyList := some t }

/-- One step of the dispatch loop. -/
def loopStep (s : Smp) : LoopPc → Smp
  | .enterStatus => { s with status := .running, cpu := .loop .enterCur }
  | .enterCur => { s with curThread := s.idleThread, cpu := .loop .top }
  | .top => { s with cpu := if s.shutdownCore then .off else .loop .check }
  | .check => { s with cpu := if s.readyList = none then .loop .readReserve else .loop .pop }
  | .pop =>
      match s.readyList with
      | none => { s with cpu := .wild }
      | some n => { s with readyList := s.next n, cpu := .loop (.readPrev n) }
  | .readPrev n => { s with cpu := .loop (.setCur s.curThread n) }
  | .setCur prev n => { s with curThread := n, cpu := .loop (.setStatus prev n) }
  | .setStatus prev n =>
      { s with
        threadStatus := Function.update s.threadStatus n .running
        cpu := .loop (.save prev n) }
  | .save prev n =>
      { s with saved := Function.update s.saved prev (some .loop), cpu := .loop (.load n) }
  | .load n => s.resume n
  | .readReserve => { s with cpu := .loop (.setIdleStatus s.reserveCore) }
  | .setIdleStatus reserved =>
      { s with status := if reserved then .reserved else .ready, cpu := .loop .hlt }
  | .hlt => { s with cpu := .loop .setRunning }
  | .setRunning => { s with status := .running, cpu := .loop .top }

/-- One step of `smp_yield`, called by thread `t`. -/
def yieldStep (s : Smp) (t : Nat) : YieldPc → Smp
  | .readCur => { s with cpu := .yield t (.readIdle s.curThread) }
  | .readIdle cur =>
      { s with
        cpu := if cur = s.idleThread then .task t else .yield t (.setReady cur s.idleThread) }
  | .setReady cur idle =>
      { s with
        threadStatus := Function.update s.threadStatus cur .ready
        cpu := .yield t (.push cur idle) }
  | .push cur idle => { s.pushReady cur with cpu := .yield t (.setCur cur idle) }
  | .setCur cur idle => { s with curThread := idle, cpu := .yield t (.save cur idle) }
  | .save cur idle =>
      { s with
        saved := Function.update s.saved cur (some (.thread t))
        cpu := .yield t (.load idle) }
  | .load idle => s.resume idle

/-- One step of pusher `p`; `new` is what `create_thread` returns. -/
def pushStep (s : Smp) (p new : Nat) : Smp :=
  match s.pushers p with
  | .readTid => { s with pushers := Function.update s.pushers p (.writeTid s.nextTid) }
  | .writeTid tid =>
      { s with nextTid := tid + 1, pushers := Function.update s.pushers p (.create tid) }
  | .create tid =>
      { s with
        tid := Function.update s.tid new tid
        threadStatus := Function.update s.threadStatus new .ready
        saved := Function.update s.saved new (some (.thread new))
        created := new :: s.created
        pushers := Function.update s.pushers p (.push new) }
  | .push t => { s.pushReady t with pushers := Function.update s.pushers p .readStatus }
  | .readStatus => { s with pushers := Function.update s.pushers p .readTid }

/-- The steps of the system. -/
inductive Smp.Next : Smp → Smp → Prop where
  /-- The dispatch loop. -/
  | loop {s : Smp} {pc : LoopPc} : s.cpu = .loop pc → Next s (loopStep s pc)
  /-- A task calls `smp_yield`. -/
  | call {s : Smp} {t : Nat} : s.cpu = .task t → Next s { s with cpu := .yield t .readCur }
  | yield {s : Smp} {t : Nat} {pc : YieldPc} : s.cpu = .yield t pc → Next s (yieldStep s t pc)
  /-- Another core; `create_thread` returns memory that is not in use. -/
  | push {s : Smp} {p new : Nat} : new ∉ s.created → new ≠ s.idleThread →
      Next s (pushStep s p new)
  /-- `smp_shutdown` from another core. -/
  | shutdown {s : Smp} : Next s { s with shutdownCore := true }
  /-- `smp_reserve_core` and `smp_unreserve_core`. -/
  | reserve {s : Smp} {b : Bool} : Next s { s with reserveCore := b }

/-- The core as `smp_init` leaves it when it is registered. -/
def Smp.Init (s : Smp) : Prop :=
  s.cpu = .loop .enterStatus ∧ s.readyList = none ∧ s.created = [] ∧
    ∀ p, s.pushers p = .readTid

end Pfi
