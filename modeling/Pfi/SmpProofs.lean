import Pfi.Smp
import Pfi.Linked
import Pfi.Run

/-! # Conservation of the ready queue

    Each thread is a token that is always in one place: in the ready list,
    with the pusher that made it, with the dispatcher that took it, or running
    on the core.  `SmpOk` says so of a state, together with what the core's
    own steps rely on: the loop starts each turn as the idle thread, the list
    that was seen nonempty is still nonempty at the pop, and every thread that
    can be dispatched has its registers saved.  Pushers only add to the list,
    and only the core takes from it, so every step keeps the invariant
    (`SmpOk.next`). -/

namespace Pfi

open Links Run

/-! ## Places -/

inductive Place where
  | ready
  | pusher (p : Nat)
  | dispatcher
  | running
deriving Repr, DecidableEq

/-- The thread that the dispatcher carries between its pop and the switch. -/
def Cpu.dispatching : Cpu → Option Nat
  | .loop (.readPrev n) => some n
  | .loop (.setCur _ n) => some n
  | .loop (.setStatus _ n) => some n
  | .loop (.save _ n) => some n
  | .loop (.load n) => some n
  | _ => none

/-- The thread that runs on the core and is not in the ready list. -/
def Cpu.running : Cpu → Option Nat
  | .task t => some t
  | .yield t .readCur => some t
  | .yield t (.readIdle _) => some t
  | .yield t (.setReady _ _) => some t
  | .yield t (.push _ _) => some t
  | _ => none

/-- The thread that is in the ready list but still runs on the core. -/
def Cpu.unsaved : Cpu → Option Nat
  | .yield t (.setCur _ _) => some t
  | .yield t (.save _ _) => some t
  | _ => none

/-- Thread `t` is in the place, when `l` is the ready list. -/
def Smp.Here (s : Smp) (l : List Nat) : Place → Nat → Prop
  | .ready, t => t ∈ l
  | .pusher p, t => s.pushers p = .push t
  | .dispatcher, t => s.cpu.dispatching = some t
  | .running, t => s.cpu.running = some t

/-! ## The invariant -/

/-- What the core relies on where it stands. -/
def Smp.CpuOk (s : Smp) : Prop :=
  match s.cpu with
  | .loop .enterStatus => True
  | .loop .enterCur => True
  | .loop .pop => s.curThread = s.idleThread ∧ s.readyList ≠ none
  | .loop (.setCur prev _) => s.curThread = s.idleThread ∧ prev = s.idleThread
  | .loop (.setStatus prev n) => prev = s.idleThread ∧ s.curThread = n
  | .loop (.save prev n) => prev = s.idleThread ∧ s.curThread = n
  | .loop (.load n) => s.curThread = n ∧ s.saved s.idleThread = some .loop
  | .loop _ => s.curThread = s.idleThread
  | .task t => s.curThread = t ∧ s.saved s.idleThread = some .loop
  | .yield t .readCur => s.curThread = t ∧ s.saved s.idleThread = some .loop
  | .yield t (.readIdle cur) => cur = t ∧ s.curThread = t ∧ s.saved s.idleThread = some .loop
  | .yield t (.setReady cur idle) => cur = t ∧ t ≠ s.idleThread ∧
      idle = s.idleThread ∧ s.saved s.idleThread = some .loop
  | .yield t (.push cur idle) => cur = t ∧ t ≠ s.idleThread ∧
      idle = s.idleThread ∧ s.saved s.idleThread = some .loop
  | .yield t (.setCur cur idle) => cur = t ∧ t ≠ s.idleThread ∧
      idle = s.idleThread ∧ s.saved s.idleThread = some .loop
  | .yield t (.save cur idle) => cur = t ∧ t ≠ s.idleThread ∧ idle = s.idleThread ∧
      s.curThread = s.idleThread ∧ s.saved s.idleThread = some .loop
  | .yield _ (.load idle) => idle = s.idleThread ∧
      s.curThread = s.idleThread ∧ s.saved s.idleThread = some .loop
  | .off => True
  | .wild => False

structure SmpOk (s : Smp) (l : List Nat) : Prop where
  linked : Linked s.next s.readyList l
  nodup : l.Nodup
  placed : Placed (s.Here l) (fun t => t ∈ s.created)
  idle : s.idleThread ∉ s.created
  cpu : s.CpuOk
  saved : ∀ t ∈ s.created,
    s.cpu.running = some t ∨ s.cpu.unsaved = some t ∨ s.saved t = some (.thread t)

/-- While the dispatch loop runs, every thread is saved. -/
theorem SmpOk.saved_of_loop {s : Smp} {l : List Nat} {pc : LoopPc} (h : SmpOk s l)
    (hpc : s.cpu = .loop pc) : ∀ t ∈ s.created, s.saved t = some (.thread t) := by
  intro t ht
  have hs := h.saved t ht
  rw [hpc] at hs
  rcases hs with hr | hu | hs
  · cases hr
  · cases hu
  · exact hs

/-- A step of the core that moves no thread and saves no register. -/
theorem SmpOk.quiet {s s' : Smp} {l : List Nat} (h : SmpOk s l)
    (hnext : s'.next = s.next) (hready : s'.readyList = s.readyList)
    (hpushers : s'.pushers = s.pushers) (hcreated : s'.created = s.created)
    (hidle : s'.idleThread = s.idleThread) (hsaved : s'.saved = s.saved)
    (hdispatching : s'.cpu.dispatching = s.cpu.dispatching)
    (hrunning : s'.cpu.running = s.cpu.running) (hunsaved : s'.cpu.unsaved = s.cpu.unsaved)
    (hcpu : s'.CpuOk) : SmpOk s' l := by
  refine ⟨by rw [hnext, hready]; exact h.linked, h.nodup, ?_, ?_, hcpu, ?_⟩
  · refine h.placed.congr ?_ (fun t => by rw [hcreated])
    intro pl t
    cases pl with
    | ready => exact Iff.rfl
    | pusher p =>
        show s'.pushers p = _ ↔ _
        rw [hpushers]
        exact Iff.rfl
    | dispatcher =>
        show s'.cpu.dispatching = _ ↔ _
        rw [hdispatching]
        exact Iff.rfl
    | running =>
        show s'.cpu.running = _ ↔ _
        rw [hrunning]
        exact Iff.rfl
  · rw [hidle, hcreated]
    exact h.idle
  · rw [hcreated, hrunning, hunsaved, hsaved]
    exact h.saved

/-! ## The dispatch loop -/

section Core

variable {s : Smp} {l : List Nat}

/-- The pop takes the head of the list. -/
theorem SmpOk.pop (h : SmpOk s l) (hpc : s.cpu = .loop .pop) :
    ∃ l', SmpOk (loopStep s .pop) l' := by
  have hcpu := h.cpu
  unfold Smp.CpuOk at hcpu
  rw [hpc] at hcpu
  obtain ⟨hcur, hne⟩ := hcpu
  obtain ⟨n, hn⟩ := Option.ne_none_iff_exists'.mp hne
  have hlinked := h.linked
  rw [hn] at hlinked
  obtain ⟨l', hl, hrest⟩ := linked_pop hlinked
  have hnodup := h.nodup
  rw [hl, List.nodup_cons] at hnodup
  have hstep : loopStep s .pop
      = { s with readyList := s.next n, cpu := .loop (.readPrev n) } := by
    simp only [loopStep, hn]
  rw [hstep]
  have hnready : s.Here l .ready n := by
    show n ∈ l
    rw [hl]
    exact List.mem_cons_self
  have hmem : n ∈ s.created := h.placed.exists hnready
  refine ⟨l', hrest, hnodup.2, ?_, h.idle, hcur, ?_⟩
  · -- the head goes from the list to the dispatcher
    refine h.placed.put n .dispatcher ?_ ?_ ?_
    · intro pl
      cases pl with
      | ready => exact iff_of_false hnodup.1 (fun hc => nomatch hc)
      | pusher p =>
          refine iff_of_false (fun hp => ?_) (fun hc => nomatch hc)
          have := h.placed.same (.pusher p) .ready hp hnready
          cases this
      | dispatcher => exact iff_of_true rfl rfl
      | running => exact iff_of_false (fun hr => nomatch hr) (fun hc => nomatch hc)
    · intro pl t ht
      cases pl with
      | ready =>
          show t ∈ l' ↔ t ∈ l
          rw [hl]
          exact ⟨List.mem_cons_of_mem n, fun hm => (List.mem_cons.mp hm).resolve_left ht⟩
      | pusher p => exact Iff.rfl
      | dispatcher =>
          show some n = some t ↔ s.cpu.dispatching = some t
          rw [hpc]
          exact iff_of_false (fun hc => ht (Option.some.inj hc).symm) (fun hc => nomatch hc)
      | running =>
          show none = some t ↔ s.cpu.running = some t
          rw [hpc]
          exact Iff.rfl
    · intro t
      exact ⟨Or.inr, fun ht => ht.elim (fun hc => hc ▸ hmem) id⟩
  · intro t ht
    have hsaved := h.saved t ht
    rw [hpc] at hsaved
    exact hsaved

/-- The switch to the thread that was taken from the list. -/
theorem SmpOk.load {n : Nat} (h : SmpOk s l) (hpc : s.cpu = .loop (.load n)) :
    SmpOk (loopStep s (.load n)) l := by
  have hcpu := h.cpu
  unfold Smp.CpuOk at hcpu
  rw [hpc] at hcpu
  obtain ⟨hcur, hidle⟩ := hcpu
  have hdisp : s.Here l .dispatcher n := by
    show s.cpu.dispatching = some n
    rw [hpc]
    rfl
  have hmem : n ∈ s.created := h.placed.exists hdisp
  have hsaved : s.saved n = some (.thread n) := h.saved_of_loop hpc n hmem
  -- the thread was created, and the idle thread was not
  have hni : s.idleThread ≠ n := fun hc => h.idle (by rw [hc]; exact hmem)
  have hstep : loopStep s (.load n)
      = { s with cpu := .task n, saved := Function.update s.saved n none } := by
    simp only [loopStep, Smp.resume, hsaved]
  rw [hstep]
  refine ⟨h.linked, h.nodup, ?_, h.idle, ⟨hcur, ?_⟩, ?_⟩
  · -- the thread goes from the dispatcher to the running place
    refine h.placed.put n .running ?_ ?_ ?_
    · intro pl
      cases pl with
      | ready =>
          refine iff_of_false (fun hr => ?_) (fun hc => nomatch hc)
          have := h.placed.same .ready .dispatcher hr hdisp
          cases this
      | pusher p =>
          refine iff_of_false (fun hp => ?_) (fun hc => nomatch hc)
          have := h.placed.same (.pusher p) .dispatcher hp hdisp
          cases this
      | dispatcher => exact iff_of_false (fun hr => nomatch hr) (fun hc => nomatch hc)
      | running => exact iff_of_true rfl rfl
    · intro pl t ht
      cases pl with
      | ready => exact Iff.rfl
      | pusher p => exact Iff.rfl
      | dispatcher =>
          show none = some t ↔ s.cpu.dispatching = some t
          rw [hpc]
          exact iff_of_false (fun hc => nomatch hc) (fun hc => ht (Option.some.inj hc).symm)
      | running =>
          show some n = some t ↔ s.cpu.running = some t
          rw [hpc]
          exact iff_of_false (fun hc => ht (Option.some.inj hc).symm) (fun hc => nomatch hc)
    · intro t
      exact ⟨Or.inr, fun ht => ht.elim (fun hc => hc ▸ hmem) id⟩
  · -- the idle thread keeps what was saved of it
    show Function.update s.saved n none s.idleThread = _
    rw [Function.update_of_ne hni]
    exact hidle
  · intro t ht
    by_cases htn : t = n
    · left
      rw [htn]
      rfl
    · right; right
      show Function.update s.saved n none t = _
      rw [Function.update_of_ne htn]
      exact h.saved_of_loop hpc t ht

/-- The registers that the loop saves are those of the idle thread. -/
theorem SmpOk.saveIdle {prev n : Nat} (h : SmpOk s l) (hpc : s.cpu = .loop (.save prev n)) :
    SmpOk (loopStep s (.save prev n)) l := by
  have hcpu := h.cpu
  unfold Smp.CpuOk at hcpu
  rw [hpc] at hcpu
  obtain ⟨hprev, hcur⟩ := hcpu
  subst hprev
  refine ⟨h.linked, h.nodup, ?_, h.idle, ⟨hcur, ?_⟩, ?_⟩
  · refine h.placed.congr ?_ (fun t => Iff.rfl)
    intro pl t
    cases pl with
    | ready => exact Iff.rfl
    | pusher p => exact Iff.rfl
    | dispatcher =>
        show some n = some t ↔ s.cpu.dispatching = some t
        rw [hpc]
        exact Iff.rfl
    | running =>
        show none = some t ↔ s.cpu.running = some t
        rw [hpc]
        exact Iff.rfl
  · exact Function.update_self _ _ _
  · intro t ht
    have hne : t ≠ s.idleThread := fun hc => h.idle (by rw [← hc]; exact ht)
    have hs := h.saved t ht
    rw [hpc] at hs
    show _ ∨ _ ∨ Function.update s.saved s.idleThread (some .loop) t = _
    rw [Function.update_of_ne hne]
    exact hs

/-- The dispatch loop keeps the invariant. -/
theorem SmpOk.loop {pc : LoopPc} (h : SmpOk s l) (hpc : s.cpu = .loop pc) :
    ∃ l', SmpOk (loopStep s pc) l' := by
  have hcpu := h.cpu
  unfold Smp.CpuOk at hcpu
  rw [hpc] at hcpu
  -- only the pop, the save and the load concern a thread
  cases pc with
  | enterStatus =>
      exact ⟨l, h.quiet rfl rfl rfl rfl rfl rfl (by rw [hpc]; rfl) (by rw [hpc]; rfl)
        (by rw [hpc]; rfl) trivial⟩
  | enterCur =>
      exact ⟨l, h.quiet rfl rfl rfl rfl rfl rfl (by rw [hpc]; rfl) (by rw [hpc]; rfl)
        (by rw [hpc]; rfl) rfl⟩
  | top =>
      refine ⟨l, ?_⟩
      simp only [loopStep]
      by_cases hs : s.shutdownCore = true
      · rw [if_pos hs]
        exact h.quiet rfl rfl rfl rfl rfl rfl (by rw [hpc]; rfl) (by rw [hpc]; rfl)
          (by rw [hpc]; rfl) trivial
      · rw [if_neg hs]
        exact h.quiet rfl rfl rfl rfl rfl rfl (by rw [hpc]; rfl) (by rw [hpc]; rfl)
          (by rw [hpc]; rfl) hcpu
  | check =>
      refine ⟨l, ?_⟩
      simp only [loopStep]
      by_cases hr : s.readyList = none
      · rw [if_pos hr]
        exact h.quiet rfl rfl rfl rfl rfl rfl (by rw [hpc]; rfl) (by rw [hpc]; rfl)
          (by rw [hpc]; rfl) hcpu
      · rw [if_neg hr]
        exact h.quiet rfl rfl rfl rfl rfl rfl (by rw [hpc]; rfl) (by rw [hpc]; rfl)
          (by rw [hpc]; rfl) ⟨hcpu, hr⟩
  | pop => exact h.pop hpc
  | readPrev n =>
      exact ⟨l, h.quiet rfl rfl rfl rfl rfl rfl (by rw [hpc]; rfl) (by rw [hpc]; rfl)
        (by rw [hpc]; rfl) ⟨hcpu, hcpu⟩⟩
  | setCur prev n =>
      exact ⟨l, h.quiet rfl rfl rfl rfl rfl rfl (by rw [hpc]; rfl) (by rw [hpc]; rfl)
        (by rw [hpc]; rfl) ⟨hcpu.2, rfl⟩⟩
  | setStatus prev n =>
      exact ⟨l, h.quiet rfl rfl rfl rfl rfl rfl (by rw [hpc]; rfl) (by rw [hpc]; rfl)
        (by rw [hpc]; rfl) hcpu⟩
  | save prev n => exact ⟨l, h.saveIdle hpc⟩
  | load n => exact ⟨l, h.load hpc⟩
  | readReserve =>
      exact ⟨l, h.quiet rfl rfl rfl rfl rfl rfl (by rw [hpc]; rfl) (by rw [hpc]; rfl)
        (by rw [hpc]; rfl) hcpu⟩
  | setIdleStatus reserved =>
      exact ⟨l, h.quiet rfl rfl rfl rfl rfl rfl (by rw [hpc]; rfl) (by rw [hpc]; rfl)
        (by rw [hpc]; rfl) hcpu⟩
  | hlt =>
      exact ⟨l, h.quiet rfl rfl rfl rfl rfl rfl (by rw [hpc]; rfl) (by rw [hpc]; rfl)
        (by rw [hpc]; rfl) hcpu⟩
  | setRunning =>
      exact ⟨l, h.quiet rfl rfl rfl rfl rfl rfl (by rw [hpc]; rfl) (by rw [hpc]; rfl)
        (by rw [hpc]; rfl) hcpu⟩

/-! ## `smp_yield` -/

/-- The running thread goes to the front of the list before its registers are
    saved. -/
theorem SmpOk.yieldPush {t cur idle : Nat} (h : SmpOk s l)
    (hpc : s.cpu = .yield t (.push cur idle)) :
    SmpOk (yieldStep s t (.push cur idle)) (t :: l) := by
  have hcpu := h.cpu
  unfold Smp.CpuOk at hcpu
  rw [hpc] at hcpu
  obtain ⟨hcur, hne, hidle, hsaved⟩ := hcpu
  subst hcur
  have hrun : s.Here l .running cur := by
    show s.cpu.running = some cur
    rw [hpc]
    rfl
  have hmem : cur ∈ s.created := h.placed.exists hrun
  have hout : cur ∉ l := by
    intro hin
    have := h.placed.same .ready .running hin hrun
    cases this
  refine ⟨linked_push h.linked hout, List.nodup_cons.mpr ⟨hout, h.nodup⟩, ?_, h.idle,
    ⟨rfl, hne, hidle, hsaved⟩, ?_⟩
  · refine h.placed.put cur .ready ?_ ?_ ?_
    · intro pl
      cases pl with
      | ready => exact iff_of_true List.mem_cons_self rfl
      | pusher p =>
          refine iff_of_false (fun hp => ?_) (fun hc => nomatch hc)
          have := h.placed.same (.pusher p) .running hp hrun
          cases this
      | dispatcher => exact iff_of_false (fun hd => nomatch hd) (fun hc => nomatch hc)
      | running => exact iff_of_false (fun hr => nomatch hr) (fun hc => nomatch hc)
    · intro pl t ht
      cases pl with
      | ready => exact ⟨fun hm => (List.mem_cons.mp hm).resolve_left ht, List.mem_cons_of_mem cur⟩
      | pusher p => exact Iff.rfl
      | dispatcher =>
          show none = some t ↔ s.cpu.dispatching = some t
          rw [hpc]
          exact Iff.rfl
      | running =>
          show none = some t ↔ s.cpu.running = some t
          rw [hpc]
          exact iff_of_false (fun hc => nomatch hc) (fun hc => ht (Option.some.inj hc).symm)
    · intro t
      exact ⟨Or.inr, fun ht => ht.elim (fun hc => hc ▸ hmem) id⟩
  · intro t ht
    have hs := h.saved t ht
    rw [hpc] at hs
    rcases hs with hr | hu | hs
    · exact Or.inr (Or.inl hr)
    · cases hu
    · exact Or.inr (Or.inr hs)

/-- The registers that `smp_yield` saves are those of the thread it pushed. -/
theorem SmpOk.yieldSave {t cur idle : Nat} (h : SmpOk s l)
    (hpc : s.cpu = .yield t (.save cur idle)) : SmpOk (yieldStep s t (.save cur idle)) l := by
  have hcpu := h.cpu
  unfold Smp.CpuOk at hcpu
  rw [hpc] at hcpu
  obtain ⟨hcur, hne, hidle, hcurIdle, hsaved⟩ := hcpu
  subst hcur
  have hset : ∀ u, u ≠ cur →
      Function.update s.saved cur (some (.thread cur)) u = s.saved u :=
    fun u hu => Function.update_of_ne hu _ _
  refine ⟨h.linked, h.nodup, ?_, h.idle, ⟨hidle, hcurIdle, ?_⟩, ?_⟩
  · refine h.placed.congr ?_ (fun t => Iff.rfl)
    intro pl t
    cases pl with
    | ready => exact Iff.rfl
    | pusher p => exact Iff.rfl
    | dispatcher =>
        show none = some t ↔ s.cpu.dispatching = some t
        rw [hpc]
        exact Iff.rfl
    | running =>
        show none = some t ↔ s.cpu.running = some t
        rw [hpc]
        exact Iff.rfl
  · show Function.update s.saved cur (some (.thread cur)) s.idleThread = _
    rw [hset _ hne.symm]
    exact hsaved
  · intro t ht
    right; right
    show Function.update s.saved cur (some (.thread cur)) t = _
    by_cases htc : t = cur
    · rw [htc, Function.update_self]
    · rw [hset t htc]
      have hs := h.saved t ht
      rw [hpc] at hs
      rcases hs with hr | hu | hs
      · cases hr
      · exact absurd (Option.some.inj hu).symm htc
      · exact hs

/-- The switch back to the dispatch loop. -/
theorem SmpOk.yieldLoad {t idle : Nat} (h : SmpOk s l)
    (hpc : s.cpu = .yield t (.load idle)) : SmpOk (yieldStep s t (.load idle)) l := by
  have hcpu := h.cpu
  unfold Smp.CpuOk at hcpu
  rw [hpc] at hcpu
  obtain ⟨hidle, hcurIdle, hsaved⟩ := hcpu
  subst hidle
  have hstep : yieldStep s t (.load s.idleThread)
      = { s with cpu := .loop .top, saved := Function.update s.saved s.idleThread none } := by
    simp only [yieldStep, Smp.resume, hsaved]
  rw [hstep]
  refine ⟨h.linked, h.nodup, ?_, h.idle, hcurIdle, ?_⟩
  · refine h.placed.congr ?_ (fun t => Iff.rfl)
    intro pl u
    cases pl with
    | ready => exact Iff.rfl
    | pusher p => exact Iff.rfl
    | dispatcher =>
        show none = some u ↔ s.cpu.dispatching = some u
        rw [hpc]
        exact Iff.rfl
    | running =>
        show none = some u ↔ s.cpu.running = some u
        rw [hpc]
        exact Iff.rfl
  · intro u hu
    have hne : u ≠ s.idleThread := fun hc => h.idle (by rw [← hc]; exact hu)
    have hs := h.saved u hu
    rw [hpc] at hs
    right; right
    show Function.update s.saved s.idleThread none u = _
    rw [Function.update_of_ne hne]
    rcases hs with hr | hn | hs
    · cases hr
    · cases hn
    · exact hs

/-- A call of `smp_yield` keeps the invariant. -/
theorem SmpOk.yield {t : Nat} {pc : YieldPc} (h : SmpOk s l) (hpc : s.cpu = .yield t pc) :
    ∃ l', SmpOk (yieldStep s t pc) l' := by
  have hcpu := h.cpu
  unfold Smp.CpuOk at hcpu
  rw [hpc] at hcpu
  cases pc with
  | readCur =>
      exact ⟨l, h.quiet rfl rfl rfl rfl rfl rfl (by rw [hpc]; rfl) (by rw [hpc]; rfl)
        (by rw [hpc]; rfl) ⟨hcpu.1, hcpu.1, hcpu.2⟩⟩
  | readIdle cur =>
      refine ⟨l, ?_⟩
      obtain ⟨hcur, hcurThread, hsaved⟩ := hcpu
      simp only [yieldStep]
      by_cases hi : cur = s.idleThread
      · rw [if_pos hi]
        exact h.quiet rfl rfl rfl rfl rfl rfl (by rw [hpc]; rfl) (by rw [hpc]; rfl)
          (by rw [hpc]; rfl) ⟨hcurThread, hsaved⟩
      · rw [if_neg hi]
        exact h.quiet rfl rfl rfl rfl rfl rfl (by rw [hpc]; rfl) (by rw [hpc]; rfl)
          (by rw [hpc]; rfl) ⟨hcur, by rw [← hcur]; exact hi, rfl, hsaved⟩
  | setReady cur idle =>
      exact ⟨l, h.quiet rfl rfl rfl rfl rfl rfl (by rw [hpc]; rfl) (by rw [hpc]; rfl)
        (by rw [hpc]; rfl) hcpu⟩
  | push cur idle => exact ⟨t :: l, h.yieldPush hpc⟩
  | setCur cur idle =>
      obtain ⟨hcur, hne, hidle, hsaved⟩ := hcpu
      exact ⟨l, h.quiet rfl rfl rfl rfl rfl rfl (by rw [hpc]; rfl) (by rw [hpc]; rfl)
        (by rw [hpc]; rfl) ⟨hcur, hne, hidle, hidle, hsaved⟩⟩
  | save cur idle => exact ⟨l, h.yieldSave hpc⟩
  | load idle => exact ⟨l, h.yieldLoad hpc⟩

end Core

/-! ## Other cores -/

section Push

variable {s : Smp} {l : List Nat}

/-- What the core relies on survives a push: only the list grows. -/
theorem cpuOk_of_grow {s s' : Smp} (h : s.CpuOk) (hcpu : s'.cpu = s.cpu)
    (hcur : s'.curThread = s.curThread) (hidle : s'.idleThread = s.idleThread)
    (hsaved : s'.saved s.idleThread = s.saved s.idleThread)
    (hready : s.readyList ≠ none → s'.readyList ≠ none) : s'.CpuOk := by
  unfold Smp.CpuOk at h ⊢
  rw [hcpu, hcur, hidle, hsaved]
  cases hs : s.cpu with
  | loop pc =>
      rw [hs] at h
      cases pc <;> first | exact h | exact ⟨h.1, hready h.2⟩
  | task t => rw [hs] at h; exact h
  | yield t pc =>
      rw [hs] at h
      cases pc <;> exact h
  | off => trivial
  | wild => rw [hs] at h; exact h

/-- A pusher that carries nothing before or after its step. -/
theorem SmpOk.pusherQuiet {s s' : Smp} (h : SmpOk s l) {p : Nat} (pc : PusherPc)
    (hbefore : ∀ t, s.pushers p ≠ .push t) (hafter : ∀ t, pc ≠ .push t)
    (hpushers : s'.pushers = Function.update s.pushers p pc) (hcpu : s'.cpu = s.cpu)
    (hnext : s'.next = s.next) (hready : s'.readyList = s.readyList)
    (hcreated : s'.created = s.created) (hidle : s'.idleThread = s.idleThread)
    (hsaved : s'.saved = s.saved) (hcur : s'.curThread = s.curThread) : SmpOk s' l := by
  refine ⟨by rw [hnext, hready]; exact h.linked, h.nodup, ?_, ?_, ?_, ?_⟩
  · refine h.placed.congr ?_ (fun t => by rw [hcreated])
    intro pl t
    cases pl with
    | ready => exact Iff.rfl
    | pusher q =>
        show s'.pushers q = _ ↔ s.pushers q = _
        rw [hpushers]
        by_cases hq : q = p
        · rw [hq, Function.update_self]
          exact iff_of_false (hafter t) (hbefore t)
        · rw [Function.update_of_ne hq]
    | dispatcher =>
        show s'.cpu.dispatching = _ ↔ _
        rw [hcpu]
        exact Iff.rfl
    | running =>
        show s'.cpu.running = _ ↔ _
        rw [hcpu]
        exact Iff.rfl
  · rw [hidle, hcreated]
    exact h.idle
  · exact cpuOk_of_grow h.cpu hcpu hcur hidle (by rw [hsaved]) (by rw [hready]; exact id)
  · rw [hcreated, hcpu, hsaved]
    exact h.saved

/-- A new thread is with its pusher, its registers ready. -/
theorem SmpOk.pusherCreate (h : SmpOk s l) {p new tid : Nat}
    (hpc : s.pushers p = .create tid) (hnew : new ∉ s.created) (hidle : new ≠ s.idleThread) :
    SmpOk (pushStep s p new) l := by
  have hstep : pushStep s p new = { s with
      tid := Function.update s.tid new tid
      threadStatus := Function.update s.threadStatus new .ready
      saved := Function.update s.saved new (some (.thread new))
      created := new :: s.created
      pushers := Function.update s.pushers p (.push new) } := by
    simp only [pushStep, hpc]
  have hnowhere : ∀ pl, ¬ s.Here l pl new := fun pl hpl => hnew (h.placed.exists hpl)
  rw [hstep]
  refine ⟨h.linked, h.nodup, ?_, ?_, ?_, ?_⟩
  · -- the new thread was nowhere, and is with its pusher now
    refine h.placed.put new (.pusher p) ?_ ?_ (fun t => List.mem_cons)
    · intro pl
      cases pl with
      | ready => exact iff_of_false (hnowhere .ready) (fun hc => nomatch hc)
      | pusher q =>
          show Function.update s.pushers p (.push new) q = .push new ↔ _
          by_cases hq : q = p
          · rw [hq, Function.update_self]
            exact iff_of_true rfl rfl
          · rw [Function.update_of_ne hq]
            exact iff_of_false (hnowhere (.pusher q)) (fun hc => hq (Place.pusher.inj hc))
      | dispatcher => exact iff_of_false (hnowhere .dispatcher) (fun hc => nomatch hc)
      | running => exact iff_of_false (hnowhere .running) (fun hc => nomatch hc)
    · intro pl t ht
      cases pl with
      | ready => exact Iff.rfl
      | pusher q =>
          show Function.update s.pushers p (.push new) q = .push t ↔ s.pushers q = .push t
          by_cases hq : q = p
          · rw [hq, Function.update_self, hpc]
            exact iff_of_false (fun hc => ht (PusherPc.push.inj hc).symm)
              (fun hc => nomatch hc)
          · rw [Function.update_of_ne hq]
      | dispatcher => exact Iff.rfl
      | running => exact Iff.rfl
  · intro hmem
    rcases List.mem_cons.mp hmem with heq | hmem
    · exact hidle heq.symm
    · exact h.idle hmem
  · -- the core is not concerned
    exact cpuOk_of_grow h.cpu rfl rfl rfl (Function.update_of_ne hidle.symm _ _) id
  · intro t ht
    by_cases htn : t = new
    · right; right
      show Function.update s.saved new (some (.thread new)) t = _
      rw [htn, Function.update_self]
    · have hs := h.saved t ((List.mem_cons.mp ht).resolve_left htn)
      show _ ∨ _ ∨ Function.update s.saved new (some (.thread new)) t = _
      rw [Function.update_of_ne htn]
      exact hs

/-- The critical section of a pusher puts its thread in front. -/
theorem SmpOk.pusherPush (h : SmpOk s l) {p new t : Nat} (hpc : s.pushers p = .push t) :
    SmpOk (pushStep s p new) (t :: l) := by
  have hstep : pushStep s p new
      = { s.pushReady t with pushers := Function.update s.pushers p .readStatus } := by
    simp only [pushStep, hpc]
  have hhere : s.Here l (.pusher p) t := hpc
  have hmem : t ∈ s.created := h.placed.exists hhere
  have hout : t ∉ l := by
    intro hin
    have := h.placed.same .ready (.pusher p) hin hhere
    cases this
  rw [hstep]
  refine ⟨linked_push h.linked hout, List.nodup_cons.mpr ⟨hout, h.nodup⟩, ?_, h.idle, ?_,
    h.saved⟩
  · refine h.placed.put t .ready ?_ ?_ ?_
    · intro pl
      cases pl with
      | ready => exact iff_of_true List.mem_cons_self rfl
      | pusher q =>
          show Function.update s.pushers p .readStatus q = .push t ↔ _
          refine iff_of_false (fun hq => ?_) (fun hc => nomatch hc)
          by_cases hqp : q = p
          · rw [hqp, Function.update_self] at hq
            cases hq
          · rw [Function.update_of_ne hqp] at hq
            have := h.placed.same (.pusher q) (.pusher p) hq hhere
            exact hqp (Place.pusher.inj this)
      | dispatcher =>
          refine iff_of_false (fun hd => ?_) (fun hc => nomatch hc)
          have := h.placed.same .dispatcher (.pusher p) hd hhere
          cases this
      | running =>
          refine iff_of_false (fun hr => ?_) (fun hc => nomatch hc)
          have := h.placed.same .running (.pusher p) hr hhere
          cases this
    · intro pl u hu
      cases pl with
      | ready => exact ⟨fun hm => (List.mem_cons.mp hm).resolve_left hu, List.mem_cons_of_mem t⟩
      | pusher q =>
          show Function.update s.pushers p .readStatus q = .push u ↔ s.pushers q = .push u
          by_cases hq : q = p
          · rw [hq, Function.update_self, hpc]
            exact iff_of_false (fun hc => nomatch hc) (fun hc => hu (PusherPc.push.inj hc).symm)
          · rw [Function.update_of_ne hq]
      | dispatcher => exact Iff.rfl
      | running => exact Iff.rfl
    · intro u
      exact ⟨Or.inr, fun hu => hu.elim (fun hc => hc ▸ hmem) id⟩
  · exact cpuOk_of_grow h.cpu rfl rfl rfl rfl (fun _ hc => nomatch hc)

/-- A step of another core keeps the invariant. -/
theorem SmpOk.push (h : SmpOk s l) {p new : Nat} (hnew : new ∉ s.created)
    (hidle : new ≠ s.idleThread) : ∃ l', SmpOk (pushStep s p new) l' := by
  cases hpc : s.pushers p with
  | readTid =>
      refine ⟨l, ?_⟩
      simp only [pushStep, hpc]
      exact h.pusherQuiet (p := p) (.writeTid s.nextTid)
        (fun t hc => by rw [hpc] at hc; cases hc) (fun t hc => nomatch hc)
        rfl rfl rfl rfl rfl rfl rfl rfl
  | writeTid tid =>
      refine ⟨l, ?_⟩
      simp only [pushStep, hpc]
      exact h.pusherQuiet (p := p) (.create tid)
        (fun t hc => by rw [hpc] at hc; cases hc) (fun t hc => nomatch hc)
        rfl rfl rfl rfl rfl rfl rfl rfl
  | create tid => exact ⟨l, h.pusherCreate hpc hnew hidle⟩
  | push t => exact ⟨t :: l, h.pusherPush hpc⟩
  | readStatus =>
      refine ⟨l, ?_⟩
      simp only [pushStep, hpc]
      exact h.pusherQuiet (p := p) .readTid
        (fun t hc => by rw [hpc] at hc; cases hc) (fun t hc => nomatch hc)
        rfl rfl rfl rfl rfl rfl rfl rfl

end Push

/-! ## Every interleaving -/

theorem smpOk_init {s : Smp} (h : s.Init) (hidle : s.idleThread ∉ s.created) : SmpOk s [] := by
  obtain ⟨hcpu, hready, hcreated, hpushers⟩ := h
  refine ⟨?_, List.nodup_nil, ⟨fun _ => .ready, ?_⟩, hidle, ?_, ?_⟩
  · rw [hready]
    exact linked_nil
  · intro pl t
    have hno : t ∉ s.created := by
      rw [hcreated]
      exact List.not_mem_nil
    refine iff_of_false (fun hpl => ?_) (fun hc => hno hc.1)
    cases pl with
    | ready => exact absurd hpl List.not_mem_nil
    | pusher p =>
        change s.pushers p = .push t at hpl
        rw [hpushers] at hpl
        cases hpl
    | dispatcher =>
        change s.cpu.dispatching = some t at hpl
        rw [hcpu] at hpl
        cases hpl
    | running =>
        change s.cpu.running = some t at hpl
        rw [hcpu] at hpl
        cases hpl
  · unfold Smp.CpuOk
    rw [hcpu]
    trivial
  · intro t ht
    rw [hcreated] at ht
    exact absurd ht List.not_mem_nil

/-- Every step of the system keeps the invariant. -/
theorem SmpOk.next {s s' : Smp} (h : ∃ l, SmpOk s l) (hstep : Smp.Next s s') :
    ∃ l, SmpOk s' l := by
  obtain ⟨l, h⟩ := h
  cases hstep with
  | loop hpc => exact h.loop hpc
  | call hpc =>
      have hcpu := h.cpu
      unfold Smp.CpuOk at hcpu
      rw [hpc] at hcpu
      exact ⟨l, h.quiet rfl rfl rfl rfl rfl rfl (by rw [hpc]; rfl) (by rw [hpc]; rfl)
        (by rw [hpc]; rfl) hcpu⟩
  | yield hpc => exact h.yield hpc
  | push hnew hidle => exact h.push hnew hidle
  | shutdown => exact ⟨l, h.quiet rfl rfl rfl rfl rfl rfl rfl rfl rfl h.cpu⟩
  | reserve => exact ⟨l, h.quiet rfl rfl rfl rfl rfl rfl rfl rfl rfl h.cpu⟩

/-- What a state of the core must satisfy. -/
structure QueueConserved (s : Smp) : Prop where
  /-- The ready list is a chain without repetition, and each thread ever
      created is in exactly one place. -/
  place : ∃ l, Linked s.next s.readyList l ∧ l.Nodup ∧
    ∀ t ∈ s.created, ∃! pl, s.Here l pl t
  /-- The pop never takes from an empty list. -/
  pop : s.cpu = .loop .pop → s.readyList ≠ none
  /-- Each turn of the loop starts as the idle thread. -/
  top : s.cpu = .loop .top → s.curThread = s.idleThread
  /-- The switch of the loop saves the idle context only. -/
  save : ∀ prev n, s.cpu = .loop (.save prev n) → prev = s.idleThread
  /-- A dispatched thread has its registers saved. -/
  load : ∀ n, s.cpu = .loop (.load n) → s.saved n = some (.thread n)
  /-- The core never resumes a stack that was not saved. -/
  tame : s.cpu ≠ .wild

theorem SmpOk.conserved {s : Smp} {l : List Nat} (h : SmpOk s l) : QueueConserved s := by
  have hcpu := h.cpu
  unfold Smp.CpuOk at hcpu
  refine ⟨⟨l, h.linked, h.nodup, fun t ht => h.placed.existsUnique ht⟩, ?_, ?_, ?_, ?_, ?_⟩
  · intro hpc
    rw [hpc] at hcpu
    exact hcpu.2
  · intro hpc
    rw [hpc] at hcpu
    exact hcpu
  · intro prev n hpc
    rw [hpc] at hcpu
    exact hcpu.1
  · intro n hpc
    have hdisp : s.Here l .dispatcher n := by
      show s.cpu.dispatching = some n
      rw [hpc]
      rfl
    exact h.saved_of_loop hpc n (h.placed.exists hdisp)
  · intro hpc
    rw [hpc] at hcpu
    exact hcpu

/-- In every state that any interleaving of the core with other cores
    reaches, the ready queue is conserved. -/
theorem queue_conserved {s : Smp} (h : Reachable Smp.Init Smp.Next s) : QueueConserved s := by
  have hinv : ∃ l, SmpOk s l := by
    refine h.invariant ?_ (fun _ _ hs hstep => SmpOk.next hs hstep)
    intro s₀ h0
    refine ⟨[], smpOk_init h0 ?_⟩
    rw [h0.2.2.1]
    exact List.not_mem_nil
  obtain ⟨l, hl⟩ := hinv
  exact hl.conserved

/-- A core with idle thread 1, after a pusher has queued thread 7. -/
def oneQueued : Smp :=
  pushStep (pushStep (pushStep (pushStep { idleThread := 1 } 0 7) 0 7) 0 7) 0 8

/-- The core after it has found the thread and taken it. -/
theorem queue_conserved_taken :
    QueueConserved (loopStep (loopStep (loopStep (loopStep (loopStep oneQueued .enterStatus)
      .enterCur) .top) .check) .pop) := by
  have hinit : Smp.Init { idleThread := 1 } := ⟨rfl, rfl, rfl, fun _ => rfl⟩
  have hpush : ∀ s : Smp, s.idleThread = 1 → ∀ new, new ∉ s.created → new ≠ 1 →
      Smp.Next s (pushStep s 0 new) := by
    intro s hi new hnew hne
    exact .push hnew (by rw [hi]; exact hne)
  have hqueued : Reachable Smp.Init Smp.Next oneQueued := by
    refine .step (.step (.step (.step (.start hinit) (hpush _ rfl 7 ?_ ?_)) (hpush _ rfl 7 ?_ ?_))
      (hpush _ rfl 7 ?_ ?_)) (hpush _ rfl 8 ?_ ?_)
    all_goals decide
  exact queue_conserved (.step (.step (.step (.step (.step hqueued (.loop rfl)) (.loop rfl))
    (.loop rfl)) (.loop rfl)) (.loop rfl))

end Pfi
