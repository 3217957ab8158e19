import Pfi.Wakeup

/-! # The reservation of a core

    `smp_reserve_core` sets a flag and wakes the core if it does not run, but
    `smp_get_first_free_core` looks at the status only, and it is the dispatch
    loop that folds the flag into the status when it idles next.  A core that
    is halted with status READY when it is reserved keeps that status until it
    has woken up, so it is still handed out after the call has returned.

    A reservation is effective if, when the call returns, the core is not and
    is not about to be READY, nobody has read READY and not returned yet, and
    no `smp_unreserve_core` is under way that has not cleared the flag.  As
    long as every reservation is effective, a reserved core is never handed
    out (`reserved_excluded`).  A core that is READY, or is about to be, can
    be handed out at once (`stale_returned`). -/

namespace Pfi

open Run

/-! ## Callers -/

/-- Where a call of `smp_reserve_core` (`true`) or `smp_unreserve_core`
    (`false`) for the core stands. -/
inductive CommandPc where
  | idle
  | lock (b : Bool)
  | write (b : Bool)
  | readStatus (b : Bool)
  | send (b : Bool)
  | unlock (b : Bool)
  | ret (b : Bool)
deriving Repr, DecidableEq

/-- Where a call of `smp_get_first_free_core` stands: `found` when it has read
    READY from the core and is about to return it. -/
inductive GetPc where
  | idle
  | scan
  | found
deriving Repr, DecidableEq

/-- The core with `n` callers of the two commands and `k` callers of
    `smp_get_first_free_core`.  `reserved` is read by no code: it is set from
    the return of a reservation to the beginning of the next
    `smp_unreserve_core`. -/
structure Resv (n k : Nat) where
  wake : Wake
  commandLock : Bool := false
  callers : Fin n → CommandPc := fun _ => .idle
  getters : Fin k → GetPc := fun _ => .idle
  reserved : Bool := false

/-- A step of the core, of its pushers and of its interrupts, the beginning
    and the next step of a command, the beginning and the next step of a call
    of `smp_get_first_free_core`, and the end of one that has found another
    core. -/
inductive ResvAct (n k : Nat) where
  | wake (act : WakeAct)
  | call (p : Fin n) (b : Bool)
  | command (p : Fin n)
  | get (g : Fin k)
  | getOther (g : Fin k)
deriving Repr, DecidableEq

section Steps

variable {n k : Nat}

/-- A call begins. -/
def Resv.call (w : Resv n k) (p : Fin n) (b : Bool) : Resv n k :=
  if w.callers p = .idle then
    { w with callers := Function.update w.callers p (.lock b), reserved := w.reserved && b }
  else w

/-- The next step of a command. -/
def Resv.command (w : Resv n k) (p : Fin n) : Resv n k :=
  let goto : CommandPc → Resv n k := fun pc =>
    { w with callers := Function.update w.callers p pc }
  match w.callers p with
  | .idle => w
  | .lock b => if w.commandLock then w else { goto (.write b) with commandLock := true }
  | .write b => { goto (.readStatus b) with wake := w.wake.step (.reserve b) }
  | .readStatus b => goto (if w.wake.smp.status = .running then .unlock b else .send b)
  | .send b => { goto (.unlock b) with wake := { w.wake with inFlight := w.wake.inFlight + 1 } }
  | .unlock b => { goto (.ret b) with commandLock := false }
  | .ret b => { goto .idle with reserved := w.reserved || b }

/-- The next step of `smp_get_first_free_core`. -/
def Resv.get (w : Resv n k) (g : Fin k) : Resv n k :=
  let goto : GetPc → Resv n k := fun pc => { w with getters := Function.update w.getters g pc }
  match w.getters g with
  | .idle => goto .scan
  | .scan => goto (if w.wake.smp.status = .ready then .found else .idle)
  | .found => goto .idle

/-- The flag is written by the commands only. -/
def Resv.step (w : Resv n k) : ResvAct n k → Resv n k
  | .wake (.reserve _) => w
  | .wake act => { w with wake := w.wake.step act }
  | .call p b => w.call p b
  | .command p => w.command p
  | .get g => w.get g
  | .getOther g =>
      if w.getters g = .scan then { w with getters := Function.update w.getters g .idle } else w

/-- The system when the core has been registered and no call has begun. -/
def Resv.Init (w : Resv n k) : Prop := w.wake.Init ∧ w = { wake := w.wake }

/-- The core is not returned while it is reserved. -/
def Resv.Excluded (w : Resv n k) : ResvAct n k → Prop
  | .get g => w.getters g = .found → w.reserved = false
  | _ => True

/-- The core neither is READY nor is about to be. -/
structure Smp.Withheld (s : Smp) : Prop where
  flag : s.reserveCore = true
  status : s.status ≠ .ready
  cpu : s.cpu ≠ .loop (.setIdleStatus false)

/-- A reservation that has taken effect: the core is withheld, nobody is about
    to return it, and no `smp_unreserve_core` is about to clear the flag. -/
structure Resv.Effective (w : Resv n k) : Prop where
  core : w.wake.smp.Withheld
  getters : ∀ g, w.getters g ≠ .found
  callers : ∀ p, w.callers p ≠ .lock false ∧ w.callers p ≠ .write false

/-- When a call of `smp_reserve_core` returns, it has taken effect. -/
def Resv.OnTime (w : Resv n k) : ResvAct n k → Prop
  | .command p => w.callers p = .ret true → w.Effective
  | _ => True

instance decidableWithheld (s : Smp) : Decidable s.Withheld :=
  decidable_of_iff (s.reserveCore = true ∧ s.status ≠ .ready ∧
      s.cpu ≠ .loop (.setIdleStatus false))
    ⟨fun h => ⟨h.1, h.2.1, h.2.2⟩, fun h => ⟨h.flag, h.status, h.cpu⟩⟩

instance decidableEffective (w : Resv n k) : Decidable w.Effective :=
  decidable_of_iff (w.wake.smp.Withheld ∧ (∀ g, w.getters g ≠ .found) ∧
      ∀ p, w.callers p ≠ .lock false ∧ w.callers p ≠ .write false)
    ⟨fun h => ⟨h.1, h.2.1, h.2.2⟩, fun h => ⟨h.core, h.getters, h.callers⟩⟩

instance decidableOnTime (w : Resv n k) : (act : ResvAct n k) → Decidable (w.OnTime act)
  | .command p => inferInstanceAs (Decidable (w.callers p = .ret true → w.Effective))
  | .wake _ => isTrue trivial
  | .call _ _ => isTrue trivial
  | .get _ => isTrue trivial
  | .getOther _ => isTrue trivial

instance decidableExcluded (w : Resv n k) : (act : ResvAct n k) → Decidable (w.Excluded act)
  | .get g => inferInstanceAs (Decidable (w.getters g = .found → w.reserved = false))
  | .wake _ => isTrue trivial
  | .call _ _ => isTrue trivial
  | .command _ => isTrue trivial
  | .getOther _ => isTrue trivial

end Steps

/-! ## The core -/

section Core

variable {s : Smp}

theorem Smp.Withheld.of_eq {s' : Smp} (h : s.Withheld) (hflag : s'.reserveCore = s.reserveCore)
    (hstatus : s'.status = s.status) (hcpu : s'.cpu ≠ .loop (.setIdleStatus false)) :
    s'.Withheld :=
  ⟨hflag.trans h.flag, fun hc => h.status (hstatus.symm.trans hc), hcpu⟩

theorem Smp.Withheld.resume (h : s.Withheld) (t : Nat) : (s.resume t).Withheld := by
  unfold Smp.resume
  split
  · exact h.of_eq rfl rfl (fun hc => by cases hc)
  · exact h.of_eq rfl rfl (fun hc => by cases hc)
  · exact h.of_eq rfl rfl (fun hc => by cases hc)

/-- The loop reads the flag before it idles, and otherwise writes RUNNING. -/
theorem Smp.Withheld.loop (h : s.Withheld) {pc : LoopPc} (hpc : s.cpu = .loop pc) :
    (loopStep s pc).Withheld := by
  cases pc with
  | enterStatus => exact ⟨h.flag, (fun hc => by cases hc), (fun hc => by cases hc)⟩
  | enterCur => exact h.of_eq rfl rfl (fun hc => by cases hc)
  | top =>
      refine h.of_eq rfl rfl ?_
      simp only [loopStep]
      split
      · exact fun hc => by cases hc
      · exact fun hc => by cases hc
  | check =>
      refine h.of_eq rfl rfl ?_
      simp only [loopStep]
      split
      · exact fun hc => by cases hc
      · exact fun hc => by cases hc
  | pop =>
      simp only [loopStep]
      split
      · exact h.of_eq rfl rfl (fun hc => by cases hc)
      · exact h.of_eq rfl rfl (fun hc => by cases hc)
  | readPrev n => exact h.of_eq rfl rfl (fun hc => by cases hc)
  | setCur prev n => exact h.of_eq rfl rfl (fun hc => by cases hc)
  | setStatus prev n => exact h.of_eq rfl rfl (fun hc => by cases hc)
  | save prev n => exact h.of_eq rfl rfl (fun hc => by cases hc)
  | load n => exact h.resume n
  | readReserve =>
      refine h.of_eq rfl rfl ?_
      simp only [loopStep, h.flag]
      exact fun hc => by cases hc
  | setIdleStatus reserved =>
      cases reserved with
      | true => exact ⟨h.flag, (fun hc => by cases hc), (fun hc => by cases hc)⟩
      | false => exact absurd hpc h.cpu
  | hlt => exact h.of_eq rfl rfl (fun hc => by cases hc)
  | setRunning => exact ⟨h.flag, (fun hc => by cases hc), (fun hc => by cases hc)⟩

theorem Smp.Withheld.yield (h : s.Withheld) (t : Nat) (pc : YieldPc) :
    (yieldStep s t pc).Withheld := by
  cases pc with
  | readCur => exact h.of_eq rfl rfl (fun hc => by cases hc)
  | readIdle cur =>
      refine h.of_eq rfl rfl ?_
      simp only [yieldStep]
      split
      · exact fun hc => by cases hc
      · exact fun hc => by cases hc
  | setReady cur idle => exact h.of_eq rfl rfl (fun hc => by cases hc)
  | push cur idle => exact h.of_eq rfl rfl (fun hc => by cases hc)
  | setCur cur idle => exact h.of_eq rfl rfl (fun hc => by cases hc)
  | save cur idle => exact h.of_eq rfl rfl (fun hc => by cases hc)
  | load idle => exact h.resume idle

theorem Smp.Withheld.push (h : s.Withheld) (p new : Nat) : (pushStep s p new).Withheld := by
  obtain ⟨hcpu, hstatus⟩ := pushStep_core s p new
  have hflag : (pushStep s p new).reserveCore = s.reserveCore := by
    unfold pushStep
    split
    · rfl
    · rfl
    · rfl
    · rfl
    · rfl
  exact h.of_eq hflag hstatus (hcpu ▸ h.cpu)

end Core

section Wake

variable {w : Wake}

theorem Wake.withheld_core (h : w.smp.Withheld) : w.core.smp.Withheld := by
  unfold Wake.core
  cases hcpu : w.smp.cpu with
  | loop pc =>
      have hloop := h.loop hcpu
      show (w.loop pc).smp.Withheld
      unfold Wake.loop
      split
      · exact hloop
      · split
        · exact hloop
        · exact hloop
      · split
        · exact h
        · split
          · exact hloop
          · exact h
      · exact hloop
  | task t => exact h.of_eq rfl rfl (fun hc => by cases hc)
  | yield t pc => exact h.yield t pc
  | off => exact h
  | wild => exact h

/-- An interrupt ends the `hlt`, and the loop goes on to write RUNNING. -/
theorem Wake.withheld_wake (h : w.smp.Withheld) : w.wake.smp.Withheld :=
  h.of_eq rfl rfl (fun hc => by cases hc)

/-- A step of the core, of a pusher or of an interrupt. -/
theorem Wake.withheld_step (h : w.smp.Withheld) {act : WakeAct}
    (hact : ∀ b, act ≠ .reserve b) : (w.step act).smp.Withheld := by
  cases act with
  | core => exact Wake.withheld_core h
  | push p new =>
      simp only [Wake.step, Wake.push]
      split
      · exact h
      · split
        · exact h.push p new
        · exact h.push p new
  | send p =>
      simp only [Wake.step]
      split
      · exact h
      · exact h
  | deliver =>
      simp only [Wake.step, Wake.deliver]
      split
      · exact h
      · split
        · exact Wake.withheld_wake h
        · split
          · exact h
          · exact h
  | timer =>
      simp only [Wake.step]
      split
      · exact Wake.withheld_wake h
      · exact h
  | shutdown => exact h.of_eq rfl rfl h.cpu
  | reserve b => exact absurd rfl (hact b)

end Wake

/-! ## The invariant -/

section Invariant

variable {n k : Nat} {w : Resv n k}

/-- While the core is reserved, the reservation is in effect. -/
def ResvOk (w : Resv n k) : Prop := w.reserved = true → w.Effective

theorem ResvOk.wake (h : ResvOk w) {act : WakeAct} (hact : ∀ b, act ≠ .reserve b) :
    ResvOk { w with wake := w.wake.step act } := by
  intro hres
  have heff := h hres
  exact ⟨Wake.withheld_step heff.core hact, heff.getters, heff.callers⟩

/-- The beginning of `smp_unreserve_core` ends the reservation. -/
theorem ResvOk.call (h : ResvOk w) (p : Fin n) (b : Bool) : ResvOk (w.call p b) := by
  unfold Resv.call
  split
  · intro hres
    obtain ⟨hw, rfl⟩ := (Bool.and_eq_true _ _).mp hres
    have heff := h hw
    refine ⟨heff.core, heff.getters, fun q => ?_⟩
    dsimp only
    by_cases hq : q = p
    · rw [hq, Function.update_self]
      exact ⟨(fun hc => by cases hc), (fun hc => by cases hc)⟩
    · rw [Function.update_of_ne hq]
      exact heff.callers q
  · exact h

/-- A step of a command that is not about to clear the flag leaves an
    effective reservation so. -/
theorem Resv.Effective.goto (h : w.Effective) {w' : Resv n k} {p : Fin n} {pc : CommandPc}
    (hcallers : w'.callers = Function.update w.callers p pc)
    (hpc : pc ≠ .lock false ∧ pc ≠ .write false) (hget : w'.getters = w.getters)
    (hcore : w'.wake.smp.Withheld) : w'.Effective := by
  refine ⟨hcore, ?_, fun q => ?_⟩
  · rw [hget]
    exact h.getters
  · rw [hcallers]
    by_cases hq : q = p
    · rw [hq, Function.update_self]
      exact hpc
    · rw [Function.update_of_ne hq]
      exact h.callers q

theorem ResvOk.command (h : ResvOk w) {p : Fin n}
    (htime : w.callers p = .ret true → w.Effective) : ResvOk (w.command p) := by
  unfold Resv.command
  dsimp only
  cases hpc : w.callers p with
  | idle => exact h
  | lock b =>
      dsimp only
      split
      · exact h
      · intro hres
        have heff := h hres
        refine heff.goto rfl ⟨(fun hc => by cases hc), ?_⟩ rfl heff.core
        rintro ⟨⟩
        exact (heff.callers p).1 hpc
  | write b =>
      intro hres
      have heff := h hres
      refine heff.goto rfl ⟨(fun hc => by cases hc), (fun hc => by cases hc)⟩ rfl ?_
      cases b with
      | true => exact ⟨rfl, heff.core.status, heff.core.cpu⟩
      | false => exact absurd hpc (heff.callers p).2
  | readStatus b =>
      intro hres
      have heff := h hres
      refine heff.goto rfl ?_ rfl heff.core
      split
      · exact ⟨(fun hc => by cases hc), (fun hc => by cases hc)⟩
      · exact ⟨(fun hc => by cases hc), (fun hc => by cases hc)⟩
  | send b =>
      intro hres
      have heff := h hres
      exact heff.goto rfl ⟨(fun hc => by cases hc), (fun hc => by cases hc)⟩ rfl heff.core
  | unlock b =>
      intro hres
      have heff := h hres
      exact heff.goto rfl ⟨(fun hc => by cases hc), (fun hc => by cases hc)⟩ rfl heff.core
  | ret b =>
      -- a reservation begins here, or one is in effect already
      intro hres
      have heff : w.Effective := by
        rcases (Bool.or_eq_true _ _).mp hres with hw | rfl
        · exact h hw
        · exact htime hpc
      exact heff.goto rfl ⟨(fun hc => by cases hc), (fun hc => by cases hc)⟩ rfl heff.core

/-- A call that reads the status of a withheld core does not find it. -/
theorem ResvOk.get (h : ResvOk w) (g : Fin k) : ResvOk (w.get g) := by
  unfold Resv.get
  dsimp only
  have hgoto : ∀ pc, (w.Effective → pc ≠ .found) →
      ResvOk { w with getters := Function.update w.getters g pc } := by
    intro pc hpc hres
    have heff := h hres
    refine ⟨heff.core, fun g' => ?_, heff.callers⟩
    dsimp only
    by_cases hg : g' = g
    · rw [hg, Function.update_self]
      exact hpc heff
    · rw [Function.update_of_ne hg]
      exact heff.getters g'
  cases w.getters g with
  | idle => exact hgoto .scan (fun _ hc => by cases hc)
  | scan =>
      refine hgoto _ (fun heff => ?_)
      rw [if_neg heff.core.status]
      exact fun hc => by cases hc
  | found => exact hgoto .idle (fun _ hc => by cases hc)

theorem ResvOk.step (h : ResvOk w) {act : ResvAct n k} (htime : w.OnTime act) :
    ResvOk (w.step act) := by
  cases act with
  | wake act =>
      cases act with
      | reserve b => exact h
      | core => exact h.wake (fun b hc => by cases hc)
      | push p new => exact h.wake (fun b hc => by cases hc)
      | send p => exact h.wake (fun b hc => by cases hc)
      | deliver => exact h.wake (fun b hc => by cases hc)
      | timer => exact h.wake (fun b hc => by cases hc)
      | shutdown => exact h.wake (fun b hc => by cases hc)
  | call p b => exact h.call p b
  | command p => exact h.command htime
  | get g => exact h.get g
  | getOther g =>
      simp only [Resv.step]
      split
      · intro hres
        have heff := h hres
        refine ⟨heff.core, fun g' => ?_, heff.callers⟩
        dsimp only
        by_cases hg : g' = g
        · rw [hg, Function.update_self]
          exact fun hc => by cases hc
        · rw [Function.update_of_ne hg]
          exact heff.getters g'
      · exact h

/-- In a state that meets the invariant no call returns a reserved core. -/
theorem ResvOk.excluded (h : ResvOk w) (act : ResvAct n k) : w.Excluded act := by
  cases act with
  | get g =>
      intro hfound
      by_contra hc
      exact (h (Bool.not_eq_false _ ▸ hc)).getters g hfound
  | wake act => trivial
  | call p b => trivial
  | command p => trivial
  | getOther g => trivial

end Invariant

/-! ## Every interleaving -/

section Runs

variable {n k : Nat} {w : Resv n k}

/-- In every interleaving in which each reservation has taken effect when it
    returns, the core is not returned by `smp_get_first_free_core` between a
    reservation and the next `smp_unreserve_core`. -/
theorem reserved_excluded {acts : List (ResvAct n k)} (h0 : w.Init)
    (htime : Along Resv.step Resv.OnTime w acts) : Along Resv.step Resv.Excluded w acts := by
  have hok : ResvOk w := by
    intro hres
    rw [h0.2] at hres
    cases hres
  exact along_of_invariant (fun _ a h _ => h.excluded a) (fun _ _ h ht => h.step ht) hok htime

/-- A reserved core that is READY is returned by the next call that looks at
    it. -/
theorem ready_returned (hres : w.reserved = true) (hready : w.wake.smp.status = .ready)
    (g : Fin k) :
    ∃ acts : List (ResvAct n k), (∀ p b, .call p b ∉ acts) ∧
      ¬ Along Resv.step Resv.Excluded w acts := by
  have hreturn : ∀ w' : Resv n k, w'.reserved = true → w'.getters g = .found →
      ¬ w'.Excluded (.get g) := by
    intro w' hres' hfound hexcluded
    rw [hexcluded hfound] at hres'
    cases hres'
  have hscan : ∀ w' : Resv n k, w'.reserved = true → w'.wake.smp.status = .ready →
      w'.getters g = .scan → ¬ (w'.step (.get g)).Excluded (.get g) := by
    intro w' hres' hready' hpc
    have hget : w'.step (.get g)
        = { w' with getters := Function.update w'.getters g .found } := by
      simp only [Resv.step, Resv.get, hpc, hready', if_true]
    rw [hget]
    exact hreturn _ hres' (Function.update_self _ _ _)
  cases hpc : w.getters g with
  | found =>
      refine ⟨[.get g], fun p b hc => by simp at hc, ?_⟩
      exact fun h => hreturn w hres hpc h.1
  | scan =>
      refine ⟨[.get g, .get g], fun p b hc => by simp at hc, ?_⟩
      exact fun h => hscan w hres hready hpc h.2.1
  | idle =>
      have hget : w.step (.get g)
          = { w with getters := Function.update w.getters g .scan } := by
        simp only [Resv.step, Resv.get, hpc]
      refine ⟨[.get g, .get g, .get g], fun p b hc => by simp at hc, ?_⟩
      rintro ⟨-, -, h, -⟩
      rw [hget] at h
      exact hscan { w with getters := Function.update w.getters g .scan } hres hready
        (Function.update_self _ _ _) h

/-- When a reservation returns and the core is READY, or has read the flag
    before it was set, the core can be returned before any other call of a
    command begins. -/
theorem stale_returned {p : Fin n} (hpc : w.callers p = .ret true)
    (hstale : w.wake.smp.status = .ready ∨ w.wake.smp.cpu = .loop (.setIdleStatus false))
    (g : Fin k) :
    ∃ acts : List (ResvAct n k), (∀ q b, .call q b ∉ acts) ∧
      ¬ Along Resv.step Resv.Excluded w (.command p :: acts) := by
  have hstep : w.step (.command p)
      = { w with callers := Function.update w.callers p .idle, reserved := true } := by
    simp only [Resv.step, Resv.command, hpc, Bool.or_true]
  rcases hstale with hready | hcpu
  · obtain ⟨acts, hno, hbad⟩ := ready_returned (w := w.step (.command p))
      (by rw [hstep]) (by rw [hstep]; exact hready) g
    exact ⟨acts, hno, fun h => hbad h.2⟩
  · -- the loop writes READY first
    have hready : ((w.step (.command p)).step (.wake .core)).wake.smp.status = .ready := by
      rw [hstep]
      simp only [Resv.step, Wake.step, Wake.core, hcpu, Wake.loop, loopStep]
      rfl
    obtain ⟨acts, hno, hbad⟩ := ready_returned
      (w := (w.step (.command p)).step (.wake .core)) (by rw [hstep]; rfl) hready g
    refine ⟨.wake .core :: acts, ?_, fun h => hbad h.2.2⟩
    intro q b hc
    rcases List.mem_cons.mp hc with hc | hc
    · cases hc
    · exact hno q b hc

end Runs

/-- The core with thread 1 as its idle thread, one caller of the commands and
    one of `smp_get_first_free_core`. -/
def oneCaller : Resv 1 1 := { wake := { smp := { idleThread := 1 } } }

theorem oneCaller_init : oneCaller.Init := ⟨⟨⟨rfl, rfl, rfl, fun _ => rfl⟩, rfl⟩, rfl⟩

/-- A core that is reserved while it runs: it idles as RESERVED, and the next
    call passes it over. -/
theorem reserved_excluded_running :
    Along Resv.step Resv.Excluded oneCaller
      [.wake .core, .wake .core, .wake .core, .call 0 true, .command 0, .command 0, .command 0,
        .command 0, .command 0, .wake .core, .wake .core, .wake .core, .get 0, .get 0] :=
  reserved_excluded oneCaller_init (by decide)

/-- A core that is halted with status READY is reserved, and is returned to
    the next caller before it has woken up. -/
theorem reserved_returned :
    oneCaller.Init ∧ ¬ Along Resv.step Resv.Excluded oneCaller
      [.wake .core, .wake .core, .wake .core, .wake .core, .wake .core, .wake .core,
        .wake .core, .call 0 true, .command 0, .command 0, .command 0, .command 0, .command 0,
        .command 0, .get 0, .get 0, .get 0] :=
  ⟨oneCaller_init, by decide⟩

end Pfi
