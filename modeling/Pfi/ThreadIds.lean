import Mathlib.Logic.Function.Basic
import Mathlib.Data.List.Nodup
import Pfi.Words
import Pfi.Run

/-! # The ids of the threads of a core

    `smp_push_task` and `smp_push_task_bsp` take the id of a new thread with
    `target->next_tid++`, outside the queue lock: one step reads the counter
    of the core, a later one writes it back, and any number of cores do so at
    the same time.  `smp_init` starts the counter at `0`, which is the id of
    the idle thread as well.

    A call that reads while another one stands between its read and its write
    gets the same id as that one.  Where no call does, the calls get the
    numbers `0`, `1`, `2`, … in the order of their reads, and these differ as
    long as there are fewer than `2 ^ 64` (`TidsOk`).  The first of them is
    the id of the idle thread, so the ids of all threads differ when, besides,
    the call that got the idle thread's id creates no thread
    (`tids_distinct_on_time`). -/

namespace Pfi

open Run

/-! ## Calls -/

/-- Where a core stands in a call of one of the two functions, up to the
    return of `create_thread`.  `tid` is what it read. -/
inductive TidPc where
  | out
  | write (tid : Nat)
  | create (tid : Nat)
deriving Repr, DecidableEq

/-- The id that a call holds. -/
def TidPc.tid : TidPc → Option Nat
  | .out => none
  | .write t => some t
  | .create t => some t

/-- The counter of a core, the id of its idle thread if it has one, the calls
    by the cores that make them, and the ids of the threads created so far.
    `reads` counts the calls that have read the counter; no code uses it. -/
structure Tids where
  nextTid : Nat := 0
  idleTid : Option Nat
  calls : Nat → TidPc := fun _ => .out
  tids : List Nat := []
  reads : Nat := 0

/-- The next step of a core; `granted` tells whether `create_thread` gets its
    memory. -/
structure TidAct where
  core : Nat
  granted : Bool
deriving Repr, DecidableEq

def Tids.step (s : Tids) (act : TidAct) : Tids :=
  match s.calls act.core with
  | .out =>
      { s with
        calls := Function.update s.calls act.core (.write s.nextTid)
        reads := s.reads + 1 }
  | .write tid =>
      -- what other calls wrote since the read is overwritten
      { s with
        nextTid := (tid + 1) % 2 ^ 64
        calls := Function.update s.calls act.core (.create tid) }
  | .create tid =>
      { s with
        tids := if act.granted then tid :: s.tids else s.tids
        calls := Function.update s.calls act.core .out }

/-- All threads of the core, the idle thread included, have different ids. -/
def Tids.Distinct (s : Tids) : Prop := (s.idleTid.toList ++ s.tids).Nodup

instance (s : Tids) : Decidable s.Distinct := inferInstanceAs (Decidable (List.Nodup _))

/-- No call stands between its read and its write. -/
def Tids.NoWriter (s : Tids) : Prop := ∀ p t, s.calls p ≠ .write t

/-- A call reads the counter while no other one is about to write it, and not
    after `2 ^ 64` others; and the call that got the id of the idle thread
    creates none. -/
def Tids.OnTime (s : Tids) (act : TidAct) : Prop :=
  match s.calls act.core with
  | .out => s.NoWriter ∧ s.reads < 2 ^ 64
  | .write _ => True
  | .create tid => act.granted = true → s.idleTid ≠ some tid

/-! ## The invariant -/

/-- The ids that were read are the numbers below `reads`, and each is held by
    one call or is the id of one thread. -/
structure TidsOk (s : Tids) : Prop where
  counter : s.NoWriter → s.nextTid = s.reads % 2 ^ 64
  writer : ∀ p t, s.calls p = .write t → t + 1 = s.reads ∧ ∀ q u, s.calls q = .write u → q = p
  held : ∀ p t, (s.calls p).tid = some t →
    t < s.reads ∧ t ∉ s.tids ∧ ∀ q, (s.calls q).tid = some t → q = p
  below : ∀ t ∈ s.tids, t < s.reads
  distinct : s.tids.Nodup
  idle : ∀ t ∈ s.tids, s.idleTid ≠ some t

theorem TidsOk.start (idle : Option Nat) : TidsOk { idleTid := idle } := by
  refine ⟨fun _ => rfl, ?_, ?_, ?_, List.nodup_nil, ?_⟩
  · intro p t h
    cases h
  · intro p t h
    cases h
  · intro t ht
    cases ht
  · intro t ht
    cases ht

theorem TidsOk.ids {s : Tids} (h : TidsOk s) : s.Distinct := by
  unfold Tids.Distinct
  cases hidle : s.idleTid with
  | none => exact h.distinct
  | some t =>
      refine List.nodup_cons.mpr ⟨fun ht => ?_, h.distinct⟩
      exact h.idle t ht hidle

section Step

variable {s : Tids} {p : Nat}

/-- A read with no writer about gets the number of reads so far. -/
theorem TidsOk.read (h : TidsOk s) (hpc : s.calls p = .out) (hfree : s.NoWriter)
    (hreads : s.reads < 2 ^ 64) :
    TidsOk { s with
      calls := Function.update s.calls p (.write s.nextTid), reads := s.reads + 1 } := by
  have hnext : s.nextTid = s.reads := (h.counter hfree).trans (Nat.mod_eq_of_lt hreads)
  rw [hnext]
  refine ⟨?_, ?_, ?_, ?_, h.distinct, h.idle⟩
  · intro hno
    exact absurd (Function.update_self p _ s.calls) (hno p s.reads)
  · intro q t hq
    dsimp only at hq ⊢
    have honly : ∀ q u, Function.update s.calls p (.write s.reads) q = .write u → q = p := by
      intro q u hu
      by_contra hne
      rw [Function.update_of_ne hne] at hu
      exact hfree q u hu
    -- the reader is the only call that is about to write
    obtain rfl := honly q t hq
    rw [Function.update_self] at hq
    cases hq
    exact ⟨rfl, honly⟩
  · intro q t hq
    dsimp only at hq ⊢
    by_cases hqp : q = p
    · subst hqp
      rw [Function.update_self] at hq
      cases hq
      refine ⟨Nat.lt_succ_self _, fun ht => absurd (h.below _ ht) (Nat.lt_irrefl _), ?_⟩
      intro r hr
      by_contra hne
      rw [Function.update_of_ne hne] at hr
      exact absurd (h.held r _ hr).1 (Nat.lt_irrefl _)
    · rw [Function.update_of_ne hqp] at hq
      obtain ⟨hlt, hnot, honly⟩ := h.held q t hq
      refine ⟨Nat.lt_succ_of_lt hlt, hnot, ?_⟩
      intro r hr
      by_cases hrp : r = p
      · -- the new reader holds a number that is not below the reads
        rw [hrp, Function.update_self] at hr
        cases hr
        exact absurd hlt (Nat.lt_irrefl _)
      · rw [Function.update_of_ne hrp] at hr
        exact honly r hr
  · intro t ht
    exact Nat.lt_succ_of_lt (h.below t ht)

/-- The write that follows leaves the counter at the number of reads. -/
theorem TidsOk.write {tid : Nat} (h : TidsOk s) (hpc : s.calls p = .write tid) :
    TidsOk { s with
      nextTid := (tid + 1) % 2 ^ 64, calls := Function.update s.calls p (.create tid) } := by
  obtain ⟨hreads, honly⟩ := h.writer p tid hpc
  have hheld : ∀ q, (Function.update s.calls p (TidPc.create tid) q).tid = (s.calls q).tid := by
    intro q
    by_cases hqp : q = p
    · rw [hqp, Function.update_self, hpc]
      rfl
    · rw [Function.update_of_ne hqp]
  refine ⟨?_, ?_, ?_, h.below, h.distinct, h.idle⟩
  · intro _
    show (tid + 1) % 2 ^ 64 = s.reads % 2 ^ 64
    rw [hreads]
  · intro q t hq
    exfalso
    dsimp only at hq
    by_cases hqp : q = p
    · rw [hqp, Function.update_self] at hq
      cases hq
    · rw [Function.update_of_ne hqp] at hq
      exact hqp (honly q t hq)
  · intro q t hq
    dsimp only at hq ⊢
    rw [hheld] at hq
    obtain ⟨hlt, hnot, hone⟩ := h.held q t hq
    refine ⟨hlt, hnot, fun r hr => ?_⟩
    rw [hheld] at hr
    exact hone r hr

/-- The end of a call, with a new thread or without. -/
theorem TidsOk.create {tid : Nat} {granted : Bool} (h : TidsOk s) (hpc : s.calls p = .create tid)
    (hidle : granted = true → s.idleTid ≠ some tid) :
    TidsOk { s with
      tids := if granted then tid :: s.tids else s.tids
      calls := Function.update s.calls p .out } := by
  obtain ⟨hlt, hnot, honly⟩ := h.held p tid (by rw [hpc]; rfl)
  have hmem : ∀ t, t ∈ (if granted then tid :: s.tids else s.tids) →
      (t = tid ∧ granted = true) ∨ t ∈ s.tids := by
    intro t ht
    cases granted with
    | false => exact Or.inr ht
    | true =>
        rcases List.mem_cons.mp ht with rfl | ht
        · exact Or.inl ⟨rfl, rfl⟩
        · exact Or.inr ht
  -- no other call has moved
  have hcalls : ∀ q pc, pc ≠ .out → Function.update s.calls p TidPc.out q = pc →
      q ≠ p ∧ s.calls q = pc := by
    intro q pc hpc' hq
    by_cases hqp : q = p
    · rw [hqp, Function.update_self] at hq
      exact absurd hq.symm hpc'
    · rw [Function.update_of_ne hqp] at hq
      exact ⟨hqp, hq⟩
  have htid : ∀ q t, (Function.update s.calls p TidPc.out q).tid = some t →
      q ≠ p ∧ (s.calls q).tid = some t := by
    intro q t hq
    by_cases hqp : q = p
    · rw [hqp, Function.update_self] at hq
      cases hq
    · rw [Function.update_of_ne hqp] at hq
      exact ⟨hqp, hq⟩
  refine ⟨?_, ?_, ?_, ?_, ?_, ?_⟩
  · -- the counter
    intro hno
    refine h.counter (fun q t hq => hno q t ?_)
    have hqp : q ≠ p := by
      rintro rfl
      rw [hpc] at hq
      cases hq
    show Function.update s.calls p TidPc.out q = .write t
    rw [Function.update_of_ne hqp]
    exact hq
  · -- at most one call writes the counter
    intro q t hq
    obtain ⟨-, hq'⟩ := hcalls q _ (fun hc => by cases hc) hq
    obtain ⟨hreads, hone⟩ := h.writer q t hq'
    refine ⟨hreads, fun r u hr => ?_⟩
    exact hone r u (hcalls r _ (fun hc => by cases hc) hr).2
  · intro q t hq
    obtain ⟨hqp, hq'⟩ := htid q t hq
    obtain ⟨hlt', hnot', hone⟩ := h.held q t hq'
    refine ⟨hlt', fun ht => ?_, fun r hr => hone r (htid r t hr).2⟩
    rcases hmem t ht with ⟨rfl, -⟩ | ht
    · exact hqp (honly q hq')
    · exact hnot' ht
  · -- the numbers given are below the counter
    intro t ht
    rcases hmem t ht with ⟨rfl, -⟩ | ht
    · exact hlt
    · exact h.below t ht
  · -- no number is given twice
    cases granted with
    | false => exact h.distinct
    | true => exact List.nodup_cons.mpr ⟨hnot, h.distinct⟩
  · intro t ht
    rcases hmem t ht with ⟨rfl, hg⟩ | ht
    · exact hidle hg
    · exact h.idle t ht

theorem TidsOk.step (h : TidsOk s) {act : TidAct} (hok : s.OnTime act) : TidsOk (s.step act) := by
  unfold Tids.OnTime at hok
  unfold Tids.step
  cases hpc : s.calls act.core with
  | out =>
      rw [hpc] at hok
      exact h.read hpc hok.1 hok.2
  | write tid => exact h.write hpc
  | create tid =>
      rw [hpc] at hok
      exact h.create hpc hok

end Step

/-! ## Every interleaving -/

/-- In every run whose calls do not overlap in their reads and writes, and in
    which the call with the idle thread's id creates no thread, all ids
    differ in every state. -/
theorem tids_distinct_on_time {idle : Option Nat} {acts : List TidAct}
    (htime : Along Tids.step Tids.OnTime { idleTid := idle } acts) :
    Throughout Tids.step Tids.Distinct { idleTid := idle } acts :=
  throughout_of_invariant (fun _ h => h.ids) (fun _ _ h hok => h.step hok) (TidsOk.start idle)
    htime

/-- The first call gets no memory; after it two cores create a thread each,
    and the second reads before the first has created its thread. -/
theorem tids_distinct_two :
    Throughout Tids.step Tids.Distinct { idleTid := some 0 }
      [⟨1, true⟩, ⟨1, true⟩, ⟨1, false⟩, ⟨1, true⟩, ⟨1, true⟩, ⟨2, true⟩, ⟨2, true⟩, ⟨1, true⟩,
        ⟨2, true⟩] := by
  refine tids_distinct_on_time
    ⟨⟨?_, by decide⟩, trivial, ?_, ⟨?_, by decide⟩, trivial, ⟨?_, by decide⟩, trivial, ?_, ?_,
      trivial⟩
  · intro q t hq
    cases hq
  · exact fun h => by cases h
  · intro q t hq
    by_cases h1 : q = 1
    · subst h1
      cases hq
    · simp [Tids.step, Function.update] at hq
  · intro q t hq
    by_cases h1 : q = 1
    · subst h1
      cases hq
    · simp [Tids.step, Function.update, h1] at hq
  · exact fun _ => by decide
  · exact fun _ => by decide

/-- The first thread that is pushed to a core gets the id of its idle
    thread. -/
theorem first_thread_shares_id :
    ¬ Throughout Tids.step Tids.Distinct { idleTid := some 0 }
      [⟨1, true⟩, ⟨1, true⟩, ⟨1, true⟩] := by
  rintro ⟨-, -, -, hlast⟩
  change Tids.Distinct _ at hlast
  revert hlast
  decide

end Pfi
