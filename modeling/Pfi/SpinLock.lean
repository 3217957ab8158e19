import Mathlib.Data.Fintype.EquivFin
import Mathlib.Order.WellFounded
import Pfi.LockOrder

/-! # Spin locks that mask interrupts

    The machine of `LockOrder` takes a lock in one step.  Here a lock is a word:
    a thread exchanges it for one until it was zero, and in between reads it
    until it is zero.  Some locks are masked: the thread's interrupt flag is
    saved and cleared before the exchange, and restored after the store that
    releases the lock.

    Every state of this machine is one of `LockOrder` (`Fits`): the words say
    which locks are held, and the exchange that finds zero is the acquisition.
    The saved flags of a thread are one for each masked lock that it holds, all
    of them clear but the oldest (`Spin.levels`), so the flag is clear as long as
    a masked lock is held.

    In a state that keeps the lock order the threads that wait for one another
    lead to one that does not wait (`Disciplined.waits_end`).  So no threads wait
    in a circle (`SpinRuns.not_waits_cycle`), and nobody waits but for a thread in
    a call that is at no taken word (`SpinRuns.waits_end`), whether that thread
    ever leaves the loop that it is in or not. -/

namespace LockOrder

open Run

/-! ## What is held is known from what is left to do -/

section Unwinds

variable {L C R : Type} [LinearOrder R] {rank : L → R}

theorem Ordered.unique {p : Prog L} {hs hs' ht : List L} (h : Ordered rank hs p ht)
    (h' : Ordered rank hs' p ht) : hs = hs' := by
  induction h generalizing hs' with
  | skip =>
      cases h'
      rfl
  | acquire _ =>
      cases h'
      rfl
  | release =>
      cases h'
      rfl
  | seq _ _ ihp ihq =>
      cases h' with
      | seq hp hq =>
          obtain rfl := ihq hq
          exact ihp hp
  | choice _ _ ihp _ =>
      cases h' with
      | choice hp _ => exact ihp hp
  | loop _ _ =>
      cases h'
      rfl

theorem Unwinds.unique {k : List (Prog L)} {hs hs' : List L} (h : Unwinds rank hs k)
    (h' : Unwinds rank hs' k) : hs = hs' := by
  induction h generalizing hs' with
  | nil =>
      cases h'
      rfl
  | cons hp _ ih =>
      cases h' with
      | cons hp' hk' =>
          obtain rfl := ih hk'
          exact hp.unique hp'

/-- From a thread to the holder of the lock that it waits for, and so on, one
    comes to a thread that does not wait, for nobody is met twice. -/
theorem Disciplined.waits_end [Finite C] {s : State L C} (h : Disciplined rank s) (c : C) :
    ∃ d, Relation.ReflTransGen s.WaitsFor c d ∧ ∀ l, s.Wants d l → s.held l = none := by
  have hirrefl : Std.Irrefl (Relation.TransGen (flip s.WaitsFor)) :=
    ⟨fun d hd => h.not_waits_cycle d (Relation.transGen_swap.mp hd)⟩
  have hwf := Finite.wellFounded_of_trans_of_irrefl (Relation.TransGen (flip s.WaitsFor))
  induction c using hwf.induction with
  | h c ih =>
      by_cases hfree : ∀ l, s.Wants c l → s.held l = none
      · exact ⟨c, .refl, hfree⟩
      · push Not at hfree
        obtain ⟨l, hwants, hheld⟩ := hfree
        obtain ⟨d, hd⟩ := Option.ne_none_iff_exists'.mp hheld
        have hwaits : s.WaitsFor c d := ⟨l, hwants, hd⟩
        obtain ⟨e, hde, he⟩ := ih d (.single hwaits)
        exact ⟨e, .head hwaits hde, he⟩

end Unwinds

/-! ## Steps that touch no lock -/

/-- A step of a thread by itself. -/
inductive Local {L : Type} : List (Prog L) → List (Prog L) → Prop where
  | skip {k : List (Prog L)} : Local (.skip :: k) k
  | seq {p q : Prog L} {k : List (Prog L)} : Local (.seq p q :: k) (p :: q :: k)
  | left {p q : Prog L} {k : List (Prog L)} : Local (.choice p q :: k) (p :: k)
  | right {p q : Prog L} {k : List (Prog L)} : Local (.choice p q :: k) (q :: k)
  | again {p : Prog L} {k : List (Prog L)} : Local (.loop p :: k) (p :: .loop p :: k)
  | leave {p : Prog L} {k : List (Prog L)} : Local (.loop p :: k) k

theorem Local.step {L C : Type} [DecidableEq L] [DecidableEq C] {progs : Prog L → Prop}
    {s : State L C} {c : C} {j k : List (Prog L)} (h : Local j k) (hc : s.cont c = j) :
    Step progs s (s.goOn c k) := by
  cases h with
  | skip => exact .skip hc
  | seq => exact .seq hc
  | left => exact .left hc
  | right => exact .right hc
  | again => exact .again hc
  | leave => exact .leave hc

/-- What is held stays. -/
theorem Local.unwinds {L R : Type} [LinearOrder R] {rank : L → R} {hs : List L}
    {j k : List (Prog L)} (h : Local j k) (hun : Unwinds rank hs j) : Unwinds rank hs k := by
  rcases hun with _ | ⟨hp, hk⟩
  · cases h
  · cases h with
    | skip =>
        cases hp
        exact hk
    | seq =>
        cases hp with
        | seq hp hq => exact .cons hp (.cons hq hk)
    | left =>
        cases hp with
        | choice hp _ => exact .cons hp hk
    | right =>
        cases hp with
        | choice _ hq => exact .cons hq hk
    | again =>
        cases hp with
        | loop hp => exact .cons hp (.cons (.loop hp) hk)
    | leave =>
        cases hp
        exact hk

/-! ## The machine of words -/

/-- What a thread is about to do: go on with its program, exchange the word of a
    lock, read it, or restore the flag. -/
inductive Phase (L : Type) where
  | run
  | test (l : L)
  | wait (l : L)
  | restore

/-- `base` is what a thread's flag was last set to outside of all calls. -/
structure Spin (L C : Type) where
  word : L → Nat
  cont : C → List (Prog L)
  phase : C → Phase L
  iflag : C → Bool
  saved : C → List Bool
  base : C → Bool

section Machine

variable {L C : Type}

/-- Nothing is held and nobody runs. -/
structure Spin.Idle (s : Spin L C) : Prop where
  word : ∀ l, s.word l = 0
  cont : ∀ c, s.cont c = []
  phase : ∀ c, s.phase c = .run
  iflag : ∀ c, s.iflag c = s.base c
  saved : ∀ c, s.saved c = []

def Spin.store [DecidableEq L] (s : Spin L C) (l : L) (v : Nat) : Spin L C :=
  { s with word := Function.update s.word l v }

variable [DecidableEq C]

def Spin.move (s : Spin L C) (c : C) (k : List (Prog L)) (ph : Phase L) : Spin L C :=
  { s with cont := Function.update s.cont c k, phase := Function.update s.phase c ph }

/-- The flag is saved and cleared. -/
def Spin.mask (s : Spin L C) (c : C) : Spin L C :=
  { s with
    iflag := Function.update s.iflag c false
    saved := Function.update s.saved c (s.iflag c :: s.saved c) }

/-- The flag is what was saved. -/
def Spin.unmask (s : Spin L C) (c : C) (f : Bool) (fs : List Bool) : Spin L C :=
  { s with
    iflag := Function.update s.iflag c f
    saved := Function.update s.saved c fs }

def Spin.setFlag (s : Spin L C) (c : C) (f : Bool) : Spin L C :=
  { s with iflag := Function.update s.iflag c f, base := Function.update s.base c f }

variable [DecidableEq L]

/-- A step of one thread.  What only the thread itself can see, the saving and
    the clearing of its flag, is one step; each access to a word is one. -/
inductive SpinStep (masks : L → Bool) (progs : Prog L → Prop) : Spin L C → Spin L C → Prop where
  | call {s : Spin L C} {c : C} {p : Prog L} : s.cont c = [] → s.phase c = .run → progs p →
      SpinStep masks progs s (s.move c [p] .run)
  | setFlag {s : Spin L C} {c : C} (f : Bool) : s.cont c = [] → s.phase c = .run →
      SpinStep masks progs s (s.setFlag c f)
  | go {s : Spin L C} {c : C} {k : List (Prog L)} : s.phase c = .run → Local (s.cont c) k →
      SpinStep masks progs s (s.move c k .run)
  | enter {s : Spin L C} {c : C} {l : L} {k : List (Prog L)} : s.phase c = .run →
      s.cont c = .acquire l :: k → masks l = false →
      SpinStep masks progs s (s.move c (.acquire l :: k) (.test l))
  | enterMasked {s : Spin L C} {c : C} {l : L} {k : List (Prog L)} : s.phase c = .run →
      s.cont c = .acquire l :: k → masks l = true →
      SpinStep masks progs s ((s.mask c).move c (.acquire l :: k) (.test l))
  | take {s : Spin L C} {c : C} {l : L} {k : List (Prog L)} : s.phase c = .test l →
      s.cont c = .acquire l :: k → s.word l = 0 →
      SpinStep masks progs s ((s.store l 1).move c k .run)
  | miss {s : Spin L C} {c : C} {l : L} {k : List (Prog L)} : s.phase c = .test l →
      s.cont c = .acquire l :: k → s.word l ≠ 0 →
      SpinStep masks progs s ((s.store l 1).move c (.acquire l :: k) (.wait l))
  | spin {s : Spin L C} {c : C} {l : L} : s.phase c = .wait l → s.word l ≠ 0 →
      SpinStep masks progs s s
  | retry {s : Spin L C} {c : C} {l : L} {k : List (Prog L)} : s.phase c = .wait l →
      s.cont c = .acquire l :: k → s.word l = 0 →
      SpinStep masks progs s (s.move c (.acquire l :: k) (.test l))
  | release {s : Spin L C} {c : C} {l : L} {k : List (Prog L)} : s.phase c = .run →
      s.cont c = .release l :: k → masks l = false →
      SpinStep masks progs s ((s.store l 0).move c k .run)
  | releaseMasked {s : Spin L C} {c : C} {l : L} {k : List (Prog L)} : s.phase c = .run →
      s.cont c = .release l :: k → masks l = true →
      SpinStep masks progs s ((s.store l 0).move c k .restore)
  | restore {s : Spin L C} {c : C} {f : Bool} {fs : List Bool} : s.phase c = .restore →
      s.saved c = f :: fs →
      SpinStep masks progs s ((s.unmask c f fs).move c (s.cont c) .run)

/-- The states that any interleaving reaches from one in which nobody runs. -/
abbrev SpinRuns (masks : L → Bool) (progs : Prog L → Prop) (s : Spin L C) : Prop :=
  Reachable Spin.Idle (SpinStep masks progs) s

end Machine

/-! ## The machine of locks under it -/

section Fits

variable {L C R : Type} [LinearOrder R] {rank : L → R} {masks : L → Bool}

/-- Masked sections that a thread is about to enter or to leave. -/
def Phase.entered (masks : L → Bool) : Phase L → Nat
  | .run => 0
  | .test l => if masks l then 1 else 0
  | .wait l => if masks l then 1 else 0
  | .restore => 1

/-- The flag and the saved flags in `n` masked sections. -/
def Spin.levels (s : Spin L C) (c : C) (n : Nat) : List Bool := List.replicate n false ++ [s.base c]

/-- A thread that holds the locks `hs`. -/
structure Spin.ThreadOk (masks : L → Bool) (s : Spin L C) (c : C) (hs : List L) : Prop where
  flags : s.iflag c :: s.saved c = s.levels c (hs.countP masks + (s.phase c).entered masks)
  waits : ∀ l, s.phase c = .test l ∨ s.phase c = .wait l → ∃ k, s.cont c = .acquire l :: k

structure Fits (rank : L → R) (masks : L → Bool) (s : Spin L C) (t : State L C) : Prop where
  cont : s.cont = t.cont
  word : ∀ l, s.word l = if t.held l = none then 0 else 1
  threads : ∀ c hs, Unwinds rank hs (s.cont c) → s.ThreadOk masks c hs

/-- Thread `c` still has to release `l`. -/
def Spin.Owes (rank : L → R) (s : Spin L C) (c : C) (l : L) : Prop :=
  ∃ hs, Unwinds rank hs (s.cont c) ∧ l ∈ hs

/-- A word is one exactly while a thread has its lock, which is one thread; the
    flag of a thread that has a masked lock is clear, and that of a thread
    between its calls is what it has set. -/
structure Spin.Safe (rank : L → R) (masks : L → Bool) (s : Spin L C) : Prop where
  word : ∀ l, s.word l = 0 ∧ (∀ c, ¬ s.Owes rank c l) ∨ s.word l = 1 ∧ ∃ c, s.Owes rank c l
  exclusive : ∀ l c d, s.Owes rank c l → s.Owes rank d l → c = d
  masked : ∀ c l, s.Owes rank c l → masks l = true → s.iflag c = false
  restored : ∀ c, s.cont c = [] → s.phase c = .run → s.iflag c = s.base c ∧ s.saved c = []

variable {s s' : Spin L C} {t t' : State L C}

theorem Spin.Idle.fits (h : s.Idle) : Fits rank masks s {} := by
  refine ⟨funext (fun c => h.cont c), fun l => h.word l, fun c hs hun => ?_⟩
  rw [h.cont c] at hun
  cases hun
  have hphase := h.phase c
  refine ⟨?_, fun l hl => ?_⟩
  · rw [hphase, h.iflag c, h.saved c]
    rfl
  · rw [hphase] at hl
    rcases hl with hl | hl
    · cases hl
    · cases hl

/-- A thread that takes no part in a step. -/
theorem Spin.ThreadOk.congr {c : C} {hs : List L} (h : s.ThreadOk masks c hs)
    (hcont : s'.cont c = s.cont c) (hphase : s'.phase c = s.phase c)
    (hflag : s'.iflag c = s.iflag c) (hsaved : s'.saved c = s.saved c)
    (hbase : s'.base c = s.base c) : s'.ThreadOk masks c hs := by
  refine ⟨?_, ?_⟩
  · unfold Spin.levels
    rw [hphase, hflag, hsaved, hbase]
    exact h.flags
  · rw [hcont, hphase]
    exact h.waits

/-- A masked lock that a thread holds keeps its flag clear. -/
theorem Fits.masked (h : Fits rank masks s t) (ht : Disciplined rank t) {c : C} {l : L}
    (hl : t.held l = some c) (hm : masks l = true) : s.iflag c = false := by
  obtain ⟨hs, hc⟩ := ht c
  have hun := hc.unwinds
  rw [← h.cont] at hun
  have hflags := (h.threads c hs hun).flags
  have hpos : 0 < hs.countP masks := List.countP_pos_iff.mpr ⟨l, (hc.mem l).mp hl, hm⟩
  obtain ⟨n, hn⟩ : ∃ n, hs.countP masks + (s.phase c).entered masks = n + 1 :=
    ⟨hs.countP masks + (s.phase c).entered masks - 1, by omega⟩
  rw [hn, Spin.levels, List.replicate_succ, List.cons_append] at hflags
  exact (List.cons.inj hflags).1

/-- A thread at a taken word has the lock's acquisition before it. -/
theorem Phase.waits_acquire {ph : Phase L} {l : L} (hph : ph = .test l ∨ ph = .wait l)
    (k : List (Prog L)) (m : L) (hm : ph = .test m ∨ ph = .wait m) :
    ∃ j, Prog.acquire l :: k = Prog.acquire m :: j := by
  have hml : l = m := by
    rcases hph with rfl | rfl
    · rcases hm with hm | hm
      · exact Phase.test.inj hm
      · cases hm
    · rcases hm with hm | hm
      · cases hm
      · exact Phase.wait.inj hm
  exact ⟨k, by rw [hml]⟩

/-- A thread that runs its code stands at no word. -/
theorem Phase.run_waits {k : List (Prog L)} (m : L)
    (hm : (Phase.run : Phase L) = .test m ∨ Phase.run = .wait m) :
    ∃ j, k = Prog.acquire m :: j := by
  rcases hm with hm | hm
  · cases hm
  · cases hm

/-- What thread `c` holds, and what its flag and phase are. -/
theorem Fits.thread (h : Fits rank masks s t) (ht : Disciplined rank t) (c : C) :
    ∃ hs, Unwinds rank hs (s.cont c) ∧
      s.iflag c :: s.saved c = s.levels c (hs.countP masks + (s.phase c).entered masks) ∧
      ∀ l, t.held l = some c ↔ l ∈ hs := by
  obtain ⟨hs, hc⟩ := ht c
  have hun := hc.unwinds
  rw [← h.cont] at hun
  exact ⟨hs, hun, (h.threads c hs hun).flags, hc.mem⟩

theorem Fits.word_zero (h : Fits rank masks s t) {l : L} : s.word l = 0 ↔ t.held l = none := by
  rw [h.word l]
  by_cases hl : t.held l = none
  · rw [if_pos hl]
    exact iff_of_true rfl hl
  · rw [if_neg hl]
    exact iff_of_false Nat.one_ne_zero hl

theorem unwinds_acquire {hs : List L} {l : L} {k : List (Prog L)}
    (h : Unwinds rank hs (.acquire l :: k)) : Unwinds rank (l :: hs) k := by
  rcases h with _ | ⟨hp, hk⟩
  cases hp
  exact hk

theorem unwinds_release {hs : List L} {l : L} {k : List (Prog L)}
    (h : Unwinds rank hs (.release l :: k)) : ∃ ht, hs = l :: ht ∧ Unwinds rank ht k := by
  rcases h with _ | ⟨hp, hk⟩
  cases hp
  exact ⟨_, rfl, hk⟩

/-- The word of a lock that is taken or released. -/
theorem Fits.word_update [DecidableEq L] (h : Fits rank masks s t) (l : L) (v : Option C) (m : L) :
    Function.update s.word l (if v = none then 0 else 1) m
      = if Function.update t.held l v m = none then 0 else 1 := by
  by_cases hm : m = l
  · subst hm
    rw [Function.update_self, Function.update_self]
  · rw [Function.update_of_ne hm, Function.update_of_ne hm]
    exact h.word m

variable [DecidableEq C]

/-- The thread that has moved. -/
theorem Spin.ThreadOk.move {c : C} {hs : List L} {k : List (Prog L)} {ph : Phase L}
    (hflags : s.iflag c :: s.saved c = s.levels c (hs.countP masks + ph.entered masks))
    (hwaits : ∀ l, ph = .test l ∨ ph = .wait l → ∃ j, k = .acquire l :: j) :
    (s.move c k ph).ThreadOk masks c hs := by
  have hphase : (s.move c k ph).phase c = ph := by
    show Function.update s.phase c ph c = ph
    rw [Function.update_self]
  have hcont : (s.move c k ph).cont c = k := by
    show Function.update s.cont c k c = k
    rw [Function.update_self]
  constructor
  · rw [hphase]
    exact hflags
  · rw [hphase, hcont]
    exact hwaits

/-- A step of thread `c`, after which it holds the locks `hs`. -/
theorem Fits.update (h : Fits rank masks s t) {c : C} {k : List (Prog L)} {hs : List L}
    (hcont' : t'.cont = Function.update t.cont c k) (hcont : s'.cont = Function.update s.cont c k)
    (hword : ∀ l, s'.word l = if t'.held l = none then 0 else 1)
    (hframe : ∀ d, d ≠ c → s'.phase d = s.phase d ∧ s'.iflag d = s.iflag d ∧
      s'.saved d = s.saved d ∧ s'.base d = s.base d)
    (hun : Unwinds rank hs k) (hself : s'.ThreadOk masks c hs) : Fits rank masks s' t' := by
  refine ⟨?_, hword, fun d hs' hun' => ?_⟩
  · rw [hcont, hcont', h.cont]
  · by_cases hdc : d = c
    · subst hdc
      rw [hcont, Function.update_self] at hun'
      obtain rfl := hun.unique hun'
      exact hself
    · have hsame : s'.cont d = s.cont d := by
        rw [hcont, Function.update_of_ne hdc]
      rw [hsame] at hun'
      obtain ⟨hphase, hflag, hsaved, hbase⟩ := hframe d hdc
      exact (h.threads d hs' hun').congr hsame hphase hflag hsaved hbase

/-- A step of thread `c` that only the machine of words takes. -/
theorem Fits.stay (h : Fits rank masks s t) {c : C} {k : List (Prog L)} {hs : List L}
    (hk : s.cont c = k) (hcont : s'.cont = Function.update s.cont c k)
    (hword : ∀ l, s'.word l = s.word l)
    (hframe : ∀ d, d ≠ c → s'.phase d = s.phase d ∧ s'.iflag d = s.iflag d ∧
      s'.saved d = s.saved d ∧ s'.base d = s.base d)
    (hun : Unwinds rank hs k) (hself : s'.ThreadOk masks c hs) : Fits rank masks s' t := by
  refine h.update ?_ hcont (fun l => (hword l).trans (h.word l)) hframe hun hself
  rw [← h.cont, ← hk, Function.update_eq_self]

variable [DecidableEq L]

/-- The exchange that finds zero. -/
theorem Fits.take (h : Fits rank masks s t) (ht : Disciplined rank t) {c : C} {l : L}
    {k : List (Prog L)} (hphase : s.phase c = .test l) (hc : s.cont c = .acquire l :: k) :
    Fits rank masks ((s.store l 1).move c k .run)
      { t.goOn c k with held := Function.update t.held l (some c) } := by
  obtain ⟨hs, hun, hflags, -⟩ := h.thread ht c
  rw [hphase] at hflags
  rw [hc] at hun
  refine h.update rfl rfl (h.word_update l (some c))
    (fun d hd => ⟨Function.update_of_ne hd _ _, rfl, rfl, rfl⟩) (unwinds_acquire hun)
    (Spin.ThreadOk.move ?_ Phase.run_waits)
  rw [List.countP_cons]
  exact hflags

/-- A release; a masked one has the flag still to restore. -/
theorem Fits.release (h : Fits rank masks s t) (ht : Disciplined rank t) {c : C} {l : L}
    {k : List (Prog L)} (hphase : s.phase c = .run) (hc : s.cont c = .release l :: k)
    {ph : Phase L} (hph : ph = .run ∧ masks l = false ∨ ph = .restore ∧ masks l = true) :
    Fits rank masks ((s.store l 0).move c k ph)
      { t.goOn c k with held := Function.update t.held l none } := by
  obtain ⟨hs, hun, hflags, -⟩ := h.thread ht c
  rw [hphase] at hflags
  rw [hc] at hun
  obtain ⟨hs', rfl, hrest⟩ := unwinds_release hun
  rw [List.countP_cons] at hflags
  refine h.update rfl rfl (h.word_update l none)
    (fun d hd => ⟨Function.update_of_ne hd _ _, rfl, rfl, rfl⟩) hrest
    (Spin.ThreadOk.move ?_ (fun m hm => ?_))
  · rcases hph with ⟨rfl, hl⟩ | ⟨rfl, hl⟩
    · rw [hl] at hflags
      exact hflags
    · rw [hl] at hflags
      exact hflags
  · rcases hph with ⟨rfl, -⟩ | ⟨rfl, -⟩
    · exact Phase.run_waits m hm
    · rcases hm with hm | hm <;> cases hm

/-- Each step of the machine of words is a step of the machine of locks, or
    none. -/
theorem Fits.step {progs : Prog L → Prop} {r : R} (hprogs : ∀ p, progs p → Above rank r p)
    (h : Fits rank masks s t) (ht : Disciplined rank t) (hstep : SpinStep masks progs s s') :
    ∃ t', (t' = t ∨ Step progs t t') ∧ Fits rank masks s' t' := by
  cases hstep with
  | @call c p hc hphase hp =>
      have hidle : t.cont c = [] := by
        rw [← h.cont]
        exact hc
      obtain ⟨hs, hun, hflags, -⟩ := h.thread ht c
      rw [hc] at hun
      cases hun
      rw [hphase] at hflags
      exact ⟨t.goOn c [p], Or.inr (.call hidle hp), h.update rfl rfl h.word
        (fun d hd => ⟨Function.update_of_ne hd _ _, rfl, rfl, rfl⟩)
        (.cons (hprogs p hp [] (fun _ hm => absurd hm List.not_mem_nil)) .nil)
        (Spin.ThreadOk.move hflags Phase.run_waits)⟩
  | @setFlag c f hc hphase =>
      obtain ⟨hs, hun, hflags, -⟩ := h.thread ht c
      rw [hc] at hun
      cases hun
      rw [hphase] at hflags
      have hsaved : s.saved c = [] := (List.cons.inj hflags).2
      refine ⟨t, Or.inl rfl, h.stay hc ?_ (fun _ => rfl) (fun d hd => ⟨rfl,
        Function.update_of_ne hd _ _, rfl, Function.update_of_ne hd _ _⟩) .nil ⟨?_, ?_⟩⟩
      · rw [← hc, Function.update_eq_self]
        rfl
      · show Function.update s.iflag c f c :: s.saved c = (s.setFlag c f).levels c _
        rw [Function.update_self, hsaved]
        show [f] = List.replicate (0 + (s.phase c).entered masks) false
          ++ [Function.update s.base c f c]
        rw [hphase, Function.update_self]
        rfl
      · show ∀ l, s.phase c = .test l ∨ s.phase c = .wait l → _
        rw [hphase]
        exact Phase.run_waits
  | @go c k hphase hlocal =>
      obtain ⟨hs, hun, hflags, -⟩ := h.thread ht c
      rw [hphase] at hflags
      exact ⟨t.goOn c k, Or.inr (hlocal.step (congrFun h.cont c).symm), h.update rfl rfl h.word
        (fun d hd => ⟨Function.update_of_ne hd _ _, rfl, rfl, rfl⟩) (hlocal.unwinds hun)
        (Spin.ThreadOk.move hflags Phase.run_waits)⟩
  | @enter c l k hphase hc hl =>
      obtain ⟨hs, hun, hflags, -⟩ := h.thread ht c
      rw [hphase] at hflags
      rw [hc] at hun
      refine ⟨t, Or.inl rfl, h.stay hc rfl (fun _ => rfl)
        (fun d hd => ⟨Function.update_of_ne hd _ _, rfl, rfl, rfl⟩) hun
        (Spin.ThreadOk.move ?_ (Phase.waits_acquire (Or.inl rfl) k))⟩
      rw [Phase.entered, hl]
      exact hflags
  | @enterMasked c l k hphase hc hl =>
      obtain ⟨hs, hun, hflags, -⟩ := h.thread ht c
      rw [hphase] at hflags
      rw [hc] at hun
      refine ⟨t, Or.inl rfl, h.stay hc rfl (fun _ => rfl) (fun d hd =>
        ⟨Function.update_of_ne hd _ _, Function.update_of_ne hd _ _,
          Function.update_of_ne hd _ _, rfl⟩) hun
        (Spin.ThreadOk.move ?_ (Phase.waits_acquire (Or.inl rfl) k))⟩
      -- one more level, and the flag is clear
      show Function.update s.iflag c false c
          :: Function.update s.saved c (s.iflag c :: s.saved c) c = s.levels c _
      have hentered : (Phase.test l).entered masks = 1 := if_pos hl
      rw [Function.update_self, Function.update_self, hflags, hentered]
      exact congrArg (· ++ [s.base c]) List.replicate_succ.symm
  | @take c l k hphase hc hword =>
      have hcont : t.cont c = .acquire l :: k := by
        rw [← h.cont]
        exact hc
      exact ⟨_, Or.inr (.acquire hcont (h.word_zero.mp hword)), h.take ht hphase hc⟩
  | @miss c l k hphase hc hword =>
      obtain ⟨hs, hun, hflags, -⟩ := h.thread ht c
      rw [hphase] at hflags
      rw [hc] at hun
      refine ⟨t, Or.inl rfl, h.stay hc rfl (fun m => ?_)
        (fun d hd => ⟨Function.update_of_ne hd _ _, rfl, rfl, rfl⟩) hun
        (Spin.ThreadOk.move hflags (fun m hm => ?_))⟩
      · show Function.update s.word l 1 m = s.word m
        by_cases hm : m = l
        · subst hm
          rw [Function.update_self, h.word m, if_neg (fun hnone => hword (h.word_zero.mpr hnone))]
        · rw [Function.update_of_ne hm]
      · rcases hm with hm | hm
        · cases hm
        · cases hm
          exact ⟨k, rfl⟩
  | spin _ _ => exact ⟨t, Or.inl rfl, h⟩
  | @retry c l k hphase hc hword =>
      obtain ⟨hs, hun, hflags, -⟩ := h.thread ht c
      rw [hphase] at hflags
      rw [hc] at hun
      exact ⟨t, Or.inl rfl, h.stay hc rfl (fun _ => rfl)
        (fun d hd => ⟨Function.update_of_ne hd _ _, rfl, rfl, rfl⟩) hun
        (Spin.ThreadOk.move hflags (Phase.waits_acquire (Or.inl rfl) k))⟩
  | @release c l k hphase hc hl =>
      have hcont : t.cont c = .release l :: k := by
        rw [← h.cont]
        exact hc
      exact ⟨_, Or.inr (.release hcont), h.release ht hphase hc (Or.inl ⟨rfl, hl⟩)⟩
  | @releaseMasked c l k hphase hc hl =>
      have hcont : t.cont c = .release l :: k := by
        rw [← h.cont]
        exact hc
      exact ⟨_, Or.inr (.release hcont), h.release ht hphase hc (Or.inr ⟨rfl, hl⟩)⟩
  | @restore c f fs hphase hsaved =>
      obtain ⟨hs, hun, hflags, -⟩ := h.thread ht c
      rw [hphase, hsaved] at hflags
      refine ⟨t, Or.inl rfl, h.stay rfl rfl (fun _ => rfl) (fun d hd =>
        ⟨Function.update_of_ne hd _ _, Function.update_of_ne hd _ _,
          Function.update_of_ne hd _ _, rfl⟩) hun
        (Spin.ThreadOk.move ?_ Phase.run_waits)⟩
      show Function.update s.iflag c f c :: Function.update s.saved c fs c = s.levels c _
      rw [Function.update_self, Function.update_self]
      exact (List.cons.inj hflags).2

/-- Every state that an interleaving reaches is one of the machine of locks. -/
theorem SpinRuns.fits {progs : Prog L → Prop} {r : R} (hprogs : ∀ p, progs p → Above rank r p)
    (h : SpinRuns masks progs s) : ∃ t, Runs progs t ∧ Fits rank masks s t := by
  induction h with
  | start hidle => exact ⟨{}, .start rfl, hidle.fits⟩
  | step _ hstep ih =>
      obtain ⟨t, ht, hfits⟩ := ih
      obtain ⟨t', hmove, hfits'⟩ := hfits.step hprogs (ht.disciplined hprogs) hstep
      rcases hmove with rfl | hmove
      · exact ⟨t', ht, hfits'⟩
      · exact ⟨t', .step ht hmove, hfits'⟩

/-! ## What a thread still has to release -/

omit [DecidableEq C] [DecidableEq L] in
theorem Fits.owes_iff (h : Fits rank masks s t) (ht : Disciplined rank t) {c : C} {l : L} :
    s.Owes rank c l ↔ t.held l = some c := by
  obtain ⟨hs, hun, -, hmem⟩ := h.thread ht c
  rw [hmem]
  constructor
  · rintro ⟨hs', hun', hl⟩
    obtain rfl := hun.unique hun'
    exact hl
  · intro hl
    exact ⟨hs, hun, hl⟩

omit [DecidableEq C] [DecidableEq L] in
theorem Fits.safe (h : Fits rank masks s t) (ht : Disciplined rank t) : s.Safe rank masks := by
  refine ⟨fun l => ?_, fun l c d hc hd => ?_, fun c l hl hm => ?_, fun c hc hphase => ?_⟩
  · rw [h.word l]
    by_cases hl : t.held l = none
    · rw [if_pos hl]
      refine Or.inl ⟨rfl, fun c hc => ?_⟩
      rw [h.owes_iff ht, hl] at hc
      cases hc
    · rw [if_neg hl]
      obtain ⟨c, hc⟩ := Option.ne_none_iff_exists'.mp hl
      exact Or.inr ⟨rfl, c, (h.owes_iff ht).mpr hc⟩
  · rw [h.owes_iff ht] at hc hd
    rw [hc] at hd
    exact Option.some.inj hd
  · exact h.masked ht ((h.owes_iff ht).mp hl) hm
  · obtain ⟨hs, hun, hflags, -⟩ := h.thread ht c
    rw [hc] at hun
    cases hun
    rw [hphase] at hflags
    exact ⟨(List.cons.inj hflags).1, (List.cons.inj hflags).2⟩

end Fits

/-! ## Whom a thread waits for -/

section Waits

variable {L C R : Type} [LinearOrder R] {rank : L → R} {masks : L → Bool}

/-- Thread `c` is in a call. -/
def Spin.Busy (s : Spin L C) (c : C) : Prop := s.cont c ≠ [] ∨ s.phase c ≠ .run

/-- The next word that thread `c` exchanges is taken. -/
def Spin.Blocked (s : Spin L C) (c : C) (l : L) : Prop :=
  (∃ k, s.cont c = .acquire l :: k) ∧ s.word l ≠ 0

/-- Thread `d` still has to release the lock that thread `c` waits for. -/
def Spin.WaitsFor (rank : L → R) (s : Spin L C) (c d : C) : Prop :=
  ∃ l, s.Blocked c l ∧ s.Owes rank d l

variable {s : Spin L C} {t : State L C}

/-- It waits as in the machine of locks. -/
theorem Fits.waitsFor_iff (h : Fits rank masks s t) (ht : Disciplined rank t) {c d : C} :
    s.WaitsFor rank c d ↔ t.WaitsFor c d := by
  constructor
  · rintro ⟨l, ⟨⟨k, hk⟩, -⟩, howes⟩
    exact ⟨l, ⟨k, by rw [← h.cont]; exact hk⟩, (h.owes_iff ht).mp howes⟩
  · rintro ⟨l, ⟨k, hk⟩, hheld⟩
    refine ⟨l, ⟨⟨k, by rw [h.cont]; exact hk⟩, fun hzero => ?_⟩, (h.owes_iff ht).mpr hheld⟩
    rw [h.word_zero.mp hzero] at hheld
    cases hheld

/-- A thread that is waited for is in a call. -/
theorem Spin.WaitsFor.busy {c d : C} (h : s.WaitsFor rank c d) : s.Busy d := by
  obtain ⟨l, -, hs, hun, hl⟩ := h
  refine Or.inl (fun hidle => ?_)
  rw [hidle] at hun
  cases hun
  exact List.not_mem_nil hl

variable [DecidableEq C] [DecidableEq L] {progs : Prog L → Prop} {r : R}

/-- In every state that is reached, no threads wait for each other in a circle. -/
theorem SpinRuns.not_waits_cycle (hprogs : ∀ p, progs p → Above rank r p)
    (h : SpinRuns masks progs s) (c : C) : ¬ Relation.TransGen (s.WaitsFor rank) c c := by
  obtain ⟨t, ht, hfits⟩ := h.fits hprogs
  have hdisc := ht.disciplined hprogs
  exact fun hcycle => hdisc.not_waits_cycle c
    (hcycle.lift id (fun _ _ hab => (hfits.waitsFor_iff hdisc).mp hab))

/-- In every state that is reached, a thread in a call waits at most, from holder
    to holder, for a thread in a call whose next word is not taken. -/
theorem SpinRuns.waits_end [Finite C] (hprogs : ∀ p, progs p → Above rank r p)
    (h : SpinRuns masks progs s) {c : C} (hc : s.Busy c) :
    ∃ d, Relation.ReflTransGen (s.WaitsFor rank) c d ∧ s.Busy d ∧ ∀ l, ¬ s.Blocked d l := by
  obtain ⟨t, ht, hfits⟩ := h.fits hprogs
  have hdisc := ht.disciplined hprogs
  obtain ⟨d, hcd, hfree⟩ := hdisc.waits_end c
  have hcd' := hcd.lift id (fun a b hab => (hfits.waitsFor_iff hdisc).mpr hab)
  refine ⟨d, hcd', ?_, ?_⟩
  · rcases Relation.ReflTransGen.cases_tail hcd' with rfl | ⟨e, -, hed⟩
    · exact hc
    · exact hed.busy
  · rintro l ⟨⟨k, hk⟩, hword⟩
    rw [hfits.cont] at hk
    exact hword (hfits.word_zero.mpr (hfree l ⟨k, hk⟩))

end Waits

end LockOrder
