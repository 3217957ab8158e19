import Mathlib.Logic.Relation
import Mathlib.Logic.Function.Basic
import Mathlib.Order.Lattice
import Pfi.Run

/-! # Lock order

    Threads run programs over a set of spin locks, interleaved at every step.
    What a program computes is left out: a branch is a `choice`, a loop may
    run any number of times.

    Let every lock have a rank.  A program that, started with locks of rank
    below `r`, acquires only locks above those it holds and ends with what it
    held is `Above rank r`.  When all programs are, a thread that waits for a
    lock holds only locks of smaller rank, so that following the threads
    from waiter to holder the rank grows and never comes back
    (`not_waits_cycle`). -/

namespace LockOrder

open Run

/-- The lock skeleton of a program. -/
inductive Prog (L : Type) where
  | skip
  | acquire (l : L)
  | release (l : L)
  | seq (p q : Prog L)
  | choice (p q : Prog L)
  | loop (p : Prog L)

instance {L : Type} : AndThen (Prog L) := ⟨fun p q => .seq p (q ())⟩

/-! ## The machine -/

/-- The holder of each lock, and what is left of each thread's program. -/
structure State (L C : Type) where
  held : L → Option C := fun _ => none
  cont : C → List (Prog L) := fun _ => []

section Machine

variable {L C : Type} [DecidableEq L] [DecidableEq C]

/-- Thread `c` goes on with `k`. -/
def State.goOn (s : State L C) (c : C) (k : List (Prog L)) : State L C :=
  { s with cont := Function.update s.cont c k }

/-- A step of one thread.  An idle thread starts any of the programs; a
    thread at a lock that is held does not move. -/
inductive Step (progs : Prog L → Prop) : State L C → State L C → Prop where
  | call {s : State L C} {c : C} {p : Prog L} :
      s.cont c = [] → progs p → Step progs s (s.goOn c [p])
  | skip {s : State L C} {c : C} {k : List (Prog L)} :
      s.cont c = .skip :: k → Step progs s (s.goOn c k)
  | acquire {s : State L C} {c : C} {l : L} {k : List (Prog L)} :
      s.cont c = .acquire l :: k → s.held l = none →
      Step progs s { s.goOn c k with held := Function.update s.held l (some c) }
  | release {s : State L C} {c : C} {l : L} {k : List (Prog L)} :
      s.cont c = .release l :: k →
      Step progs s { s.goOn c k with held := Function.update s.held l none }
  | seq {s : State L C} {c : C} {p q : Prog L} {k : List (Prog L)} :
      s.cont c = .seq p q :: k → Step progs s (s.goOn c (p :: q :: k))
  | left {s : State L C} {c : C} {p q : Prog L} {k : List (Prog L)} :
      s.cont c = .choice p q :: k → Step progs s (s.goOn c (p :: k))
  | right {s : State L C} {c : C} {p q : Prog L} {k : List (Prog L)} :
      s.cont c = .choice p q :: k → Step progs s (s.goOn c (q :: k))
  | again {s : State L C} {c : C} {p : Prog L} {k : List (Prog L)} :
      s.cont c = .loop p :: k → Step progs s (s.goOn c (p :: .loop p :: k))
  | leave {s : State L C} {c : C} {p : Prog L} {k : List (Prog L)} :
      s.cont c = .loop p :: k → Step progs s (s.goOn c k)

/-- Thread `c` is about to acquire `l`. -/
def State.Wants (s : State L C) (c : C) (l : L) : Prop :=
  ∃ k, s.cont c = .acquire l :: k

/-- Thread `c` waits for a lock that `d` holds. -/
def State.WaitsFor (s : State L C) (c d : C) : Prop :=
  ∃ l, s.Wants c l ∧ s.held l = some d

end Machine

/-! ## The order of acquisitions -/

section Order

variable {L R : Type} [LinearOrder R]

/-- `p` takes the locks `hs`, latest first, to `hs'`, and acquires each lock
    above all that are held. -/
inductive Ordered (rank : L → R) : List L → Prog L → List L → Prop where
  | skip {hs : List L} : Ordered rank hs .skip hs
  | acquire {l : L} {hs : List L} :
      (∀ m ∈ hs, rank m < rank l) → Ordered rank hs (.acquire l) (l :: hs)
  | release {l : L} {hs : List L} : Ordered rank (l :: hs) (.release l) hs
  | seq {p q : Prog L} {hs hm ht : List L} :
      Ordered rank hs p hm → Ordered rank hm q ht → Ordered rank hs (.seq p q) ht
  | choice {p q : Prog L} {hs ht : List L} :
      Ordered rank hs p ht → Ordered rank hs q ht → Ordered rank hs (.choice p q) ht
  | loop {p : Prog L} {hs : List L} :
      Ordered rank hs p hs → Ordered rank hs (.loop p) hs

/-- `p` keeps what is held and acquires only locks of rank `r` and above. -/
def Above (rank : L → R) (r : R) (p : Prog L) : Prop :=
  ∀ hs, (∀ m ∈ hs, rank m < r) → Ordered rank hs p hs

/-- `p` runs with `l` held, acquired last, and releases it. -/
def Exits (rank : L → R) (r : R) (l : L) (p : Prog L) : Prop :=
  ∀ hs, (∀ m ∈ hs, rank m < r) → Ordered rank (l :: hs) p hs

variable {rank : L → R} {r : R} {l : L} {p q : Prog L}

/-- Doing nothing takes no lock. -/
theorem Above.skip : Above rank r .skip :=
  fun _ _ => .skip

/-- One part after the other. -/
theorem Above.seq (hp : Above rank r p) (hq : Above rank r q) : Above rank r (p >> q) :=
  fun hs h => .seq (hp hs h) (hq hs h)

/-- One part or the other. -/
theorem Above.choice (hp : Above rank r p) (hq : Above rank r q) :
    Above rank r (.choice p q) :=
  fun hs h => .choice (hp hs h) (hq hs h)

/-- A part again and again. -/
theorem Above.loop (hp : Above rank r p) : Above rank r (.loop p) :=
  fun hs h => .loop (hp hs h)

/-- A lower bound is a weaker one. -/
theorem Above.mono {r' : R} (hp : Above rank r p) (hr : r' ≤ r) : Above rank r' p :=
  fun hs h => hp hs (fun m hm => lt_of_lt_of_le (h m hm) hr)

/-- A section that a lock of rank `r` or above guards. -/
theorem Exits.enter (hr : r ≤ rank l) (hp : Exits rank r l p) :
    Above rank r (.acquire l >> p) :=
  fun hs h => .seq (.acquire (fun m hm => lt_of_lt_of_le (h m hm) hr)) (hp hs h)

/-- The lock is released at once. -/
theorem Exits.release : Exits rank r l (.release l) :=
  fun _ _ => .release

/-- It is released on both branches. -/
theorem Exits.choice (hp : Exits rank r l p) (hq : Exits rank r l q) :
    Exits rank r l (.choice p q) :=
  fun hs h => .choice (hp hs h) (hq hs h)

/-- What runs after the release. -/
theorem Exits.andThen (hp : Exits rank r l p) (hq : Above rank r q) :
    Exits rank r l (p >> q) :=
  fun hs h => .seq (hp hs h) (hq hs h)

/-- What runs before the release is above the lock. -/
theorem Exits.under (hq : Exits rank r l q) (r' : R) (hr : r ≤ rank l) (hl : rank l < r')
    (hp : Above rank r' p) : Exits rank r l (p >> q) := by
  intro hs h
  refine .seq (hp (l :: hs) ?_) (hq hs h)
  intro m hm
  rcases List.mem_cons.mp hm with rfl | hm
  · exact hl
  · exact lt_trans (lt_of_lt_of_le (h m hm) hr) hl

/-- A lock held around `p`. -/
theorem Above.guarded (r' : R) (hr : r ≤ rank l) (hl : rank l < r') (hp : Above rank r' p) :
    Above rank r (.acquire l >> p >> .release l) :=
  (Exits.release.under r' hr hl hp).enter hr

/-- A lock held around what takes no lock. -/
theorem Above.bare (hr : r ≤ rank l) : Above rank r (.acquire l >> .release l) :=
  Exits.release.enter hr

end Order

/-! ## No thread waits in a cycle -/

section Invariant

variable {L C R : Type} [LinearOrder R] {rank : L → R}

/-- What is left of a program releases the locks `hs`, in order. -/
inductive Unwinds (rank : L → R) : List L → List (Prog L) → Prop where
  | nil : Unwinds rank [] []
  | cons {p : Prog L} {k : List (Prog L)} {hs ht : List L} :
      Ordered rank hs p ht → Unwinds rank ht k → Unwinds rank hs (p :: k)

/-- Thread `c` holds the locks `hs` and releases them in order. -/
structure Holds (rank : L → R) (s : State L C) (c : C) (hs : List L) : Prop where
  mem : ∀ l, s.held l = some c ↔ l ∈ hs
  nodup : hs.Nodup
  unwinds : Unwinds rank hs (s.cont c)

/-- Every thread holds some locks in order. -/
def Disciplined (rank : L → R) (s : State L C) : Prop :=
  ∀ c, ∃ hs, Holds rank s c hs

/-- At the start no lock is held. -/
theorem disciplined_init : Disciplined rank ({} : State L C) := by
  intro c
  refine ⟨[], ?_, List.nodup_nil, .nil⟩
  intro l
  constructor
  · intro h
    cases h
  · intro h
    cases h

variable [DecidableEq C] {s : State L C}

/-- A step that changes only the program of `c`. -/
theorem Disciplined.goOn (h : Disciplined rank s) {c : C} {k : List (Prog L)}
    (hk : ∀ hs, Unwinds rank hs (s.cont c) → Unwinds rank hs k) :
    Disciplined rank (s.goOn c k) := by
  intro d
  obtain ⟨hs, hd⟩ := h d
  refine ⟨hs, hd.mem, hd.nodup, ?_⟩
  by_cases hdc : d = c
  · subst hdc
    show Unwinds rank hs (Function.update s.cont d k d)
    rw [Function.update_self]
    exact hk hs hd.unwinds
  · show Unwinds rank hs (Function.update s.cont c k d)
    rw [Function.update_of_ne hdc]
    exact hd.unwinds

/-- A thread goes on with what is left of its first program. -/
theorem Disciplined.expand (h : Disciplined rank s) {c : C} {p : Prog L} {j k : List (Prog L)}
    (hc : s.cont c = p :: k)
    (hj : ∀ {hs ht}, Ordered rank hs p ht → Unwinds rank ht k → Unwinds rank hs j) :
    Disciplined rank (s.goOn c j) := by
  refine h.goOn ?_
  intro hs hun
  rw [hc] at hun
  rcases hun with _ | ⟨hp, hk⟩
  exact hj hp hk

variable [DecidableEq L]

/-- A thread other than the one that acquires or releases `l` holds what it
    held. -/
theorem Holds.other {c d : C} {hs : List L} (h : Holds rank s d hs) (hdc : d ≠ c)
    {k : List (Prog L)} {l : L} {v : Option C} (hl : s.held l ≠ some d) (hv : v ≠ some d) :
    Holds rank { s.goOn c k with held := Function.update s.held l v } d hs where
  mem := by
    intro m
    dsimp only
    by_cases hm : m = l
    · subst hm
      rw [Function.update_self]
      exact iff_of_false hv (fun hmem => hl ((h.mem m).mpr hmem))
    · rw [Function.update_of_ne hm]
      exact h.mem m
  nodup := h.nodup
  unwinds := by
    show Unwinds rank hs (Function.update s.cont c k d)
    rw [Function.update_of_ne hdc]
    exact h.unwinds

/-- A thread takes a lock above those that it holds. -/
theorem Disciplined.acquire (h : Disciplined rank s) {c : C} {l : L} {k : List (Prog L)}
    (hc : s.cont c = .acquire l :: k) (hfree : s.held l = none) :
    Disciplined rank { s.goOn c k with held := Function.update s.held l (some c) } := by
  intro d
  obtain ⟨hs, hd⟩ := h d
  by_cases hdc : d = c
  · subst hdc
    have hun := hd.unwinds
    rw [hc] at hun
    rcases hun with _ | ⟨⟨⟩, hk⟩
    refine ⟨l :: hs, ?_, ?_, ?_⟩
    · intro m
      dsimp only
      by_cases hm : m = l
      · subst hm
        rw [Function.update_self]
        exact iff_of_true rfl List.mem_cons_self
      · rw [Function.update_of_ne hm, List.mem_cons]
        exact (hd.mem m).trans (or_iff_right hm).symm
    · refine List.nodup_cons.mpr ⟨?_, hd.nodup⟩
      intro hmem
      have hheld := (hd.mem l).mpr hmem
      rw [hfree] at hheld
      cases hheld
    · show Unwinds rank (l :: hs) (Function.update s.cont d k d)
      rw [Function.update_self]
      exact hk
  · refine ⟨hs, hd.other hdc ?_ ?_⟩
    · rw [hfree]
      exact fun hc => by cases hc
    · exact fun hc => hdc (Option.some.inj hc).symm

/-- A thread gives back the lock that it took last. -/
theorem Disciplined.release (h : Disciplined rank s) {c : C} {l : L} {k : List (Prog L)}
    (hc : s.cont c = .release l :: k) :
    Disciplined rank { s.goOn c k with held := Function.update s.held l none } := by
  -- `c` holds `l`, and nobody else does
  obtain ⟨hs, hd⟩ := h c
  have hun := hd.unwinds
  rw [hc] at hun
  rcases hun with _ | ⟨⟨⟩, hk⟩
  rename_i hs
  have hheld : s.held l = some c := (hd.mem l).mpr List.mem_cons_self
  obtain ⟨hout, hnodup⟩ := List.nodup_cons.mp hd.nodup
  intro d
  by_cases hdc : d = c
  · subst hdc
    refine ⟨hs, ?_, hnodup, ?_⟩
    · intro m
      dsimp only
      by_cases hm : m = l
      · subst hm
        rw [Function.update_self]
        exact iff_of_false (fun hc => by cases hc) hout
      · rw [Function.update_of_ne hm]
        refine (hd.mem m).trans ?_
        rw [List.mem_cons]
        exact or_iff_right hm
    · show Unwinds rank hs (Function.update s.cont d k d)
      rw [Function.update_self]
      exact hk
  · obtain ⟨ht, hd'⟩ := h d
    refine ⟨ht, hd'.other hdc ?_ (fun hc => by cases hc)⟩
    rw [hheld]
    exact fun hc => hdc (Option.some.inj hc).symm

/-- Every step keeps the discipline, when all programs do. -/
theorem Disciplined.step {progs : Prog L → Prop} {r : R}
    (hprogs : ∀ p, progs p → Above rank r p) {s t : State L C} (h : Disciplined rank s)
    (hstep : Step progs s t) : Disciplined rank t := by
  cases hstep with
  | call hc hp =>
      refine h.goOn ?_
      intro hs hun
      rw [hc] at hun
      cases hun
      exact .cons (hprogs _ hp [] (fun m hm => by cases hm)) .nil
  | skip hc =>
      refine h.expand hc ?_
      intro hs ht hp hk
      cases hp with
      | skip => exact hk
  | acquire hc hfree => exact h.acquire hc hfree
  | release hc => exact h.release hc
  | seq hc =>
      refine h.expand hc ?_
      intro hs ht hp hk
      cases hp with
      | seq hp hq => exact .cons hp (.cons hq hk)
  | left hc =>
      refine h.expand hc ?_
      intro hs ht hp hk
      cases hp with
      | choice hp hq => exact .cons hp hk
  | right hc =>
      refine h.expand hc ?_
      intro hs ht hp hk
      cases hp with
      | choice hp hq => exact .cons hq hk
  | again hc =>
      refine h.expand hc ?_
      intro hs ht hp hk
      cases hp with
      | loop hp => exact .cons hp (.cons (.loop hp) hk)
  | leave hc =>
      refine h.expand hc ?_
      intro hs ht hp hk
      cases hp with
      | loop hp => exact hk

end Invariant

section Deadlock

variable {L C R : Type} [LinearOrder R] {rank : L → R} {s : State L C}

/-- What a thread holds while it waits is below what it waits for. -/
theorem Disciplined.held_lt (h : Disciplined rank s) {c : C} {l m : L} (hl : s.Wants c l)
    (hm : s.held m = some c) : rank m < rank l := by
  obtain ⟨hs, hc⟩ := h c
  obtain ⟨k, hk⟩ := hl
  have hun := hc.unwinds
  rw [hk] at hun
  rcases hun with _ | ⟨hp, -⟩
  cases hp with
  | acquire hlt => exact hlt m ((hc.mem m).mp hm)

/-- From waiter to holder the rank grows. -/
theorem Disciplined.rank_le (h : Disciplined rank s) {c d : C} {l : L} (hl : s.Wants c l)
    (hcd : Relation.TransGen s.WaitsFor c d) : ∃ m, s.held m = some d ∧ rank l ≤ rank m := by
  induction hcd with
  | single hw =>
      obtain ⟨l', ⟨k', hk'⟩, hheld⟩ := hw
      obtain ⟨k, hk⟩ := hl
      rw [hk] at hk'
      cases hk'
      exact ⟨l, hheld, le_refl _⟩
  | tail _ hw ih =>
      obtain ⟨m, hm, hle⟩ := ih
      obtain ⟨l', hl', hheld⟩ := hw
      exact ⟨l', hheld, le_trans hle (le_of_lt (h.held_lt hl' hm))⟩

/-- In a disciplined state no threads wait in a cycle. -/
theorem Disciplined.not_waits_cycle (h : Disciplined rank s) (c : C) :
    ¬ Relation.TransGen s.WaitsFor c c := by
  intro hcycle
  obtain ⟨d, ⟨l, hl, -⟩, -⟩ := Relation.TransGen.head'_iff.mp hcycle
  obtain ⟨m, hm, hle⟩ := h.rank_le hl hcycle
  exact absurd (h.held_lt hl hm) (not_lt_of_ge hle)

variable [DecidableEq L] [DecidableEq C]

/-- The states that any interleaving of the programs reaches from the one in
    which nothing is held. -/
abbrev Runs (progs : Prog L → Prop) (s : State L C) : Prop :=
  Reachable (fun s => s = {}) (Step progs) s

/-- Every state of a run is disciplined. -/
theorem Runs.disciplined {progs : Prog L → Prop} {r : R}
    (hprogs : ∀ p, progs p → Above rank r p) (h : Runs progs s) : Disciplined rank s := by
  refine Reachable.invariant ?_ ?_ h
  · rintro s rfl
    exact disciplined_init
  · intro s t hs hstep
    exact hs.step hprogs hstep

end Deadlock

end LockOrder
