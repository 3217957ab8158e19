/-! # Runs of a state machine

    A deterministic machine is a step function `σ → α → σ`; a run is the list
    of its actions.  `Along` says that each action meets a condition in the
    state in which it is taken, which is how the conditions of a whole run
    are stated.  A machine with interleaving is a step relation, and its
    reachable states are `Reachable`. -/

namespace Run

variable {σ α : Type}

/-- The state after a list of actions. -/
def exec (step : σ → α → σ) (s : σ) (as : List α) : σ :=
  as.foldl step s

/-- Nothing happens. -/
@[simp] theorem exec_nil (step : σ → α → σ) (s : σ) : exec step s [] = s := rfl

/-- The first action, and the others. -/
@[simp] theorem exec_cons (step : σ → α → σ) (s : σ) (a : α) (as : List α) :
    exec step s (a :: as) = exec step (step s a) as := rfl

/-- A run after a run. -/
theorem exec_append (step : σ → α → σ) (s : σ) (as bs : List α) :
    exec step s (as ++ bs) = exec step (exec step s as) bs :=
  List.foldl_append

/-- Every action meets `ok` in the state in which it is taken. -/
def Along (step : σ → α → σ) (ok : σ → α → Prop) : σ → List α → Prop
  | _, [] => True
  | s, a :: as => ok s a ∧ Along step ok (step s a) as

instance decidableAlong (step : σ → α → σ) (ok : σ → α → Prop)
    [∀ s a, Decidable (ok s a)] :
    ∀ (s : σ) (as : List α), Decidable (Along step ok s as)
  | _, [] => isTrue trivial
  | s, a :: as =>
      have : Decidable (Along step ok (step s a) as) :=
        decidableAlong step ok (step s a) as
      inferInstanceAs (Decidable (ok s a ∧ Along step ok (step s a) as))

variable {step : σ → α → σ} {ok ok' : σ → α → Prop}

/-- A condition along a run and along the next one. -/
theorem along_append {s : σ} {as bs : List α} :
    Along step ok s (as ++ bs)
      ↔ Along step ok s as ∧ Along step ok (exec step s as) bs := by
  induction as generalizing s with
  | nil => simp [Along]
  | cons a as ih =>
      show ok s a ∧ Along step ok (step s a) (as ++ bs) ↔ _
      rw [ih]
      exact and_assoc.symm

/-- A weaker condition. -/
theorem Along.mono (h : ∀ s a, ok s a → ok' s a) {s : σ} {as : List α}
    (hs : Along step ok s as) : Along step ok' s as := by
  induction as generalizing s with
  | nil => trivial
  | cons a as ih => exact ⟨h s a hs.1, ih hs.2⟩

/-- A condition that each action meets in every state. -/
theorem along_of_forall {s : σ} {as : List α} (h : ∀ a ∈ as, ∀ s, ok s a) :
    Along step ok s as := by
  induction as generalizing s with
  | nil => trivial
  | cons a as ih =>
      exact ⟨h a List.mem_cons_self s, ih (fun b hb => h b (List.mem_cons_of_mem a hb))⟩

/-- What every step preserves under the run's condition, the run
    preserves. -/
theorem invariant {I : σ → Prop}
    (hstep : ∀ s a, I s → ok s a → I (step s a))
    {s : σ} {as : List α} (h0 : I s) (h : Along step ok s as) :
    I (exec step s as) := by
  induction as generalizing s with
  | nil => exact h0
  | cons a as ih => exact ih (hstep s a h0 h.1) h.2

/-- What an invariant gives for each step, holds along the run. -/
theorem along_of_invariant {I : σ → Prop} (hok : ∀ s a, I s → ok s a → ok' s a)
    (hstep : ∀ s a, I s → ok s a → I (step s a))
    {s : σ} {as : List α} (h0 : I s) (h : Along step ok s as) : Along step ok' s as := by
  induction as generalizing s with
  | nil => trivial
  | cons a as ih => exact ⟨hok s a h0 h.1, ih (hstep s a h0 h.1) h.2⟩

/-- A property that no step can restore holds at every step of a run that
    ends with it. -/
theorem along_of_final {P : σ → Prop} (hback : ∀ s a, P (step s a) → P s)
    {s : σ} {as : List α} (h : P (exec step s as)) :
    P s ∧ Along step (fun s a => P (step s a)) s as := by
  induction as generalizing s with
  | nil => exact ⟨h, trivial⟩
  | cons a as ih =>
      obtain ⟨h1, h2⟩ := ih h
      exact ⟨hback s a h1, h1, h2⟩

/-- Two conditions along one run. -/
theorem Along.and {s : σ} {as : List α} (h : Along step ok s as)
    (h' : Along step ok' s as) :
    Along step (fun s a => ok s a ∧ ok' s a) s as := by
  induction as generalizing s with
  | nil => trivial
  | cons a as ih => exact ⟨⟨h.1, h'.1⟩, ih h.2 h'.2⟩

/-- A property holds in every state of a run. -/
def Throughout (step : σ → α → σ) (P : σ → Prop) : σ → List α → Prop
  | s, [] => P s
  | s, a :: as => P s ∧ Throughout step P (step s a) as

/-- The first state is one of the run. -/
theorem Throughout.head {P : σ → Prop} {s : σ} {as : List α} (h : Throughout step P s as) :
    P s := by
  cases as with
  | nil => exact h
  | cons a as => exact h.1

/-- So is the last one. -/
theorem exec_of_throughout {P : σ → Prop} {s : σ} {as : List α} (h : Throughout step P s as) :
    P (exec step s as) := by
  induction as generalizing s with
  | nil => exact h
  | cons a as ih => exact ih h.2

/-- What holds initially, is kept by every step under the run's condition, and
    gives the property. -/
theorem throughout_of_invariant {I P : σ → Prop} (hP : ∀ s, I s → P s)
    (hstep : ∀ s a, I s → ok s a → I (step s a)) {s : σ} {as : List α} (h0 : I s)
    (h : Along step ok s as) : Throughout step P s as := by
  induction as generalizing s with
  | nil => exact hP s h0
  | cons a as ih => exact ⟨hP s h0, ih (hstep s a h0 h.1) h.2⟩

/-- When `ok` is the exact condition on a step: under `pre` and an invariant,
    a step that meets it keeps the invariant, which gives the property, and a
    step that does not breaks the property at once. -/
theorem throughout_iff {pre : σ → α → Prop} {I P : σ → Prop} (hP : ∀ s, I s → P s)
    (hstep : ∀ s a, I s → pre s a → ok s a → I (step s a))
    (hbreak : ∀ s a, I s → pre s a → P (step s a) → ok s a)
    {s : σ} {as : List α} (h0 : I s) (hpre : Along step pre s as) :
    Throughout step P s as ↔ Along step ok s as := by
  induction as generalizing s with
  | nil => exact iff_of_true (hP s h0) trivial
  | cons a as ih =>
      constructor
      · rintro ⟨-, hrest⟩
        have hok := hbreak s a h0 hpre.1 hrest.head
        exact ⟨hok, (ih (hstep s a h0 hpre.1 hok) hpre.2).mp hrest⟩
      · rintro ⟨hok, hrest⟩
        exact ⟨hP s h0, (ih (hstep s a h0 hpre.1 hok) hpre.2).mpr hrest⟩

/-- Two conditions that agree on a step under `pre` and an invariant, which a
    step that meets them keeps, agree along a run. -/
theorem along_iff {pre : σ → α → Prop} {I : σ → Prop}
    (hiff : ∀ s a, I s → pre s a → (ok s a ↔ ok' s a))
    (hstep : ∀ s a, I s → pre s a → ok' s a → I (step s a))
    {s : σ} {as : List α} (h0 : I s) (hpre : Along step pre s as) :
    Along step ok s as ↔ Along step ok' s as := by
  induction as generalizing s with
  | nil => exact Iff.rfl
  | cons a as ih =>
      have hhead := hiff s a h0 hpre.1
      constructor
      · rintro ⟨hok, hrest⟩
        have hok' := hhead.mp hok
        exact ⟨hok', (ih (hstep s a h0 hpre.1 hok') hpre.2).mp hrest⟩
      · rintro ⟨hok', hrest⟩
        exact ⟨hhead.mpr hok', (ih (hstep s a h0 hpre.1 hok') hpre.2).mpr hrest⟩

/-- The states a step relation reaches from its initial states. -/
inductive Reachable (init : σ → Prop) (next : σ → σ → Prop) : σ → Prop where
  | start {s : σ} : init s → Reachable init next s
  | step {s t : σ} : Reachable init next s → next s t → Reachable init next t

/-- The invariant rule for a step relation. -/
theorem Reachable.invariant {init : σ → Prop} {next : σ → σ → Prop}
    {I : σ → Prop} (hinit : ∀ s, init s → I s)
    (hnext : ∀ s t, I s → next s t → I t)
    {s : σ} (h : Reachable init next s) : I s := by
  induction h with
  | start h0 => exact hinit _ h0
  | step _ hst ih => exact hnext _ _ ih hst

end Run
