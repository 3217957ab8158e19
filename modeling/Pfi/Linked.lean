import Mathlib.Logic.Function.Basic
import Mathlib.Data.List.Nodup

/-! # Linked lists in memory, and tokens in one place

    Two notions for queues that a program keeps as chains of nodes.

    * `Linked next head l`: from `head` along `next` one meets the elements of
      `l`, in their order, and then the end.  A push, a pop, a splice
      and a change of `next` off the chain have one rule each.
    * `Placed here exist`: every token that exists is in exactly one place,
      where `here pl t` says that token `t` is in place `pl`.  A step that
      moves one token, or makes a new one, keeps it. -/

namespace Links

section Chain

variable {α : Type} {next : α → Option α}

/-- The chain from `head` along `next` is the list. -/
def Linked (next : α → Option α) : Option α → List α → Prop
  | none, [] => True
  | some a, b :: l => a = b ∧ Linked next (next a) l
  | none, _ :: _ => False
  | some _, [] => False

theorem linked_nil : Linked next none [] := trivial

theorem linked_cons {head : Option α} {a : α} {l : List α} :
    Linked next head (a :: l) ↔ head = some a ∧ Linked next (next a) l := by
  cases head with
  | none => exact iff_of_false id (fun h => by cases h.1)
  | some b =>
      constructor
      · rintro ⟨rfl, h⟩
        exact ⟨rfl, h⟩
      · rintro ⟨hb, h⟩
        cases hb
        exact ⟨rfl, h⟩

/-- A chain is empty exactly when its head is null. -/
theorem linked_head_none {head : Option α} {l : List α} (h : Linked next head l) :
    head = none ↔ l = [] := by
  cases head with
  | none =>
      cases l with
      | nil => exact iff_of_true rfl rfl
      | cons b l => exact absurd h id
  | some a =>
      cases l with
      | nil => exact absurd h id
      | cons b l => exact iff_of_false (fun hc => nomatch hc) (fun hc => nomatch hc)

/-- The head of a nonempty chain, and the chain behind it. -/
theorem linked_pop {a : α} {l : List α} (h : Linked next (some a) l) :
    ∃ l', l = a :: l' ∧ Linked next (next a) l' := by
  cases l with
  | nil => exact absurd h id
  | cons b l => exact ⟨l, by rw [h.1], h.2⟩

/-- One chain is one list. -/
theorem linked_unique {head : Option α} {l l' : List α} (h : Linked next head l)
    (h' : Linked next head l') : l = l' := by
  induction l generalizing head l' with
  | nil =>
      have hnone := (linked_head_none h).mpr rfl
      exact ((linked_head_none h').mp hnone).symm
  | cons b l ih =>
      cases head with
      | none => exact absurd h id
      | some a =>
          obtain ⟨l₁, hl₁, hrest⟩ := linked_pop h'
          have hb : a = b := h.1
          rw [hl₁, hb, ih h.2 hrest]

/-- What is behind a node of a chain is the chain from it. -/
theorem linked_suffix {head : Option α} {pre post : List α} {a : α}
    (h : Linked next head (pre ++ a :: post)) : Linked next (some a) (a :: post) := by
  induction pre generalizing head with
  | nil =>
      obtain ⟨-, hlink⟩ := linked_cons.mp h
      exact ⟨rfl, hlink⟩
  | cons c pre ih => exact ih (linked_cons.mp h).2

/-- A chain comes to no node twice: the rest of it would be the chain again. -/
theorem linked_nodup {head : Option α} {l : List α} (h : Linked next head l) : l.Nodup := by
  induction l generalizing head with
  | nil => exact List.nodup_nil
  | cons a l ih =>
      obtain ⟨-, hlink⟩ := linked_cons.mp h
      refine List.nodup_cons.mpr ⟨fun ha => ?_, ih hlink⟩
      obtain ⟨pre, post, rfl⟩ := List.append_of_mem ha
      have hagain : Linked next (some a) (a :: (pre ++ a :: post)) := ⟨rfl, hlink⟩
      have hsame := congrArg List.length (linked_unique hagain (linked_suffix hlink))
      simp only [List.length_cons, List.length_append] at hsame
      omega

/-- The chain depends on its own nodes only. -/
theorem linked_congr {next' : α → Option α} {head : Option α} {l : List α}
    (hsame : ∀ a ∈ l, next' a = next a) : Linked next' head l ↔ Linked next head l := by
  induction l generalizing head with
  | nil =>
      cases head with
      | none => exact Iff.rfl
      | some a => exact Iff.rfl
  | cons a l ih =>
      rw [linked_cons, linked_cons, hsame a List.mem_cons_self,
        ih (fun b hb => hsame b (List.mem_cons_of_mem a hb))]

variable [DecidableEq α]

/-- A store outside the chain leaves it alone. -/
theorem linked_update {head : Option α} {l : List α} (h : Linked next head l) {a : α}
    (ha : a ∉ l) (x : Option α) : Linked (Function.update next a x) head l := by
  induction l generalizing head with
  | nil =>
      rw [(linked_head_none h).mpr rfl]
      exact trivial
  | cons b l ih =>
      cases head with
      | none => exact absurd h id
      | some c =>
          have hcb : c = b := h.1
          have hca : c ≠ a := by
            intro hc
            exact ha (by rw [← hc, hcb]; exact List.mem_cons_self)
          refine ⟨hcb, ?_⟩
          rw [Function.update_of_ne hca]
          exact ih h.2 (fun hmem => ha (List.mem_cons_of_mem b hmem))

/-- Pushing a node in front. -/
theorem linked_push {head : Option α} {l : List α} (h : Linked next head l) {a : α}
    (ha : a ∉ l) : Linked (Function.update next a head) (some a) (a :: l) := by
  refine ⟨rfl, ?_⟩
  rw [Function.update_self]
  exact linked_update h ha head

/-- A store at a node of the chain replaces what follows the node. -/
theorem linked_splice {head x : Option α} {pre post rest : List α} {a : α}
    (h : Linked next head (pre ++ a :: post)) (ha : a ∉ pre)
    (hrest : Linked (Function.update next a x) x rest) :
    Linked (Function.update next a x) head (pre ++ a :: rest) := by
  induction pre generalizing head with
  | nil =>
      cases head with
      | none => exact absurd h id
      | some b =>
          obtain ⟨rfl, -⟩ := h
          refine ⟨rfl, ?_⟩
          rw [Function.update_self]
          exact hrest
  | cons c pre ih =>
      cases head with
      | none => exact absurd h id
      | some b =>
          obtain ⟨rfl, hlink⟩ := h
          have hne : b ≠ a := fun hc => ha (by rw [hc]; exact List.mem_cons_self)
          refine ⟨rfl, ?_⟩
          rw [Function.update_of_ne hne]
          exact ih hlink (fun hmem => ha (List.mem_cons_of_mem b hmem))

/-- The last node of the chain from `head`, in at most `fuel` moves. -/
def lastFrom (next : α → Option α) : (fuel : Nat) → (head : Option α) → Option α
  | _, none => none
  | 0, some a => some a
  | fuel + 1, some a => if next a = none then some a else lastFrom next fuel (next a)

omit [DecidableEq α] in
/-- The scan finds the last node when the chain is not longer than it may
    move. -/
theorem lastFrom_linked {head : Option α} {l : List α} {fuel : Nat}
    (h : Linked next head l) (hlen : l.length ≤ fuel) :
    lastFrom next fuel head = l.getLast? := by
  induction l generalizing head fuel with
  | nil =>
      rw [(linked_head_none h).mpr rfl]
      cases fuel <;> rfl
  | cons b l ih =>
      cases head with
      | none => exact absurd h id
      | some a =>
          obtain ⟨rfl, hlink⟩ := h
          cases fuel with
          | zero => exact absurd hlen (Nat.not_succ_le_zero _)
          | succ fuel =>
              simp only [lastFrom]
              by_cases hend : next a = none
              · rw [if_pos hend]
                rw [hend] at hlink
                rw [(linked_head_none hlink).mp rfl]
                rfl
              · rw [if_neg hend, ih hlink (Nat.le_of_succ_le_succ hlen)]
                cases l with
                | nil => exact absurd ((linked_head_none hlink).mpr rfl) hend
                | cons c l => exact List.getLast?_cons_cons.symm

end Chain

section Places

variable {P T : Type}

/-- Every token that exists is in exactly one place, and nothing else is in a
    place. -/
def Placed (here : P → T → Prop) (exist : T → Prop) : Prop :=
  ∃ place : T → P, ∀ pl t, here pl t ↔ exist t ∧ place t = pl

variable {here here' : P → T → Prop} {exist exist' : T → Prop}

theorem Placed.existsUnique (h : Placed here exist) {t : T} (ht : exist t) :
    ∃! pl, here pl t := by
  obtain ⟨place, hplace⟩ := h
  exact ⟨place t, (hplace _ t).mpr ⟨ht, rfl⟩, fun pl hpl => ((hplace pl t).mp hpl).2.symm⟩

theorem Placed.exists (h : Placed here exist) {t : T} {pl : P} (ht : here pl t) : exist t := by
  obtain ⟨place, hplace⟩ := h
  exact ((hplace pl t).mp ht).1

theorem Placed.same (h : Placed here exist) {t : T} (pl pl' : P) (ht : here pl t)
    (ht' : here pl' t) : pl = pl' := by
  obtain ⟨place, hplace⟩ := h
  rw [← ((hplace pl t).mp ht).2, ← ((hplace pl' t).mp ht').2]

/-- A step that moves nothing. -/
theorem Placed.congr (h : Placed here exist) (hhere : ∀ pl t, here' pl t ↔ here pl t)
    (hexist : ∀ t, exist' t ↔ exist t) : Placed here' exist' := by
  obtain ⟨place, hplace⟩ := h
  refine ⟨place, fun pl t => ?_⟩
  rw [hhere, hplace, hexist]

variable [DecidableEq T]

/-- A step after which token `t₀`, old or new, is in place `pl₀`, and no other
    token has moved. -/
theorem Placed.put (h : Placed here exist) (t₀ : T) (pl₀ : P)
    (hself : ∀ pl, here' pl t₀ ↔ pl = pl₀)
    (hother : ∀ pl t, t ≠ t₀ → (here' pl t ↔ here pl t))
    (hexist : ∀ t, exist' t ↔ t = t₀ ∨ exist t) : Placed here' exist' := by
  obtain ⟨place, hplace⟩ := h
  refine ⟨Function.update place t₀ pl₀, fun pl t => ?_⟩
  by_cases ht : t = t₀
  · rw [ht, hself, hexist, Function.update_self]
    constructor
    · intro hpl
      exact ⟨Or.inl rfl, hpl.symm⟩
    · intro hpl
      exact hpl.2.symm
  · rw [hother pl t ht, hplace, hexist, Function.update_of_ne ht]
    constructor
    · intro hpl
      exact ⟨Or.inr hpl.1, hpl.2⟩
    · intro hpl
      exact ⟨hpl.1.resolve_left ht, hpl.2⟩

end Places

end Links
