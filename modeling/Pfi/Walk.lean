import Mathlib.Logic.Function.Iterate
import Mathlib.Data.List.Nodup

/-! # Walks along a chain

    A loop that goes from a position to the next one as long as there is more,
    such as a walk along a linked list or along records that give their own
    length.  The loop is bounded by fuel; it ends exactly when the chain does,
    and then it has visited the positions of the chain in order
    (`visits_eq_some`) and stands at its end (`stop_eq_some`). -/

namespace Walk

variable {α : Type*} (more : α → Prop) [DecidablePred more] (next : α → α)

/-- The positions that the loop visits from `p` on. -/
def visits : Nat → α → Option (List α)
  | 0, p => if more p then none else some []
  | fuel + 1, p => if more p then (visits fuel (next p)).map (p :: ·) else some []

/-- The position at which the loop stops. -/
def stop : Nat → α → Option α
  | 0, p => if more p then none else some p
  | fuel + 1, p => if more p then stop fuel (next p) else some p

/-- The chain from `p` ends after `n` positions. -/
structure EndsAfter (p : α) (n : Nat) : Prop where
  before : ∀ k, k < n → more (next^[k] p)
  ends : ¬ more (next^[n] p)

/-- The first `n` positions of the chain from `p`. -/
def positions (p : α) (n : Nat) : List α := (List.range n).map (fun k => next^[k] p)

variable {more next} {p : α} {n : Nat}

theorem mem_positions {q : α} : q ∈ positions next p n ↔ ∃ k, k < n ∧ next^[k] p = q := by
  unfold positions
  rw [List.mem_map]
  simp only [List.mem_range]

theorem positions_succ (p : α) (n : Nat) :
    positions next p (n + 1) = p :: positions next (next p) n := by
  unfold positions
  rw [List.range_succ_eq_map, List.map_cons, List.map_map]
  rfl

omit [DecidablePred more] in
theorem endsAfter_zero : EndsAfter more next p 0 ↔ ¬ more p := by
  constructor
  · exact fun h => h.ends
  · exact fun h => ⟨fun k hk => absurd hk (Nat.not_lt_zero k), h⟩

omit [DecidablePred more] in
theorem endsAfter_succ :
    EndsAfter more next p (n + 1) ↔ more p ∧ EndsAfter more next (next p) n := by
  constructor
  · rintro ⟨hbefore, hends⟩
    exact ⟨hbefore 0 (Nat.succ_pos n), fun k hk => hbefore (k + 1) (Nat.succ_lt_succ hk), hends⟩
  · rintro ⟨hmore, hbefore, hends⟩
    refine ⟨?_, hends⟩
    intro k hk
    cases k with
    | zero => exact hmore
    | succ k => exact hbefore k (Nat.lt_of_succ_lt_succ hk)

omit [DecidablePred more] in
/-- A chain has one end. -/
theorem EndsAfter.unique {n' : Nat} (h : EndsAfter more next p n)
    (h' : EndsAfter more next p n') : n = n' := by
  rcases Nat.lt_trichotomy n n' with hlt | heq | hlt
  · exact absurd (h'.before n hlt) h.ends
  · exact heq
  · exact absurd (h.before n' hlt) h'.ends

/-- The loop ends if and only if the chain does, within the fuel. -/
theorem visits_eq_some {fuel : Nat} {ps : List α} :
    visits more next fuel p = some ps ↔
      ∃ n, n ≤ fuel ∧ EndsAfter more next p n ∧ ps = positions next p n := by
  induction fuel generalizing p ps with
  | zero =>
      unfold visits
      by_cases hp : more p
      · rw [if_pos hp]
        refine iff_of_false (fun h => by cases h) ?_
        rintro ⟨n, hn, h, -⟩
        rw [Nat.le_zero.mp hn, endsAfter_zero] at h
        exact h hp
      · rw [if_neg hp]
        constructor
        · rintro ⟨⟩
          exact ⟨0, Nat.le_refl 0, endsAfter_zero.mpr hp, rfl⟩
        · rintro ⟨n, hn, -, rfl⟩
          rw [Nat.le_zero.mp hn]
          rfl
  | succ fuel ih =>
      unfold visits
      by_cases hp : more p
      · rw [if_pos hp, Option.map_eq_some_iff]
        constructor
        · rintro ⟨qs, hqs, rfl⟩
          obtain ⟨n, hn, h, rfl⟩ := ih.mp hqs
          exact ⟨n + 1, Nat.succ_le_succ hn, endsAfter_succ.mpr ⟨hp, h⟩, (positions_succ p n).symm⟩
        · rintro ⟨n, hn, h, rfl⟩
          cases n with
          | zero => exact absurd hp (endsAfter_zero.mp h)
          | succ n =>
              exact ⟨_, ih.mpr ⟨n, Nat.le_of_succ_le_succ hn, (endsAfter_succ.mp h).2, rfl⟩,
                (positions_succ p n).symm⟩
      · rw [if_neg hp]
        constructor
        · rintro ⟨⟩
          exact ⟨0, Nat.zero_le _, endsAfter_zero.mpr hp, rfl⟩
        · rintro ⟨n, -, h, rfl⟩
          rw [h.unique (endsAfter_zero.mpr hp)]
          rfl

/-- A chain that has an end is walked to it. -/
theorem EndsAfter.visits (h : EndsAfter more next p n) :
    visits more next n p = some (positions next p n) :=
  visits_eq_some.mpr ⟨n, Nat.le_refl n, h, rfl⟩

/-- The loop stops at the end of the chain, if the fuel reaches it. -/
theorem stop_eq_some {fuel : Nat} {q : α} :
    stop more next fuel p = some q ↔
      ∃ n, n ≤ fuel ∧ EndsAfter more next p n ∧ q = next^[n] p := by
  induction fuel generalizing p with
  | zero =>
      unfold stop
      by_cases hp : more p
      · rw [if_pos hp]
        refine iff_of_false (fun h => by cases h) ?_
        rintro ⟨n, hn, h, -⟩
        rw [Nat.le_zero.mp hn, endsAfter_zero] at h
        exact h hp
      · rw [if_neg hp]
        constructor
        · rintro ⟨⟩
          exact ⟨0, Nat.le_refl 0, endsAfter_zero.mpr hp, rfl⟩
        · rintro ⟨n, hn, -, rfl⟩
          rw [Nat.le_zero.mp hn]
          rfl
  | succ fuel ih =>
      unfold stop
      by_cases hp : more p
      · rw [if_pos hp, ih]
        constructor
        · rintro ⟨n, hn, h, rfl⟩
          exact ⟨n + 1, Nat.succ_le_succ hn, endsAfter_succ.mpr ⟨hp, h⟩, rfl⟩
        · rintro ⟨n, hn, h, rfl⟩
          cases n with
          | zero => exact absurd hp (endsAfter_zero.mp h)
          | succ n => exact ⟨n, Nat.le_of_succ_le_succ hn, (endsAfter_succ.mp h).2, rfl⟩
      · rw [if_neg hp]
        constructor
        · rintro ⟨⟩
          exact ⟨0, Nat.zero_le _, endsAfter_zero.mpr hp, rfl⟩
        · rintro ⟨n, -, h, rfl⟩
          rw [h.unique (endsAfter_zero.mpr hp)]
          rfl

omit [DecidablePred more] in
/-- A chain that ends comes to no position twice. -/
theorem EndsAfter.nodup (h : EndsAfter more next p n) : (positions next p n).Nodup := by
  have hapart : ∀ i j, i < j → j < n → next^[i] p ≠ next^[j] p := by
    intro i j hij hj heq
    -- from both places the rest of the chain is the same, and only one of them ends
    refine h.ends ?_
    have hrest : next^[n] p = next^[n - j + i] p := by
      rw [show n = n - j + j by omega, Function.iterate_add_apply, ← heq,
        ← Function.iterate_add_apply, show n - j + j - j + i = n - j + i by omega]
    rw [hrest]
    exact h.before _ (by omega)
  refine List.Nodup.map_on ?_ List.nodup_range
  intro i hi j hj heq
  have hi := List.mem_range.mp hi
  have hj := List.mem_range.mp hj
  rcases Nat.lt_trichotomy i j with hlt | heq' | hlt
  · exact absurd heq (hapart i j hlt hj)
  · exact heq'
  · exact absurd heq.symm (hapart j i hlt hi)

omit [DecidablePred more] in
/-- A chain that comes back to where it was has no end. -/
theorem not_endsAfter_of_fixed (hp : more p) (hfixed : next p = p) :
    ¬ EndsAfter more next p n := by
  intro h
  have hends := h.ends
  rw [Function.iterate_fixed hfixed] at hends
  exact hends hp

end Walk
