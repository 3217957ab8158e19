import Mathlib.Data.Nat.Find

/-! # First fit

    Places are numbered, and some of them are free.  A scan walks over a range
    of places and counts the free ones in a row; it stops at the first run that
    is long enough.  `scan_eq_some` says that this is the first run of the
    range that fits, and that the scan fails only if none does. -/

namespace FirstFit

/-- The `n` places from `s` on are free. -/
def RunAt (free : Nat → Prop) (s n : Nat) : Prop := ∀ j, j < n → free (s + j)

/-- The `n` places from `s` on are free and lie in `lo .. hi - 1`. -/
structure Fits (free : Nat → Prop) (lo hi n s : Nat) : Prop where
  lower : lo ≤ s
  upper : s + n ≤ hi
  run : RunAt free s n

/-- No run before `s` fits. -/
structure First (free : Nat → Prop) (lo hi n s : Nat) : Prop where
  fits : Fits free lo hi n s
  least : ∀ s', Fits free lo hi n s' → s ≤ s'

section Runs

variable {free : Nat → Prop} {lo hi n s s' : Nat}

theorem First.unique (h : First free lo hi n s) (h' : First free lo hi n s') : s = s' :=
  Nat.le_antisymm (h.least s' h'.fits) (h'.least s h.fits)

theorem exists_first (h : ∃ s, Fits free lo hi n s) : ∃ s, First free lo hi n s := by
  classical
  exact ⟨Nat.find h, Nat.find_spec h, fun s' hs' => Nat.find_min' h hs'⟩

/-- A place that is taken breaks every run over it. -/
theorem RunAt.not_over {p : Nat} (h : RunAt free s n) (hp : ¬ free p) : p < s ∨ s + n ≤ p := by
  by_contra hc
  refine hp ?_
  have hfree := h (p - s) (by omega)
  rw [show s + (p - s) = p by omega] at hfree
  exact hfree

/-- A run goes on with the next free page. -/
theorem RunAt.snoc (h : RunAt free s n) (hp : free (s + n)) : RunAt free s (n + 1) := by
  intro j hj
  rcases Nat.lt_succ_iff_lt_or_eq.mp hj with hlt | rfl
  · exact h j hlt
  · exact hp

end Runs

section Scan

variable (free : Nat → Prop) [DecidablePred free] (need : Nat)

/-- The scan over the `n` places from `p` on, with the run of free places that
    ends just below `p`. -/
def scan : (n p runStart runLen : Nat) → Option Nat
  | 0, _, _, _ => none
  | n + 1, p, runStart, runLen =>
      if free p then
        let runStart' := if runLen = 0 then p else runStart
        if need ≤ runLen + 1 then some runStart'
        else scan n (p + 1) runStart' (runLen + 1)
      else scan n (p + 1) runStart 0

variable {free need}

/-- A scan that has found nothing from `lo` on, and stands behind a run that
    is too short, finds the first run that fits. -/
theorem scan_from {lo n p runStart runLen s : Nat} (hlt : runLen < need)
    (hlo : lo + runLen ≤ p) (hstart : 0 < runLen → runStart + runLen = p)
    (hrun : RunAt free (p - runLen) runLen)
    (hnone : ∀ s, lo ≤ s → s < p - runLen → ¬ RunAt free s need) :
    scan free need n p runStart runLen = some s ↔ First free lo (p + n) need s := by
  induction n generalizing p runStart runLen with
  | zero =>
      refine iff_of_false (fun h => by cases h) (fun h => ?_)
      have hupper := h.fits.upper
      exact hnone s h.fits.lower (by omega) h.fits.run
  | succ n ih =>
      unfold scan
      by_cases hp : free p
      · rw [if_pos hp]
        -- the free place extends the run, or starts one
        have hstart' : (if runLen = 0 then p else runStart) = p - runLen := by
          by_cases h0 : runLen = 0
          · rw [if_pos h0]
            omega
          · rw [if_neg h0]
            have := hstart (Nat.pos_of_ne_zero h0)
            omega
        have hrun' : RunAt free (p - runLen) (runLen + 1) :=
          hrun.snoc (by rw [show p - runLen + runLen = p by omega]; exact hp)
        dsimp only
        rw [hstart']
        by_cases hdone : need ≤ runLen + 1
        · rw [if_pos hdone, Option.some.injEq]
          have hfirst : First free lo (p + (n + 1)) need (p - runLen) := by
            refine ⟨⟨by omega, by omega, fun j hj => hrun' j (by omega)⟩, ?_⟩
            intro s' hs'
            by_contra hc
            exact hnone s' hs'.lower (by omega) hs'.run
          constructor
          · rintro rfl
            exact hfirst
          · exact fun h => hfirst.unique h
        · rw [if_neg hdone, show p + (n + 1) = p + 1 + n by omega]
          have hsub : p + 1 - (runLen + 1) = p - runLen := by omega
          refine ih (by omega) (by omega) (fun _ => by omega) ?_ ?_
          · rw [hsub]
            exact hrun'
          · rw [hsub]
            exact hnone
      · rw [if_neg hp, show p + (n + 1) = p + 1 + n by omega]
        refine ih (by omega) (by omega) (fun h => absurd h (Nat.lt_irrefl 0))
          (fun j hj => absurd hj (Nat.not_lt_zero j)) ?_
        intro s hs hsp hc
        by_cases hbefore : s < p - runLen
        · exact hnone s hs hbefore hc
        · rcases hc.not_over hp with hpast | hpast
          · omega
          · omega

/-- The scan of a range finds its first run that fits. -/
theorem scan_eq_some {n p runStart s : Nat} (hneed : 0 < need) :
    scan free need n p runStart 0 = some s ↔ First free p (p + n) need s :=
  scan_from hneed (Nat.le_refl p) (fun h => absurd h (Nat.lt_irrefl 0))
    (fun j hj => absurd hj (Nat.not_lt_zero j)) (fun s hs hsp => by omega)

/-- The scan fails if and only if no run fits. -/
theorem scan_eq_none {n p runStart : Nat} (hneed : 0 < need) :
    scan free need n p runStart 0 = none ↔ ∀ s, ¬ Fits free p (p + n) need s := by
  rw [Option.eq_none_iff_forall_ne_some]
  constructor
  · intro h s hs
    obtain ⟨s', hfirst⟩ := exists_first ⟨s, hs⟩
    exact h s' ((scan_eq_some hneed).mpr hfirst)
  · intro h s hs
    exact h s ((scan_eq_some hneed).mp hs).fits

end Scan

end FirstFit
