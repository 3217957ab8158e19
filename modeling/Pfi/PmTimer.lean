import Pfi.Acpi
import Pfi.Walk

/-! # The delay by the PM timer

    `acpi_mdelay` reads a counter of 24 or 32 bits over and over and adds up
    the differences of successive reads.  Where a read is below the one before
    it the counter is taken to have rolled over once, and its period is added:
    in 32-bit arithmetic for the narrow counter, in 64-bit arithmetic for the
    wide one.

    As long as less than one period passes between two reads, each difference
    is the true number of ticks (`rollover`), so the sum is exact through any
    number of rollovers (`Mdelay.exact`).  The loop stops at the first read
    that is late enough, never earlier, and the lock and the interrupt flag
    are as before (`acpi_mdelay_exact`). -/

namespace Pfi

open Words

/-! ## The source -/

/-- Ticks for a millisecond. -/
abbrev pmTicksPerMs : Nat := 3580

/-- What a read of the timer gives; `inl` is the value at the port. -/
def acpiTimerRead (s : Acpi) (inl : Nat) : Nat := if s.pmTimerPort = 0 then 0 else inl

/-- The local variables of `acpi_mdelay`, with the number of reads so far. -/
structure Mdelay where
  reads : Nat
  elapsed : Nat
  last : Nat
deriving Repr, DecidableEq

/-- What a turn adds to `elapsed`. -/
def tickDelta (s : Acpi) (current last : Nat) : Nat :=
  if current < last then
    -- the sum is of type `uint32_t` for the narrow counter and 64 bits wide for the other
    if s.pmTimer24bit then (current + 0x1000000 + (2 ^ 32 - last)) % 2 ^ 32
    else add64 (add64 current 0x100000000) (2 ^ 64 - last)
  else (current + (2 ^ 32 - last)) % 2 ^ 32

/-- A turn of the loop; `inl k` is the value at the port at the `k`-th read. -/
def mdelayTurn (s : Acpi) (inl : Nat → Nat) (d : Mdelay) : Mdelay :=
  let current := acpiTimerRead s (inl d.reads)
  { reads := d.reads + 1
    elapsed := add64 d.elapsed (tickDelta s current d.last)
    last := current }

/-- The state before the loop. -/
def mdelayStart (s : Acpi) (inl : Nat → Nat) : Mdelay :=
  { reads := 1, elapsed := 0, last := acpiTimerRead s (inl 0) }

/-- `acpi_mdelay`, with its local variables at the end. -/
def acpiMdelay (inl : Nat → Nat) (fuel ms : Nat) (s : Acpi) : Option (Mdelay × Acpi) := do
  let (rflags, s) ← s.spinLockIrqsave
  let ticksNeeded := mul64 ms pmTicksPerMs
  let d ← Walk.stop (fun d : Mdelay => d.elapsed < ticksNeeded) (mdelayTurn s inl) fuel
    (mdelayStart s inl)
  some (d, s.spinUnlockIrqrestore rflags)

/-! ## Rollovers -/

/-- The period of the counter. -/
def Acpi.pmPeriod (s : Acpi) : Nat := if s.pmTimer24bit then 2 ^ 24 else 2 ^ 32

/-- The ticks between two reads, from the reads alone, when less than a period
    lies between them. -/
theorem rollover {n t u : Nat} (hle : t ≤ u) (hlt : u - t < n) :
    (if u % n < t % n then u % n + n - t % n else u % n - t % n) = u - t := by
  obtain ⟨δ, rfl⟩ := Nat.exists_eq_add_of_le hle
  rw [Nat.add_sub_cancel_left] at hlt ⊢
  have hpos : 0 < n := Nat.lt_of_le_of_lt (Nat.zero_le δ) hlt
  have ht := Nat.mod_lt t hpos
  have hsum : (t + δ) % n = (t % n + δ) % n := by rw [Nat.add_mod, Nat.mod_eq_of_lt hlt]
  rw [hsum]
  by_cases hroll : t % n + δ < n
  · rw [Nat.mod_eq_of_lt hroll, if_neg (by omega)]
    omega
  · rw [Nat.mod_eq_sub_mod (Nat.le_of_not_lt hroll), Nat.mod_eq_of_lt (by omega),
      if_pos (by omega)]
    omega

/-- The true tick counts: they never go back, and the timer is read at least
    once in each period. -/
structure Ticks (s : Acpi) (t : Nat → Nat) : Prop where
  mono : ∀ k, t k ≤ t (k + 1)
  close : ∀ k, t (k + 1) - t k < s.pmPeriod

section Exact

variable {s : Acpi} {t : Nat → Nat} {needed : Nat}

theorem Ticks.from_start (h : Ticks s t) (k : Nat) : t 0 ≤ t k := by
  induction k with
  | zero => exact Nat.le_refl _
  | succ k ih => exact Nat.le_trans ih (h.mono k)

/-- The difference of two reads, at either width. -/
theorem Ticks.tickDelta_eq (h : Ticks s t) (k : Nat) :
    tickDelta s (t (k + 1) % s.pmPeriod) (t k % s.pmPeriod) = t (k + 1) - t k := by
  have hroll := rollover (h.mono k) (h.close k)
  rw [← hroll]
  unfold tickDelta Acpi.pmPeriod
  by_cases hnarrow : s.pmTimer24bit = true
  · rw [if_pos hnarrow, if_pos hnarrow]
    by_cases hback : t (k + 1) % 2 ^ 24 < t k % 2 ^ 24
    · rw [if_pos hback, if_pos hback]
      omega
    · rw [if_neg hback, if_neg hback]
      omega
  · rw [if_neg hnarrow, if_neg hnarrow]
    unfold add64
    by_cases hback : t (k + 1) % 2 ^ 32 < t k % 2 ^ 32
    · rw [if_pos hback, if_pos hback]
      omega
    · rw [if_neg hback, if_neg hback]
      omega

/-- After `k` turns of a loop that has not had enough before, the sum is
    exact. -/
theorem Mdelay.exact (h : Ticks s t) (hport : s.pmTimerPort ≠ 0)
    (hfits : needed + s.pmPeriod < 2 ^ 64) (k : Nat) (hmore : ∀ j, j < k → t j - t 0 < needed) :
    (mdelayTurn s (fun k => t k % s.pmPeriod))^[k] (mdelayStart s (fun k => t k % s.pmPeriod))
      = ⟨k + 1, t k - t 0, t k % s.pmPeriod⟩ := by
  have hread : ∀ v, acpiTimerRead s v = v := fun v => if_neg hport
  induction k with
  | zero =>
      show mdelayStart s _ = _
      unfold mdelayStart
      rw [hread, Nat.sub_self]
  | succ k ih =>
      rw [Function.iterate_succ_apply', ih (fun j hj => hmore j (Nat.lt_succ_of_lt hj))]
      unfold mdelayTurn
      dsimp only
      rw [hread, h.tickDelta_eq k]
      -- the sum before this turn was too small, so this one does not wrap
      have hbefore := hmore k (Nat.lt_succ_self k)
      have hclose := h.close k
      have hmono := h.mono k
      have hstart := h.from_start k
      rw [add64_of_lt (by omega)]
      refine congrArg (fun e => Mdelay.mk (k + 1 + 1) e _) ?_
      omega

/-- The loop goes on as long as the true time is too short. -/
theorem Mdelay.more_iff (h : Ticks s t) (hport : s.pmTimerPort ≠ 0)
    (hfits : needed + s.pmPeriod < 2 ^ 64) (k : Nat) :
    (∀ j, j < k → ((mdelayTurn s (fun k => t k % s.pmPeriod))^[j]
      (mdelayStart s (fun k => t k % s.pmPeriod))).elapsed < needed) ↔
    ∀ j, j < k → t j - t 0 < needed := by
  induction k with
  | zero =>
      exact iff_of_true (fun j hj => absurd hj (Nat.not_lt_zero j))
        (fun j hj => absurd hj (Nat.not_lt_zero j))
  | succ k ih =>
      rw [Nat.forall_lt_succ_right, Nat.forall_lt_succ_right, ih]
      refine and_congr_right (fun hmore => ?_)
      rw [Mdelay.exact h hport hfits k hmore]

/-- The loop ends at the first read that is late enough. -/
theorem Mdelay.endsAfter_iff (h : Ticks s t) (hport : s.pmTimerPort ≠ 0)
    (hfits : needed + s.pmPeriod < 2 ^ 64) (k : Nat) :
    Walk.EndsAfter (fun d : Mdelay => d.elapsed < needed)
      (mdelayTurn s (fun k => t k % s.pmPeriod)) (mdelayStart s (fun k => t k % s.pmPeriod)) k ↔
    (∀ j, j < k → t j - t 0 < needed) ∧ needed ≤ t k - t 0 := by
  constructor
  · rintro ⟨hbefore, hends⟩
    have hmore := (Mdelay.more_iff h hport hfits k).mp hbefore
    rw [Mdelay.exact h hport hfits k hmore] at hends
    exact ⟨hmore, Nat.le_of_not_lt hends⟩
  · rintro ⟨hmore, hlate⟩
    refine ⟨(Mdelay.more_iff h hport hfits k).mpr hmore, ?_⟩
    rw [Mdelay.exact h hport hfits k hmore]
    exact Nat.not_lt_of_le hlate

/-- The delay is its loop, and leaves the state as it was. -/
theorem acpiMdelay_eq {ms : Nat} (inl : Nat → Nat) (hfree : s.acpiLock = false) (fuel : Nat) :
    acpiMdelay inl fuel ms s
      = (Walk.stop (fun d : Mdelay => d.elapsed < mul64 ms pmTicksPerMs) (mdelayTurn s inl) fuel
          (mdelayStart s inl)).map (fun d => (d, s)) := by
  -- the loop does not look at what the lock changes
  obtain ⟨mcfg, madt, fadt, ids, port, narrow, lock, iflag⟩ := s
  cases hfree
  exact (Option.map_eq_bind ..).symm

/-- After `k` reads in the loop `elapsed` is the true number of ticks since the
    first read, and the delay ends at the first read that is late enough; with
    that much fuel it returns, and the state is as before. -/
theorem acpi_mdelay_exact {ms : Nat} (hport : s.pmTimerPort ≠ 0) (hfree : s.acpiLock = false)
    (h : Ticks s t) (hfits : ms * 3580 + s.pmPeriod < 2 ^ 64) :
    (∀ k, (∀ j, j < k → t j - t 0 < ms * 3580) →
      ((mdelayTurn s (fun k => t k % s.pmPeriod))^[k]
        (mdelayStart s (fun k => t k % s.pmPeriod))).elapsed = t k - t 0) ∧
    ∀ fuel d s', acpiMdelay (fun k => t k % s.pmPeriod) fuel ms s = some (d, s') ↔
      ∃ k, k ≤ fuel ∧ (∀ j, j < k → t j - t 0 < ms * 3580) ∧ ms * 3580 ≤ t k - t 0 ∧
        d = ⟨k + 1, t k - t 0, t k % s.pmPeriod⟩ ∧ s' = s := by
  refine ⟨fun k hmore => ?_, fun fuel d s' => ?_⟩
  · rw [Mdelay.exact h hport hfits k hmore]
  · have hrun := @acpiMdelay_eq s ms (fun k => t k % s.pmPeriod) hfree fuel
    have hneeded : mul64 ms pmTicksPerMs = ms * 3580 :=
      Nat.mod_eq_of_lt (Nat.lt_of_le_of_lt (Nat.le_add_right _ _) hfits)
    rw [hneeded] at hrun
    rw [hrun, Option.map_eq_some_iff]
    constructor
    · rintro ⟨d, hstop, hd⟩
      obtain ⟨rfl, rfl⟩ := Prod.mk.inj hd
      obtain ⟨k, hk, hends, rfl⟩ := Walk.stop_eq_some.mp hstop
      obtain ⟨hmore, hlate⟩ := (Mdelay.endsAfter_iff h hport hfits k).mp hends
      exact ⟨k, hk, hmore, hlate, Mdelay.exact h hport hfits k hmore, rfl⟩
    · rintro ⟨k, hk, hmore, hlate, rfl, rfl⟩
      refine ⟨_, Walk.stop_eq_some.mpr ⟨k, hk, ?_, rfl⟩, ?_⟩
      · exact (Mdelay.endsAfter_iff h hport hfits k).mpr ⟨hmore, hlate⟩
      · rw [Mdelay.exact h hport hfits k hmore]

/-- Three thousand ticks from read to read, from just below a rollover. -/
def rollingTicks (k : Nat) : Nat := 0xFFFFFF + 3000 * k

/-- A millisecond is over at the third read, behind a rollover of the 24-bit
    counter. -/
theorem acpi_mdelay_rolls :
    acpiMdelay (fun k => rollingTicks k % 2 ^ 24) 2 1 { pmTimerPort := 0x608, iflag := true }
      = some (⟨3, 6000, 5999⟩, { pmTimerPort := 0x608, iflag := true }) := by
  have hticks : Ticks { pmTimerPort := 0x608, iflag := true } rollingTicks := by
    refine ⟨fun k => ?_, fun k => ?_⟩
    · unfold rollingTicks
      omega
    · show _ < 2 ^ 24
      unfold rollingTicks
      omega
  have hrun := (@acpi_mdelay_exact _ _ 1 (by decide) rfl hticks (by decide)).2 2
    ⟨3, 6000, 5999⟩ { pmTimerPort := 0x608, iflag := true }
  exact hrun.mpr ⟨2, Nat.le_refl 2, by decide, by decide, rfl, rfl⟩

end Exact

end Pfi
