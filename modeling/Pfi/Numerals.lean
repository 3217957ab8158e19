import Mathlib.Data.Nat.Digits.Lemmas

/-! # Numerals

    The digits of a number in a base, the most significant one first, and the
    value that digits have.  A loop that divides until nothing is left
    (`doDigits`) gives the digits the other way round (`doDigits_eq`).  A numeral
    has the value of its number (`value_numeral`), whatever zeros are put before
    it (`value_zeros`), and only that of zero starts with a zero
    (`numeral_head`).  The last digits decide whether a power of the base divides
    it (`pow_dvd_value_iff`). -/

namespace Numerals

/-! ## Values -/

/-- Digits that are read one after the other, behind those with the value
    `acc`. -/
def valueFrom (base acc : Nat) (ds : List Nat) : Nat := ds.foldl (fun n d => n * base + d) acc

/-- The number that the digits stand for. -/
def value (base : Nat) (ds : List Nat) : Nat := valueFrom base 0 ds

section Value

variable {base : Nat} {ds : List Nat}

/-- One more digit. -/
theorem valueFrom_cons (base acc d : Nat) (ds : List Nat) :
    valueFrom base acc (d :: ds) = valueFrom base (acc * base + d) ds := rfl

/-- Mathlib's value of digits, the other way round. -/
theorem value_eq_ofDigits (base : Nat) (ds : List Nat) :
    value base ds = Nat.ofDigits base ds.reverse := by
  unfold value valueFrom
  rw [Nat.ofDigits_eq_foldr, List.foldr_reverse]
  congr 1
  funext n d
  rw [Nat.add_comm, Nat.mul_comm]
  rfl

/-- Zeros in front change nothing. -/
theorem value_zeros (base k : Nat) (ds : List Nat) :
    value base (List.replicate k 0 ++ ds) = value base ds := by
  rw [value_eq_ofDigits, value_eq_ofDigits, List.reverse_append, List.reverse_replicate,
    Nat.ofDigits_append_replicate_zero]

/-- A power of the base divides a value whose last digits are zeros. -/
theorem pow_dvd_value_iff (hbase : 0 < base) (hds : ∀ d ∈ ds, d < base) (k : Nat) :
    base ^ k ∣ value base ds ↔ ∀ d ∈ ds.reverse.take k, d = 0 := by
  rw [value_eq_ofDigits, Nat.dvd_iff_mod_eq_zero, Nat.ofDigits_mod_pow_eq_ofDigits_take k hbase
    ds.reverse (fun d hd => hds d (List.mem_reverse.mp hd))]
  constructor
  · intro h
    exact Nat.digits_zero_of_eq_zero (Nat.ne_of_gt hbase) h
  · intro h
    rw [List.eq_replicate_of_mem h]
    exact Nat.ofDigits_replicate_zero

end Value

/-! ## Digits -/

/-- The digits of a number, at least one. -/
def numeral (base n : Nat) : List Nat := if n = 0 then [0] else (Nat.digits base n).reverse

/-- `do { next digit; n /= base } while (n > 0)`, with the least significant digit
    first. -/
def doDigits (base : Nat) : (fuel : Nat) → (n : Nat) → Option (List Nat)
  | 0, _ => none
  | fuel + 1, n =>
      if 0 < n / base then (doDigits base fuel (n / base)).map (fun ds => n % base :: ds)
      else some [n % base]

section Digits

variable {base n k : Nat}

/-- Zero has one digit. -/
theorem numeral_zero : numeral base 0 = [0] := if_pos rfl

/-- Every other number has its digits, the highest first. -/
theorem numeral_pos (h : n ≠ 0) : numeral base n = (Nat.digits base n).reverse := if_neg h

/-- A numeral has a digit. -/
theorem numeral_ne_nil : numeral base n ≠ [] := by
  by_cases h : n = 0
  · rw [h, numeral_zero]
    exact List.cons_ne_nil 0 []
  · rw [numeral_pos h]
    exact fun hc => h (Nat.digits_eq_nil_iff_eq_zero.mp (List.reverse_eq_nil_iff.mp hc))

/-- A numeral stands for its number. -/
theorem value_numeral : value base (numeral base n) = n := by
  by_cases h : n = 0
  · rw [h, numeral_zero, value_eq_ofDigits]
    exact Nat.ofDigits_singleton
  · rw [numeral_pos h, value_eq_ofDigits, List.reverse_reverse, Nat.ofDigits_digits]

/-- Its digits are below the base. -/
theorem numeral_lt (hbase : 1 < base) {d : Nat} (hd : d ∈ numeral base n) : d < base := by
  by_cases h : n = 0
  · rw [h, numeral_zero] at hd
    rw [List.mem_singleton.mp hd]
    exact Nat.lt_of_succ_lt hbase
  · rw [numeral_pos h] at hd
    exact Nat.digits_lt_base hbase (List.mem_reverse.mp hd)

/-- Only zero has a leading zero. -/
theorem numeral_head (h : (numeral base n).head? = some 0) : numeral base n = [0] := by
  by_cases hn : n = 0
  · rw [hn]
    exact numeral_zero
  · rw [numeral_pos hn, List.head?_reverse] at h
    have hne : Nat.digits base n ≠ [] := Nat.digits_ne_nil_iff_ne_zero.mpr hn
    rw [List.getLast?_eq_some_getLast hne] at h
    exact absurd (Option.some.inj h) (Nat.getLast_digit_ne_zero base hn)

/-- A number below `base ^ k` has at most `k` digits. -/
theorem numeral_length (hbase : 1 < base) (hn : n < base ^ k) (hk : 0 < k) :
    (numeral base n).length ≤ k := by
  by_cases h : n = 0
  · rw [h, numeral_zero]
    exact hk
  · rw [numeral_pos h, List.length_reverse]
    exact (Nat.digits_length_le_iff hbase n).mpr hn

/-- The loop, by induction on its turns. -/
theorem doDigits_eq (hbase : 1 < base) (hn : n < base ^ k) (hk : 0 < k) :
    doDigits base k n = some (numeral base n).reverse := by
  induction k generalizing n with
  | zero => exact absurd hk (Nat.lt_irrefl 0)
  | succ k ih =>
      unfold doDigits
      by_cases hmore : 0 < n / base
      · have hne : n ≠ 0 := by
          rintro rfl
          rw [Nat.zero_div] at hmore
          exact absurd hmore (Nat.lt_irrefl 0)
        have hrest : n / base < base ^ k := Nat.div_lt_of_lt_mul (by rwa [← Nat.pow_succ'])
        have hturns : 0 < k := by
          rcases Nat.eq_zero_or_pos k with rfl | hpos
          · rw [Nat.pow_zero] at hrest
            omega
          · exact hpos
        rw [if_pos hmore, ih hrest hturns, numeral_pos (Nat.ne_of_gt hmore), numeral_pos hne,
          List.reverse_reverse, List.reverse_reverse, Nat.digits_eq_cons_digits_div hbase hne]
        rfl
      · have hlt : n < base := by
          rcases Nat.lt_or_ge n base with hlt | hge
          · exact hlt
          · exact absurd (Nat.div_pos hge (Nat.lt_of_succ_lt hbase)) hmore
        rw [if_neg hmore, Nat.mod_eq_of_lt hlt]
        by_cases hzero : n = 0
        · rw [hzero, numeral_zero]
          rfl
        · rw [numeral_pos hzero, List.reverse_reverse, Nat.digits_of_lt base n hzero hlt]

end Digits

end Numerals
