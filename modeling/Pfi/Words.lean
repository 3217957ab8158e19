import Mathlib.Tactic.Ring
import Mathlib.Data.Nat.Bitwise
import Mathlib.Algebra.Order.Group.Nat

/-! # 64-bit words as natural numbers

    A machine word is a `Nat` below `2 ^ 64`.  Sums are reduced explicitly
    (`add64`, `mul64`), a complement is taken on 64 bits (`not64`), and the
    masks that occur in systems code are turned into quotients and
    remainders, which `omega` decides. -/

namespace Words

/-- `a + b` on 64 bits. -/
def add64 (a b : Nat) : Nat := (a + b) % 2 ^ 64

/-- `a * b` on 64 bits. -/
def mul64 (a b : Nat) : Nat := (a * b) % 2 ^ 64

/-- `~m` on 64 bits. -/
def not64 (m : Nat) : Nat := 2 ^ 64 - 1 - m

theorem add64_lt (a b : Nat) : add64 a b < 2 ^ 64 :=
  Nat.mod_lt _ (by decide)

theorem add64_of_lt {a b : Nat} (h : a + b < 2 ^ 64) : add64 a b = a + b :=
  Nat.mod_eq_of_lt h

theorem add64_add64 (a b c : Nat) : add64 (add64 a b) c = add64 a (b + c) := by
  unfold add64
  omega

theorem mul64_comm (a b : Nat) : mul64 a b = mul64 b a := by
  unfold mul64
  rw [Nat.mul_comm]

/-! ## Masks -/

/-- Masking the low `k` bits away rounds down to a multiple of `2 ^ k`. -/
theorem and_not64_mask {x k : Nat} (hk : k ≤ 64) (hx : x < 2 ^ 64) :
    x &&& not64 (2 ^ k - 1) = x / 2 ^ k * 2 ^ k := by
  have hmask : not64 (2 ^ k - 1) = (2 ^ (64 - k) - 1) * 2 ^ k := by
    have hsplit : 2 ^ (64 - k) * 2 ^ k = 2 ^ 64 := by
      rw [← pow_add]
      congr 1
      omega
    have hpos : 0 < 2 ^ k := Nat.two_pow_pos k
    unfold not64
    rw [Nat.sub_mul, hsplit, Nat.one_mul]
    omega
  have hq : x / 2 ^ k < 2 ^ (64 - k) := by
    rw [Nat.div_lt_iff_lt_mul (Nat.two_pow_pos k), ← pow_add]
    have he : 64 - k + k = 64 := by omega
    rw [he]
    exact hx
  rw [hmask]
  apply Nat.eq_of_testBit_eq
  intro i
  rw [Nat.testBit_and, Nat.testBit_mul_two_pow, Nat.testBit_mul_two_pow]
  by_cases hi : k ≤ i
  · rw [Nat.testBit_div_two_pow, Nat.testBit_two_pow_sub_one]
    have hik : i - k + k = i := by omega
    rw [hik]
    by_cases hlt : i - k < 64 - k
    · simp [hi, hlt]
    · have hbit : x.testBit i = false := by
        apply Nat.testBit_lt_two_pow
        calc x < 2 ^ 64 := hx
          _ ≤ 2 ^ i := Nat.pow_le_pow_right (by decide) (by omega)
      simp [hbit]
  · simp [hi]

/-- Masking away all bits at and above `k` keeps the remainder. -/
theorem and_mask (x k : Nat) : x &&& (2 ^ k - 1) = x % 2 ^ k :=
  Nat.and_two_pow_sub_one_eq_mod x k

/-- A word has no bit at or above `k` exactly when it lies below `2 ^ k`. -/
theorem and_not64_eq_zero {x k : Nat} (hk : k ≤ 64) (hx : x < 2 ^ 64) :
    x &&& not64 (2 ^ k - 1) = 0 ↔ x < 2 ^ k := by
  rw [and_not64_mask hk hx, Nat.mul_eq_zero]
  constructor
  · intro h
    rcases h with h | h
    · exact (Nat.div_eq_zero_iff_lt (Nat.two_pow_pos k)).mp h
    · exact absurd h (Nat.two_pow_pos k).ne'
  · intro h
    exact Or.inl (Nat.div_eq_of_lt h)

/-- Bit 0. -/
theorem and_one (x : Nat) : x &&& 1 = x % 2 :=
  Nat.and_one_is_mod x

/-- A single bit, as a quotient and a remainder. -/
theorem and_bit (x k : Nat) : x &&& 2 ^ k = x / 2 ^ k % 2 * 2 ^ k := by
  rw [Nat.and_two_pow]
  congr 1
  rw [Nat.testBit_eq_decide_div_mod_eq]
  have hlt : x / 2 ^ k % 2 < 2 := Nat.mod_lt _ (by decide)
  by_cases h : x / 2 ^ k % 2 = 1
  · simp [h]
  · have h0 : x / 2 ^ k % 2 = 0 := by omega
    simp [h0]

theorem and_bit_ne (x k : Nat) : x &&& 2 ^ k ≠ 0 ↔ x / 2 ^ k % 2 = 1 := by
  have hpos := Nat.two_pow_pos k
  rw [and_bit, Nat.mul_ne_zero_iff]
  omega

/-- Words with the same bit. -/
theorem and_bit_congr {x y k : Nat} (h : x / 2 ^ k % 2 = y / 2 ^ k % 2) :
    x &&& 2 ^ k = y &&& 2 ^ k := by
  rw [and_bit, and_bit, h]

/-- Setting bit 0. -/
theorem or_one (x : Nat) : x ||| 1 = x / 2 * 2 + 1 := by
  apply Nat.eq_of_testBit_eq
  intro i
  cases i with
  | zero =>
      simp
  | succ i =>
      rw [Nat.testBit_or, Nat.testBit_succ, Nat.testBit_succ 1, Nat.testBit_succ]
      have h1 : (x / 2 * 2 + 1) / 2 = x / 2 := by omega
      rw [h1]
      simp

/-- A multiple of `2 ^ k` and a smaller word do not overlap. -/
theorem mul_or_of_lt {a b k : Nat} (hb : b < 2 ^ k) :
    a * 2 ^ k ||| b = a * 2 ^ k + b := by
  rw [← Nat.shiftLeft_eq, Nat.shiftLeft_add_eq_or_of_lt hb]

end Words
