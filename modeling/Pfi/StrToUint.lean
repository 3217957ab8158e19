import Pfi.Format
import Mathlib.Data.List.TakeWhile

/-! # Numbers in texts

    `str_to_uint` takes the digits from the front of a text.  Its decimal loop
    looks at a character before it goes on (`parseDecimal_eq`).  Its hexadecimal
    loop makes room for a digit first and looks at the character then, so a
    character that ends the run has already multiplied the result by 16
    (`parseHex_eq`).

    In 32 bits `16 * n = n` says that `n` is zero (`shift_eq_iff`), and the value
    of hexadecimal digits is that exactly if the last eight of them are zeros.
    So the result is right when nothing follows the digits, and otherwise only
    for such numbers (`str_to_uint_iff`). -/

namespace Pfi

open Numerals

/-! ## The function -/

/-- What is added to the result for a character, unless it ends the loop. -/
def hexDigit (c : Byte) : Option Nat :=
  if IsDigit c then some (c.toNat - 0x30)
  else if 0x61 ≤ c.toNat ∧ c.toNat ≤ 0x66 then some (c.toNat - 0x61 + 10)
  else if 0x41 ≤ c.toNat ∧ c.toNat ≤ 0x46 then some (c.toNat - 0x41 + 10)
  else none

def decimalDigit (c : Byte) : Option Nat := if IsDigit c then some (c.toNat - 0x30) else none

/-- The loop behind a prefix; the list ends at the NUL. -/
def parseHex : (result : BitVec 32) → List Byte → BitVec 32
  | result, [] => result
  | result, c :: cs =>
      let result := result <<< 4
      match hexDigit c with
      | some d => parseHex (result + BitVec.ofNat 32 d) cs
      | none => result

/-- The loop without a prefix. -/
def parseDecimal : (result : BitVec 32) → List Byte → BitVec 32
  | result, [] => result
  | result, c :: cs =>
      match decimalDigit c with
      | some d => parseDecimal (result * 10 + BitVec.ofNat 32 d) cs
      | none => result

/-- `str[0] == '0' && (str[1] == 'x' || str[1] == 'X')` -/
def HexPrefixed (text : List Byte) : Prop :=
  text[0]? = some zero ∧ (text[1]? = some letterX ∨ text[1]? = some 0x58)

instance (text : List Byte) : Decidable (HexPrefixed text) :=
  inferInstanceAs (Decidable (_ ∧ _))

/-- `str_to_uint`, for a pointer that may be `NULL`. -/
def strToUint (str : Option (List Byte)) : BitVec 32 :=
  match str with
  | none => 0
  | some str =>
      let text := cString str
      if HexPrefixed text then parseHex 0 (text.drop 2) else parseDecimal 0 text

/-! ## What a text says -/

/-- The value of a digit of a base, a letter in either case. -/
def digitOf (base : Nat) (c : Byte) : Option Nat :=
  (List.range base).find? (fun d =>
    (Nat.digitChar d).toNat = c.toNat ∨ (Nat.digitChar d).toUpper.toNat = c.toNat)

/-- `0x` and `0X` -/
def hexPrefixes : List (List Byte) := [[0x30, 0x78], [0x30, 0x58]]

/-- The longest run of digits at the front. -/
def digitRun (digit : Byte → Option Nat) (text : List Byte) : List Byte :=
  text.takeWhile (fun c => (digit c).isSome)

def runDigits (digit : Byte → Option Nat) (text : List Byte) : List Nat :=
  (digitRun digit text).map (fun c => (digit c).getD 0)

/-- Its value. -/
def runValue (base : Nat) (digit : Byte → Option Nat) (text : List Byte) : Nat :=
  value base (runDigits digit text)

/-- The value of the longest numeric prefix, in 32 bits. -/
def numericPrefix (text : List Byte) : BitVec 32 :=
  if text.take 2 ∈ hexPrefixes then BitVec.ofNat 32 (runValue 16 (digitOf 16) (text.drop 2))
  else BitVec.ofNat 32 (runValue 10 (digitOf 10) text)

/-! ## Runs of digits -/

/-- The characters that the loops take are the digits. -/
theorem digitOf_sixteen : digitOf 16 = hexDigit := by
  have hall : ∀ c, digitOf 16 c = hexDigit c := by decide +kernel
  exact funext hall

theorem digitOf_ten : digitOf 10 = decimalDigit := by
  have hall : ∀ c, digitOf 10 c = decimalDigit c := by decide +kernel
  exact funext hall

theorem hexPrefixed_iff (text : List Byte) : HexPrefixed text ↔ text.take 2 ∈ hexPrefixes := by
  unfold HexPrefixed hexPrefixes
  cases text with
  | nil => decide
  | cons c text =>
      cases text with
      | nil => simp
      | cons d text => simp [and_or_left]

section Runs

variable {digit : Byte → Option Nat} {base n d : Nat} {c : Byte} {cs : List Byte}

theorem digitRun_digit (h : digit c = some d) : digitRun digit (c :: cs) = c :: digitRun digit cs :=
  List.takeWhile_cons_of_pos (by rw [h]; rfl)

theorem digitRun_end (h : digit c = none) : digitRun digit (c :: cs) = [] :=
  List.takeWhile_cons_of_neg (by rw [h]; exact Bool.false_ne_true)

/-- The digits of a run, behind some with the value `n`. -/
theorem valueFrom_digit (h : digit c = some d) :
    valueFrom base n (runDigits digit (c :: cs))
      = valueFrom base (n * base + d) (runDigits digit cs) := by
  unfold runDigits
  rw [digitRun_digit h, List.map_cons, h]
  rfl

theorem valueFrom_end (h : digit c = none) :
    valueFrom base n (runDigits digit (c :: cs)) = n := by
  unfold runDigits
  rw [digitRun_end h]
  rfl

theorem parseDecimal_eq (n : Nat) (cs : List Byte) :
    parseDecimal (BitVec.ofNat 32 n) cs
      = BitVec.ofNat 32 (valueFrom 10 n (runDigits decimalDigit cs)) := by
  induction cs generalizing n with
  | nil => rfl
  | cons c cs ih =>
      unfold parseDecimal
      cases hc : decimalDigit c with
      | none => rw [valueFrom_end hc]
      | some d =>
          have hnext : BitVec.ofNat 32 n * 10 + BitVec.ofNat 32 d
              = BitVec.ofNat 32 (n * 10 + d) := by
            rw [BitVec.ofNat_add, BitVec.ofNat_mul]
            rfl
          rw [valueFrom_digit hc, ← ih, ← hnext]

/-- The result has been shifted once more if something follows the run. -/
theorem parseHex_eq (n : Nat) (cs : List Byte) :
    parseHex (BitVec.ofNat 32 n) cs
      = BitVec.ofNat 32 (valueFrom 16 n (runDigits hexDigit cs)
          * if digitRun hexDigit cs = cs then 1 else 16) := by
  have hshift : ∀ n : Nat, BitVec.ofNat 32 n <<< 4 = BitVec.ofNat 32 (n * 16) := by
    intro n
    rw [BitVec.shiftLeft_eq_mul_twoPow, BitVec.ofNat_mul]
    rfl
  induction cs generalizing n with
  | nil =>
      have hempty : digitRun hexDigit [] = [] := rfl
      rw [if_pos hempty, Nat.mul_one]
      rfl
  | cons c cs ih =>
      unfold parseHex
      dsimp only
      rw [hshift]
      cases hc : hexDigit c with
      | none =>
          rw [valueFrom_end hc, digitRun_end hc, if_neg (List.cons_ne_nil c cs).symm]
      | some d =>
          have hrun : digitRun hexDigit (c :: cs) = c :: cs ↔ digitRun hexDigit cs = cs := by
            rw [digitRun_digit hc, List.cons.injEq]
            exact and_iff_right rfl
          dsimp only
          rw [valueFrom_digit hc, ← BitVec.ofNat_add, ih]
          simp only [hrun]

end Runs

/-! ## The result -/

section Result

variable {cs : List Byte}

/-- In 32 bits, a number that a shift does not change. -/
theorem shift_eq_iff (n : Nat) :
    BitVec.ofNat 32 (n * 16) = BitVec.ofNat 32 n ↔ 16 ^ 8 ∣ n := by
  rw [← BitVec.toNat_inj, BitVec.toNat_ofNat, BitVec.toNat_ofNat]
  omega

/-- A hexadecimal digit, and the one with the value zero. -/
theorem hexDigit_spec {c : Byte} {d : Nat} (h : hexDigit c = some d) :
    d < 16 ∧ (d = 0 ↔ c = zero) := by
  rw [← BitVec.toNat_inj]
  have hzero : (zero : Byte).toNat = 0x30 := rfl
  rw [hzero]
  unfold hexDigit at h
  by_cases hdec : IsDigit c
  · rw [if_pos hdec] at h
    obtain ⟨hlow, hhigh⟩ := hdec
    have hd := Option.some.inj h
    omega
  rw [if_neg hdec] at h
  by_cases hsmall : 0x61 ≤ c.toNat ∧ c.toNat ≤ 0x66
  · rw [if_pos hsmall] at h
    have hd := Option.some.inj h
    omega
  rw [if_neg hsmall] at h
  by_cases hlarge : 0x41 ≤ c.toNat ∧ c.toNat ≤ 0x46
  · rw [if_pos hlarge] at h
    have hd := Option.some.inj h
    omega
  · rw [if_neg hlarge] at h
    cases h

/-- The characters of a run have digits. -/
theorem exists_hexDigit {c : Byte} (h : c ∈ digitRun hexDigit cs) : ∃ d, hexDigit c = some d := by
  have hsome := List.mem_takeWhile_imp h
  exact Option.isSome_iff_exists.mp hsome

/-- The value of a run is zero in 32 bits if its last eight characters are zeros. -/
theorem runValue_dvd_iff (cs : List Byte) :
    16 ^ 8 ∣ runValue 16 hexDigit cs ↔
      ∀ c ∈ (digitRun hexDigit cs).reverse.take 8, c = zero := by
  have hlt : ∀ d ∈ runDigits hexDigit cs, d < 16 := by
    intro d hd
    obtain ⟨c, hc, rfl⟩ := List.mem_map.mp hd
    obtain ⟨d, hd⟩ := exists_hexDigit hc
    rw [hd]
    exact (hexDigit_spec hd).1
  unfold runValue
  rw [pow_dvd_value_iff (by decide) hlt]
  unfold runDigits
  rw [← List.map_reverse, ← List.map_take, List.forall_mem_map]
  refine forall₂_congr (fun c hc => ?_)
  obtain ⟨d, hd⟩ := exists_hexDigit (List.mem_reverse.mp (List.mem_of_mem_take hc))
  rw [hd]
  exact (hexDigit_spec hd).2

/-- The loop's result is the value of the run exactly if nothing follows it, or
    its last eight digits are zeros. -/
theorem parseHex_iff (cs : List Byte) :
    parseHex 0 cs = BitVec.ofNat 32 (runValue 16 hexDigit cs) ↔
      digitRun hexDigit cs = cs ∨ ∀ c ∈ (digitRun hexDigit cs).reverse.take 8, c = zero := by
  have hloop : parseHex 0 cs = BitVec.ofNat 32 (runValue 16 hexDigit cs
      * if digitRun hexDigit cs = cs then 1 else 16) := parseHex_eq 0 cs
  rw [← runValue_dvd_iff, ← shift_eq_iff, hloop]
  by_cases hend : digitRun hexDigit cs = cs
  · rw [if_pos hend, Nat.mul_one]
    exact iff_of_true rfl (Or.inl hend)
  · rw [if_neg hend]
    exact (or_iff_right hend).symm

end Result

/-- The result is the value of the longest numeric prefix, unless something
    follows hexadecimal digits whose last eight are not all zeros. -/
theorem str_to_uint_iff (str : List Byte) :
    strToUint (some str) = numericPrefix (cString str) ↔
      (cString str).take 2 ∉ hexPrefixes ∨
        digitRun (digitOf 16) ((cString str).drop 2) = (cString str).drop 2 ∨
        ∀ c ∈ (digitRun (digitOf 16) ((cString str).drop 2)).reverse.take 8, c = zero := by
  unfold strToUint numericPrefix
  dsimp only
  rw [digitOf_sixteen, digitOf_ten]
  by_cases hhex : HexPrefixed (cString str)
  · have htake := (hexPrefixed_iff _).mp hhex
    rw [if_pos hhex, if_pos htake, or_iff_right (not_not_intro htake)]
    exact parseHex_iff _
  · have htake := fun hc => hhex ((hexPrefixed_iff _).mpr hc)
    rw [if_neg hhex, if_neg htake]
    exact iff_of_true (parseDecimal_eq 0 _) (Or.inl htake)

/-- `"0x1 "` is 16. -/
theorem str_to_uint_shifted :
    strToUint (some [0x30, 0x78, 0x31, 0x20])
      ≠ numericPrefix (cString [0x30, 0x78, 0x31, 0x20]) := by
  decide

end Pfi
