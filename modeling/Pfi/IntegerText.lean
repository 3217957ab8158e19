import Pfi.Numerals
import Pfi.Vmem

/-! # Integers as text

    `serial_print_ex_integer` and `vmem_print_ex_integer` are the same function
    on two devices: the digits are put into a buffer from the last one on, and
    printed behind the padding and the sign.

    What is printed has one of two shapes (`IntegerRight.shape`), so its length
    is the larger of the width and what is needed.  Spaces, sign and digits are
    read back one after the other (`parseText_digits`); the digits have the
    value of the number with or without zeros before them, and the number is
    `-val` when the sign is printed, which has 64 bits for the most negative
    value too. -/

namespace Pfi

open Run Numerals

/-! ## Printing -/

abbrev space : Byte := 0x20
abbrev minus : Byte := 0x2D
abbrev zero : Byte := 0x30

/-- `digits[d]` -/
def digitByte (d : Nat) : Byte :=
  [0x30, 0x31, 0x32, 0x33, 0x34, 0x35, 0x36, 0x37, 0x38, 0x39, 0x61, 0x62, 0x63, 0x64, 0x65,
    0x66].getD d 0

/-- What the buffer holds from its start on, and what is printed. -/
structure IntegerText where
  buf : List Byte
  chars : List Byte

/-- The function, with the characters that it prints. -/
def printExInteger (fuel : Nat) (val : BitVec 64) (base : Nat) (width : Int)
    (zeroPad isSigned : Bool) : Option IntegerText :=
  let neg := isSigned && decide (val.toInt < 0)
  let val := if neg = true then -val else val
  (doDigits base fuel val.toNat).map (fun ds =>
    let buf := ds.map digitByte
    let totalLen : Int := buf.length + (if neg = true then 1 else 0)
    let sign := if neg = true then [minus] else []
    let paddingCount := (width - totalLen).toNat
    { buf := buf
      chars :=
        if totalLen < width then
          if zeroPad = true then sign ++ List.replicate paddingCount zero ++ buf.reverse
          else List.replicate paddingCount space ++ sign ++ buf.reverse
        else sign ++ buf.reverse })

/-- The characters go to the serial port. -/
def serialPrintExInteger (fuel : Nat) (out : List Byte) (val : BitVec 64) (base : Nat)
    (width : Int) (zeroPad isSigned : Bool) : Option (List Byte) :=
  (printExInteger fuel val base width zeroPad isSigned).map
    (fun t => exec serialPrintc out t.chars)

/-- The characters go to the screen. -/
def vmemPrintExInteger (fuel : Nat) (s : Screen) (val : BitVec 64) (base : Nat) (width : Int)
    (zeroPad isSigned : Bool) : Option Screen :=
  (printExInteger fuel val base width zeroPad isSigned).map (fun t => exec vmemPrintc s t.chars)

/-! ## Reading back -/

/-- The value of a digit, in lower case from ten on. -/
def digitValue (c : Byte) : Option Nat :=
  if 0x30 ≤ c.toNat ∧ c.toNat ≤ 0x39 then some (c.toNat - 0x30)
  else if 0x61 ≤ c.toNat ∧ c.toNat ≤ 0x66 then some (c.toNat - 0x61 + 10)
  else none

/-- Digits behind those with the value `acc`. -/
def parseDigits (base : Nat) : (acc : Nat) → List Byte → Option Nat
  | acc, [] => some acc
  | acc, c :: cs =>
      (digitValue c).bind (fun d => if d < base then parseDigits base (acc * base + d) cs else none)

/-- Spaces, a sign, and at least one digit. -/
def parseText (base : Nat) (cs : List Byte) : Option Int :=
  let cs := cs.dropWhile (fun c => decide (c = space))
  if cs.head? = some minus then
    if cs.tail = [] then none else (parseDigits base 0 cs.tail).map (fun n => -(n : Int))
  else if cs = [] then none
  else (parseDigits base 0 cs).map (fun n => (n : Int))

section Parse

variable {base acc : Nat} {ds : List Nat}

/-- A digit is read back. -/
theorem digitValue_digitByte {d : Nat} (hd : d < 16) : digitValue (digitByte d) = some d := by
  have hall : ∀ d < 16, digitValue (digitByte d) = some d := by decide
  exact hall d hd

/-- No digit is a space or a sign. -/
theorem digitByte_ne {d : Nat} (hd : d < 16) : digitByte d ≠ space ∧ digitByte d ≠ minus := by
  have hall : ∀ d < 16, digitByte d ≠ space ∧ digitByte d ≠ minus := by decide
  exact hall d hd

/-- A row of digits is read back. -/
theorem parseDigits_map (hbase : base ≤ 16) (hds : ∀ d ∈ ds, d < base) :
    parseDigits base acc (ds.map digitByte) = some (valueFrom base acc ds) := by
  induction ds generalizing acc with
  | nil => rfl
  | cons d ds ih =>
      have hd := hds d List.mem_cons_self
      rw [List.map_cons]
      unfold parseDigits
      rw [digitValue_digitByte (Nat.lt_of_lt_of_le hd hbase), Option.bind_some, if_pos hd,
        ih (fun d' hd' => hds d' (List.mem_cons_of_mem d hd')), valueFrom_cons]

/-- Any spaces, a sign or none, and digits. -/
theorem parseText_digits (hbase : base ≤ 16) (hds : ∀ d ∈ ds, d < base) (hne : ds ≠ []) (pad : Nat)
    (neg : Bool) :
    parseText base (List.replicate pad space ++ (if neg = true then [minus] else [])
        ++ ds.map digitByte)
      = some (if neg = true then -(value base ds : Int) else (value base ds : Int)) := by
  obtain ⟨d, rest, rfl⟩ := List.exists_cons_of_ne_nil hne
  have hd := hds d List.mem_cons_self
  obtain ⟨hspace, hminus⟩ := digitByte_ne (Nat.lt_of_lt_of_le hd hbase)
  have hparse := @parseDigits_map base 0 (d :: rest) hbase hds
  have hdrop : ∀ cs : List Byte, cs.head? ≠ some space →
      (List.replicate pad space ++ cs).dropWhile (fun c => decide (c = space)) = cs := by
    intro cs hcs
    rw [List.dropWhile_append_of_pos]
    · cases cs with
      | nil => rfl
      | cons c cs =>
          refine List.dropWhile_cons_of_neg (fun hc => hcs ?_)
          rw [of_decide_eq_true hc]
          rfl
    · intro c hc
      exact decide_eq_true (List.eq_of_mem_replicate hc)
  unfold parseText
  dsimp only
  rw [List.append_assoc]
  cases neg with
  | true =>
      rw [if_pos rfl, if_pos rfl, hdrop _ (by simp), List.singleton_append, List.head?_cons,
        if_pos rfl, List.tail_cons, if_neg (by simp), hparse]
      rfl
  | false =>
      rw [if_neg Bool.false_ne_true, if_neg Bool.false_ne_true, List.nil_append,
        hdrop _ (by simpa using hspace), if_neg (by simpa using hminus), if_neg (by simp), hparse]
      rfl

end Parse

/-! ## What is printed -/

/-- `val` is printed with a sign. -/
def Negative (val : BitVec 64) (isSigned : Bool) : Prop := isSigned = true ∧ val.toInt < 0

instance (val : BitVec 64) (isSigned : Bool) : Decidable (Negative val isSigned) :=
  inferInstanceAs (Decidable (_ ∧ _))

/-- Padding, sign and digits in their places, as long as asked or needed, and
    the value can be read back. -/
structure IntegerRight (val : BitVec 64) (base : Nat) (width : Int) (zeroPad isSigned : Bool)
    (t : IntegerText) : Prop where
  shape : ∃ pad ds, ds ≠ [] ∧ (∀ d ∈ ds, d < base) ∧ (ds.head? = some 0 → ds = [0]) ∧
    t.chars =
      (if zeroPad = true then
        (if Negative val isSigned then [minus] else []) ++ List.replicate pad zero
          ++ ds.map digitByte
      else
        List.replicate pad space ++ (if Negative val isSigned then [minus] else [])
          ++ ds.map digitByte) ∧
    (t.chars.length : Int) = max width (ds.length + (if Negative val isSigned then 1 else 0))
  parse : parseText base t.chars = some (if isSigned = true then val.toInt else (val.toNat : Int))
  inside : t.buf.length ≤ 64

section Print

variable {val : BitVec 64} {base fuel : Nat} {width : Int} {zeroPad isSigned : Bool}

/-- The number whose digits are printed. -/
def magnitude (val : BitVec 64) (isSigned : Bool) : Nat :=
  if Negative val isSigned then (-val).toNat else val.toNat

/-- `-(int64_t)val`, also for the most negative value. -/
theorem magnitude_eq (val : BitVec 64) (isSigned : Bool) :
    (if Negative val isSigned then -(magnitude val isSigned : Int) else magnitude val isSigned)
      = if isSigned = true then val.toInt else (val.toNat : Int) := by
  have hval := val.isLt
  unfold magnitude
  by_cases hneg : Negative val isSigned
  · obtain ⟨hs, hlt⟩ := hneg
    rw [if_pos ⟨hs, hlt⟩, if_pos ⟨hs, hlt⟩, if_pos hs]
    rw [BitVec.toInt_eq_toNat_cond] at hlt ⊢
    rw [BitVec.toNat_neg]
    split at hlt <;> omega
  · rw [if_neg hneg, if_neg hneg]
    cases isSigned with
    | false => rfl
    | true =>
        have hge : ¬ val.toInt < 0 := fun hc => hneg ⟨rfl, hc⟩
        rw [if_pos rfl]
        rw [BitVec.toInt_eq_toNat_cond] at hge ⊢
        split at hge <;> omega

/-- The loop ends within 64 turns. -/
theorem printExInteger_eq (hbase : 1 < base) (hfuel : 64 ≤ fuel) :
    printExInteger fuel val base width zeroPad isSigned = some
      (let ds := numeral base (magnitude val isSigned)
       let sign := if Negative val isSigned then [minus] else []
       let totalLen : Int := ds.length + (if Negative val isSigned then 1 else 0)
       { buf := ds.reverse.map digitByte
         chars :=
          if totalLen < width then
            if zeroPad = true then
              sign ++ List.replicate (width - totalLen).toNat zero ++ ds.map digitByte
            else List.replicate (width - totalLen).toNat space ++ sign ++ ds.map digitByte
          else sign ++ ds.map digitByte }) := by
  have hneg : (isSigned && decide (val.toInt < 0)) = true ↔ Negative val isSigned := by
    rw [Bool.and_eq_true, decide_eq_true_eq]
    exact Iff.rfl
  have hword : ∀ w : BitVec 64,
      doDigits base fuel w.toNat = some (numeral base w.toNat).reverse := by
    intro w
    refine doDigits_eq hbase (Nat.lt_of_lt_of_le w.isLt ?_) (by omega)
    calc 2 ^ 64 ≤ base ^ 64 := Nat.pow_le_pow_left hbase 64
      _ ≤ base ^ fuel := Nat.pow_le_pow_right (by omega) hfuel
  unfold printExInteger magnitude
  dsimp only
  by_cases h : Negative val isSigned
  · simp only [hneg.mpr h, if_true, if_pos h, hword, Option.map_some, List.length_map,
      List.length_reverse, List.map_reverse, List.reverse_reverse]
  · have hfalse : (isSigned && decide (val.toInt < 0)) = false :=
      Bool.eq_false_iff.mpr (fun hc => h (hneg.mp hc))
    simp only [hfalse, Bool.false_eq_true, if_false, if_neg h, hword, Option.map_some,
      List.length_map, List.length_reverse, List.map_reverse, List.reverse_reverse]

/-- The two shapes are one with some padding, or none. -/
theorem printExInteger_shape (hbase : 1 < base) (hfuel : 64 ≤ fuel) :
    ∃ t pad, printExInteger fuel val base width zeroPad isSigned = some t ∧
      t.buf = (numeral base (magnitude val isSigned)).reverse.map digitByte ∧
      t.chars =
        (if zeroPad = true then
          (if Negative val isSigned then [minus] else []) ++ List.replicate pad zero
            ++ (numeral base (magnitude val isSigned)).map digitByte
        else
          List.replicate pad space ++ (if Negative val isSigned then [minus] else [])
            ++ (numeral base (magnitude val isSigned)).map digitByte) ∧
      (pad : Int) = max 0 (width - ((numeral base (magnitude val isSigned)).length
        + (if Negative val isSigned then 1 else 0))) := by
  rw [printExInteger_eq hbase hfuel]
  dsimp only
  generalize (numeral base (magnitude val isSigned)) = ds
  generalize (if Negative val isSigned then (1 : Int) else 0) = one
  generalize (if Negative val isSigned then [minus] else []) = sign
  by_cases hwide : (ds.length : Int) + one < width
  · refine ⟨_, (width - (ds.length + one)).toNat, rfl, rfl, ?_, ?_⟩
    · dsimp only
      rw [if_pos hwide]
    · omega
  · refine ⟨_, 0, rfl, rfl, ?_, ?_⟩
    · dsimp only
      rw [if_neg hwide, List.replicate_zero, List.replicate_zero, List.append_nil, List.nil_append]
      exact (ite_self _).symm
    · omega

/-- What is printed reads back as the number, in its width. -/
theorem printExInteger_right {t : IntegerText} (hbase : base = 10 ∨ base = 16) (hfuel : 64 ≤ fuel)
    (h : printExInteger fuel val base width zeroPad isSigned = some t) :
    IntegerRight val base width zeroPad isSigned t := by
  have hlow : 1 < base := by omega
  have hhigh : base ≤ 16 := by omega
  obtain ⟨t', pad, ht, hbuf, hchars, hpad⟩ :=
    @printExInteger_shape val base fuel width zeroPad isSigned hlow hfuel
  rw [h] at ht
  injection ht with ht
  rw [← ht] at hbuf hchars
  have hne := @numeral_ne_nil base (magnitude val isSigned)
  have hlt : ∀ d ∈ numeral base (magnitude val isSigned), d < base := fun d hd => numeral_lt hlow hd
  have hvalue := @value_numeral base (magnitude val isSigned)
  have hsign : (if Negative val isSigned then [minus] else [])
      = if decide (Negative val isSigned) = true then [minus] else [] := by
    by_cases hneg : Negative val isSigned
    · rw [if_pos hneg, if_pos (decide_eq_true hneg)]
    · rw [if_neg hneg, if_neg (fun hc => hneg (of_decide_eq_true hc))]
  refine ⟨⟨pad, _, hne, hlt, numeral_head, hchars, ?_⟩, ?_, ?_⟩
  · -- the length
    rw [hchars]
    have hlen : ((if Negative val isSigned then [minus] else ([] : List Byte)).length : Int)
        = if Negative val isSigned then 1 else 0 := by
      split <;> rfl
    cases zeroPad with
    | true =>
        rw [if_pos rfl, List.length_append, List.length_append, List.length_replicate,
          List.length_map, Nat.cast_add, Nat.cast_add, hlen]
        omega
    | false =>
        rw [if_neg Bool.false_ne_true, List.length_append, List.length_append,
          List.length_replicate, List.length_map, Nat.cast_add, Nat.cast_add, hlen]
        omega
  · -- reading it back
    rw [← magnitude_eq, hchars, hsign]
    have hdecide : ∀ x y : Int, (if Negative val isSigned then x else y)
        = if decide (Negative val isSigned) = true then x else y := by
      intro x y
      by_cases hneg : Negative val isSigned
      · rw [if_pos hneg, if_pos (decide_eq_true hneg)]
      · rw [if_neg hneg, if_neg (fun hc => hneg (of_decide_eq_true hc))]
    rw [hdecide]
    cases zeroPad with
    | true =>
        -- the zeros are digits too
        have hzeros : List.replicate pad zero
              ++ (numeral base (magnitude val isSigned)).map digitByte
            = (List.replicate pad 0 ++ numeral base (magnitude val isSigned)).map digitByte := by
          rw [List.map_append, List.map_replicate]
          rfl
        have hdigits : ∀ d ∈ List.replicate pad 0 ++ numeral base (magnitude val isSigned),
            d < base := by
          intro d hd
          rcases List.mem_append.mp hd with hd | hd
          · rw [List.eq_of_mem_replicate hd]
            omega
          · exact hlt d hd
        have hparse := parseText_digits hhigh hdigits
          (fun hc => hne (List.append_eq_nil_iff.mp hc).2) 0 (decide (Negative val isSigned))
        rw [List.replicate_zero, List.nil_append, value_zeros, hvalue] at hparse
        rw [if_pos rfl, List.append_assoc, hzeros]
        exact hparse
    | false =>
        rw [if_neg Bool.false_ne_true, parseText_digits hhigh hlt hne, hvalue]
  · rw [hbuf, List.length_map, List.length_reverse]
    refine numeral_length hlow ?_ (by decide)
    have hword : magnitude val isSigned < 2 ^ 64 := by
      unfold magnitude
      split <;> exact BitVec.isLt _
    exact Nat.lt_of_lt_of_le hword (Nat.pow_le_pow_left hlow 64)

/-- The port gets the characters as they are. -/
theorem exec_serialPrintc (out cs : List Byte) : exec serialPrintc out cs = out ++ cs := by
  induction cs generalizing out with
  | nil => exact (List.append_nil out).symm
  | cons c cs ih =>
      rw [exec_cons, ih]
      unfold serialPrintc
      rw [List.append_assoc]
      rfl

end Print

/-- What both functions print for any value, width and flags. -/
theorem print_ex_integer_invertible (val : BitVec 64) {base : Nat} (hbase : base = 10 ∨ base = 16)
    (width : Int) (zeroPad isSigned : Bool) {fuel : Nat} (hfuel : 64 ≤ fuel) :
    ∃ t, printExInteger fuel val base width zeroPad isSigned = some t ∧
      IntegerRight val base width zeroPad isSigned t ∧
      (∀ out, serialPrintExInteger fuel out val base width zeroPad isSigned
        = some (out ++ t.chars)) ∧
      ∀ s, (vmemPrintExInteger fuel s val base width zeroPad isSigned)
        = some (exec vmemPrintc s t.chars) := by
  obtain ⟨t, pad, ht, -⟩ :=
    @printExInteger_shape val base fuel width zeroPad isSigned (by omega) hfuel
  refine ⟨t, ht, printExInteger_right hbase hfuel ht, fun out => ?_, fun s => ?_⟩
  · unfold serialPrintExInteger
    rw [ht, Option.map_some, exec_serialPrintc]
  · unfold vmemPrintExInteger
    rw [ht, Option.map_some]

/-- The most negative value, with zeros. -/
theorem print_ex_integer_lowest :
    ∃ t, printExInteger 64 0x8000000000000000 10 24 true true = some t ∧
      parseText 10 t.chars = some (-9223372036854775808) := by
  obtain ⟨t, ht, hright, -⟩ := print_ex_integer_invertible 0x8000000000000000 (Or.inl rfl)
    24 true true (Nat.le_refl 64)
  exact ⟨t, ht, hright.parse⟩

end Pfi
