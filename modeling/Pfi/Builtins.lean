import Pfi.StringOps

/-! # The memory routines in assembly

    `memcpy`, `memmove` and `memset` of `builtints.S`, instruction by
    instruction.  A repeated string instruction takes its count from `rcx`, and
    only `memcpy` puts it there.

    `memmove` chooses the direction and the first bytes rightly for every
    overlap (`Registers.unread`), and clears the direction flag at the end, but
    copies as many bytes as `rcx` happens to hold.  So it is right when that is
    `n`, and else only where the bytes between the two counts are the same at
    source and destination (`memmove_moves_iff`).

    `memset` has the fill pattern in `rcx` where the count should be.  For a
    fill byte that is zero it stores nothing; for any other it stores 2^56
    quadwords and more, whose upper half is zero.  Apart from `n = 0` it is
    right only where memory holds the result before the call and `dst` is the
    number that is left in `rax` (`memset_fills_iff`). -/

namespace Pfi

open ByteStore StringOps

/-! ## The processor -/

/-- The registers that the routines use, and memory. -/
structure Registers where
  rax : Word
  rcx : Word
  rdx : Word
  rsi : Word
  rdi : Word
  r8 : Word
  df : Bool
  mem : Mem

/-- `rep movsb`. -/
def repMovsb (c : Registers) : Registers :=
  { c with
    mem := movs c.mem c.df c.rdi c.rsi c.rcx.toNat
    rdi := place c.df c.rdi c.rcx.toNat
    rsi := place c.df c.rsi c.rcx.toNat
    rcx := 0 }

/-- `rep stosq` -/
def repStosq (c : Registers) : Registers :=
  { c with
    mem := stos c.mem c.df c.rdi 8 c.rax.toNat c.rcx.toNat
    rdi := place c.df c.rdi (8 * c.rcx.toNat)
    rcx := 0 }

/-- `rep stosb` -/
def repStosb (c : Registers) : Registers :=
  { c with
    mem := stos c.mem c.df c.rdi 1 c.rax.toNat c.rcx.toNat
    rdi := place c.df c.rdi c.rcx.toNat
    rcx := 0 }

/-! ## The routines -/

/-- `void memcpy(void* d, void* src, size_t n)`, with its arguments in `rdi`,
    `rsi` and `rdx`. -/
def memcpy (c : Registers) : Registers := repMovsb { c with rcx := c.rdx, df := false }

/-- What a call of it does to memory. -/
def memcpyTo (m : Mem) (dst src : Addr) (n : Word) : Mem :=
  (memcpy
    { rax := 0, rcx := 0, rdx := n, rsi := src, rdi := dst, r8 := 0, df := false, mem := m }).mem

/-- `memmove`; `ja` is taken when `rsi` is above `rdi`. -/
def memmove (c : Registers) : Registers :=
  if c.rdi.toNat < c.rsi.toNat then repMovsb { c with df := false }
  else
    let rdi := c.rdi + c.rdx - 1
    let rsi := c.rsi + c.rdx - 1
    let c := repMovsb { c with rdi := rdi, rsi := rsi, df := true }
    { c with df := false }

/-- `void* memset(void* dst, int c, size_t n)` -/
def memset (c : Registers) : Registers :=
  let rax := c.rdi
  if c.rdx = 0 then { c with rax := rax }
  else
    let rcx : Word := (c.rsi.setWidth 8).setWidth 64
    let rax := rcx
    let rcx := rcx <<< 8
    let rcx := rcx ||| rax
    let rax := rcx
    let rcx := rcx <<< 16
    let rcx := rcx ||| rax
    let rax := rcx
    let rcx := rcx <<< 32
    let rcx := rcx ||| rax
    let r8 := c.rdx
    let rdx := c.rdx >>> 3
    let c := repStosq { c with rax := rax, rcx := rcx, rdx := rdx, r8 := r8, df := false }
    let rdx := c.r8
    let rdx := rdx &&& 7
    let rax := (c.rax >>> 8 <<< 8) ||| (c.rcx &&& 0xFF)
    repStosb { c with rax := rax, rdx := rdx }

/-! ## Moving -/

/-- The bytes at `dst` are those that were at `src`, no others are changed, and
    the direction flag is clear. -/
structure MovesBytes (c c' : Registers) : Prop where
  mem : c'.mem = moved c.mem false c.rdi c.rsi c.rdx.toNat
  df : c'.df = false

/-- `memmove` goes up from the first bytes or down from the last ones. -/
def Registers.down (c : Registers) : Bool := decide (c.rsi.toNat ≤ c.rdi.toNat)
def Registers.dstStart (c : Registers) : Addr := if c.down = true then c.rdi + c.rdx - 1 else c.rdi
def Registers.srcStart (c : Registers) : Addr := if c.down = true then c.rsi + c.rdx - 1 else c.rsi

/-- The bytes by which a copy of `rcx` bytes is too short are at the destination
    already, and those by which it is too long change nothing there. -/
structure Registers.CountHarmless (c : Registers) : Prop where
  short : ∀ i, c.rcx.toNat ≤ i → i < c.rdx.toNat →
    c.mem (place c.down c.dstStart i) = c.mem (place c.down c.srcStart i)
  long : ∀ i, c.rdx.toNat ≤ i → i < c.rcx.toNat →
    moved c.mem false c.rdi c.rsi c.rdx.toNat (place c.down c.dstStart i)
      = moved c.mem false c.rdi c.rsi c.rdx.toNat (place c.down c.srcStart i)

section Move

variable {c : Registers}

theorem memmove_mem (c : Registers) :
    (memmove c).mem = movs c.mem c.down c.dstStart c.srcStart c.rcx.toNat := by
  unfold memmove Registers.dstStart Registers.srcStart Registers.down
  by_cases h : c.rdi.toNat < c.rsi.toNat
  · rw [if_pos h, decide_eq_false (Nat.not_le.mpr h)]
    rfl
  · rw [if_neg h, decide_eq_true (Nat.le_of_not_lt h)]
    rfl

theorem memmove_df (c : Registers) : (memmove c).df = false := by
  unfold memmove
  split <;> rfl

/-- The direction fits the overlap. -/
theorem Registers.unread (hsrc : c.rsi.toNat + c.rdx.toNat ≤ 2 ^ 64)
    (hdst : c.rdi.toNat + c.rdx.toNat ≤ 2 ^ 64) :
    Unread c.down c.dstStart c.srcStart c.rdx.toNat := by
  intro i j hi hj
  unfold dstStart srcStart
  by_cases h : c.rsi.toNat ≤ c.rdi.toNat
  · have hdown : c.down = true := decide_eq_true h
    rw [hdown, if_pos rfl, if_pos rfl]
    unfold place
    rw [if_pos rfl, if_pos rfl]
    bv_omega
  · have hdown : c.down = false := decide_eq_false h
    rw [hdown, if_neg Bool.false_ne_true, if_neg Bool.false_ne_true]
    unfold place
    rw [if_neg Bool.false_ne_true, if_neg Bool.false_ne_true]
    bv_omega

theorem Registers.moved_start (c : Registers) :
    moved c.mem c.down c.dstStart c.srcStart c.rdx.toNat
      = moved c.mem false c.rdi c.rsi c.rdx.toNat := by
  have hdown := @moved_down c.mem c.rdi c.rsi c.rdx.toNat c.rdx.isLt
  rw [BitVec.ofNat_toNat, BitVec.setWidth_eq] at hdown
  unfold dstStart srcStart
  cases c.down with
  | true => exact hdown
  | false => rfl

/-- `memmove` moves the bytes exactly when those between `rcx` and `n` do not
    matter. -/
theorem memmove_moves_iff {c : Registers} (hsrc : c.rsi.toNat + c.rdx.toNat ≤ 2 ^ 64)
    (hdst : c.rdi.toNat + c.rdx.toNat ≤ 2 ^ 64) :
    MovesBytes c (memmove c) ↔ c.CountHarmless := by
  have hiff := @movs_eq_moved_iff c.mem c.down c.dstStart c.srcStart c.rdx.toNat c.rcx.toNat
    (Nat.le_of_lt c.rdx.isLt) (Nat.le_of_lt c.rcx.isLt) (Registers.unread hsrc hdst)
  rw [← memmove_mem, c.moved_start] at hiff
  constructor
  · intro h
    obtain ⟨hshort, hlong⟩ := hiff.mp h.mem
    exact ⟨hshort, hlong⟩
  · intro h
    exact ⟨hiff.mpr ⟨h.short, h.long⟩, memmove_df c⟩

/-- No other count is needed where `rcx` holds `n`. -/
theorem Registers.countHarmless_of_eq (h : c.rcx = c.rdx) : c.CountHarmless := by
  refine ⟨fun i hlo hhi => absurd hhi ?_, fun i hlo hhi => absurd hhi ?_⟩
  · rw [h] at hlo
    exact Nat.not_lt.mpr hlo
  · rw [h]
    exact Nat.not_lt.mpr hlo

/-- Each byte holds the low byte of its address. -/
def countingMem : Mem := fun p => p.setWidth 8

theorem memmove_moves_four :
    MovesBytes ⟨0, 4, 4, 0x1000, 0x1002, 0, false, countingMem⟩
      (memmove ⟨0, 4, 4, 0x1000, 0x1002, 0, false, countingMem⟩) :=
  (memmove_moves_iff (by decide) (by decide)).mpr (Registers.countHarmless_of_eq rfl)

/-- With zero in `rcx` nothing is copied. -/
theorem memmove_copies_nothing :
    (memmove ⟨0, 0, 4, 0x1000, 0x1002, 0, false, countingMem⟩).mem = countingMem ∧
      ¬ MovesBytes ⟨0, 0, 4, 0x1000, 0x1002, 0, false, countingMem⟩
        (memmove ⟨0, 0, 4, 0x1000, 0x1002, 0, false, countingMem⟩) := by
  refine ⟨rfl, fun h => ?_⟩
  have hbyte := congrFun h.mem 0x1002
  revert hbyte
  decide

end Move

/-! ## Filling -/

/-- The byte that `memset` is called with. -/
def Registers.fillByte (c : Registers) : BitVec 8 := c.rsi.setWidth 8

/-- The `n` bytes at `dst` hold the fill byte, no others are changed, and `dst`
    is returned. -/
structure FillsBytes (c c' : Registers) : Prop where
  mem : ∀ p, c'.mem p = if offset false c.rdi p < c.rdx.toNat then c.fillByte else c.mem p
  ret : c'.rax = c.rdi

/-- What `memset` leaves is there already: with a zero byte nothing is stored,
    and with another one the quadwords have a zero upper half. -/
structure Registers.AlreadyFilled (c : Registers) : Prop where
  ret : c.rdi = BitVec.ofNat 64 (c.fillByte.toNat * 0x01010100)
  zero : c.fillByte = 0 → ∀ i < c.rdx.toNat, c.mem (place false c.rdi i) = 0
  short : c.fillByte ≠ 0 → c.rdx.toNat ≤ 4
  behind : c.fillByte ≠ 0 → ∀ i, c.rdx.toNat ≤ i → i < 2 ^ 64 →
    i < 8 * (c.fillByte.toNat * 0x0101010101010101) →
      c.mem (place false c.rdi i) = if i % 8 < 4 then c.fillByte else 0

section Fill

variable {c : Registers}

/-- The pattern that the shifts build up, with the half of it that is in `rax`
    when the quadwords are stored. -/
theorem fillPattern (b : BitVec 8) :
    let x : Word := b.setWidth 64
    let x2 := x <<< 8 ||| x
    let x4 := x2 <<< 16 ||| x2
    x4 = BitVec.ofNat 64 (b.toNat * 0x01010101) ∧
      x4 <<< 32 ||| x4 = BitVec.ofNat 64 (b.toNat * 0x0101010101010101) ∧
      (x4 >>> 8 <<< 8) ||| (0 &&& 0xFF) = BitVec.ofNat 64 (b.toNat * 0x01010100) := by
  have hall : ∀ n < 256,
      let b := BitVec.ofNat 8 n
      let x : Word := b.setWidth 64
      let x2 := x <<< 8 ||| x
      let x4 := x2 <<< 16 ||| x2
      x4 = BitVec.ofNat 64 (b.toNat * 0x01010101) ∧
        x4 <<< 32 ||| x4 = BitVec.ofNat 64 (b.toNat * 0x0101010101010101) ∧
        (x4 >>> 8 <<< 8) ||| (0 &&& 0xFF) = BitVec.ofNat 64 (b.toNat * 0x01010100) := by
    decide +kernel
  have hb := hall b.toNat b.isLt
  rw [BitVec.ofNat_toNat, BitVec.setWidth_eq] at hb
  exact hb

/-- The bytes of a quadword. -/
theorem fillPattern_byte (b : BitVec 8) {j : Nat} (hj : j < 8) :
    BitVec.ofNat 8 ((BitVec.ofNat 64 (b.toNat * 0x01010101)).toNat / 256 ^ j)
      = if j < 4 then b else 0 := by
  have hall : ∀ n < 256, ∀ j < 8,
      BitVec.ofNat 8 ((BitVec.ofNat 64 (n * 0x01010101)).toNat / 256 ^ j)
        = if j < 4 then BitVec.ofNat 8 n else 0 := by
    decide +kernel
  have hb := hall b.toNat b.isLt j hj
  rw [BitVec.ofNat_toNat, BitVec.setWidth_eq] at hb
  exact hb

theorem memset_zero (h : c.rdx = 0) : memset c = { c with rax := c.rdi } := if_pos h

/-- What `memset` leaves in the `i`-th byte from `dst` on. -/
def Registers.leftByte (c : Registers) (i : Nat) : BitVec 8 :=
  if i < 8 * (c.fillByte.toNat * 0x0101010101010101) then (if i % 8 < 4 then c.fillByte else 0)
  else c.mem (place false c.rdi i)

/-- What is left in `rax` and in memory. -/
theorem memset_nonzero (h : c.rdx ≠ 0) :
    (memset c).rax = BitVec.ofNat 64 (c.fillByte.toNat * 0x01010100) ∧
      ∀ p, (memset c).mem p = c.leftByte (offset false c.rdi p) := by
  obtain ⟨hrax, hrcx, hleft⟩ := fillPattern c.fillByte
  have hcount : (BitVec.ofNat 64 (c.fillByte.toNat * 0x0101010101010101)).toNat
      = c.fillByte.toNat * 0x0101010101010101 := by
    have hbyte := c.fillByte.isLt
    rw [BitVec.toNat_ofNat, Nat.mod_eq_of_lt (by omega)]
  -- the bytewise store finds the count used up
  have hmem : (memset c).mem
      = stos c.mem false c.rdi 8 (BitVec.ofNat 64 (c.fillByte.toNat * 0x01010101)).toNat
          (BitVec.ofNat 64 (c.fillByte.toNat * 0x0101010101010101)).toNat := by
    rw [← hrcx, ← hrax]
    unfold memset
    rw [if_neg h]
    rfl
  refine ⟨?_, fun p => ?_⟩
  · rw [← hleft]
    unfold memset
    rw [if_neg h]
    rfl
  · unfold Registers.leftByte
    rw [hmem, hcount, stos_quads, fillPattern_byte _ (Nat.mod_lt _ (by decide)), place_offset]

/-- Byte by byte, counted from the destination. -/
theorem memset_fills_places (h : c.rdx ≠ 0) :
    FillsBytes c (memset c) ↔
      c.rdi = BitVec.ofNat 64 (c.fillByte.toNat * 0x01010100) ∧ ∀ i, i < 2 ^ 64 →
        c.leftByte i = if i < c.rdx.toNat then c.fillByte else c.mem (place false c.rdi i) := by
  obtain ⟨hrax, hmem⟩ := memset_nonzero h
  constructor
  · rintro ⟨hall, hret⟩
    refine ⟨hret.symm.trans hrax, fun i hi => ?_⟩
    have hbyte := hall (place false c.rdi i)
    rw [hmem, offset_place hi] at hbyte
    exact hbyte
  · rintro ⟨hret, hall⟩
    refine ⟨fun p => ?_, hrax.trans hret.symm⟩
    have hbyte := hall (offset false c.rdi p) offset_lt
    rw [place_offset] at hbyte
    rw [hmem, hbyte]

/-- With a zero byte no quadword is stored. -/
theorem memset_fills_zero (h : c.rdx ≠ 0) (hzero : c.fillByte = 0) :
    FillsBytes c (memset c) ↔ c.AlreadyFilled := by
  have hleft : ∀ i, c.leftByte i = c.mem (place false c.rdi i) := by
    intro i
    unfold Registers.leftByte
    rw [hzero]
    exact if_neg (Nat.not_lt_zero i)
  rw [memset_fills_places h]
  constructor
  · rintro ⟨hret, hall⟩
    refine ⟨hret, fun _ i hi => ?_, fun hne => absurd hzero hne, fun hne => absurd hzero hne⟩
    have hbyte := hall i (Nat.lt_trans hi c.rdx.isLt)
    rw [hleft, if_pos hi, hzero] at hbyte
    exact hbyte
  · intro hfilled
    refine ⟨hfilled.ret, fun i _ => ?_⟩
    rw [hleft]
    by_cases hi : i < c.rdx.toNat
    · rw [if_pos hi, hfilled.zero hzero i hi, hzero]
    · rw [if_neg hi]

/-- With another one the fifth byte is zero, and there are many more. -/
theorem memset_fills_other (h : c.rdx ≠ 0) (hzero : c.fillByte ≠ 0) :
    FillsBytes c (memset c) ↔ c.AlreadyFilled := by
  have hbyte : 1 ≤ c.fillByte.toNat :=
    Nat.pos_of_ne_zero (fun hz => hzero (BitVec.eq_of_toNat_eq hz))
  have hstored : ∀ i, i < 8 * (c.fillByte.toNat * 0x0101010101010101) →
      c.leftByte i = if i % 8 < 4 then c.fillByte else 0 := fun i hi => if_pos hi
  have hkept : ∀ i, ¬ i < 8 * (c.fillByte.toNat * 0x0101010101010101) →
      c.leftByte i = c.mem (place false c.rdi i) := fun i hi => if_neg hi
  rw [memset_fills_places h]
  constructor
  · rintro ⟨hret, hall⟩
    have hshort : c.rdx.toNat ≤ 4 := by
      by_contra hlong
      have hfifth := hall 4 (by decide)
      rw [hstored 4 (by omega), if_neg (by decide), if_pos (by omega)] at hfifth
      exact hzero hfifth.symm
    refine ⟨hret, fun hz => absurd hz hzero, fun _ => hshort, fun _ i hlo hi hin => ?_⟩
    have hi' := hall i hi
    rw [hstored i hin, if_neg (Nat.not_lt.mpr hlo)] at hi'
    exact hi'.symm
  · intro hfilled
    have hshort := hfilled.short hzero
    refine ⟨hfilled.ret, fun i hi => ?_⟩
    by_cases hin : i < 8 * (c.fillByte.toNat * 0x0101010101010101)
    · rw [hstored i hin]
      by_cases hlt : i < c.rdx.toNat
      · rw [if_pos hlt, if_pos (by omega)]
      · rw [if_neg hlt]
        exact (hfilled.behind hzero i (Nat.le_of_not_lt hlt) hi hin).symm
    · rw [hkept i hin, if_neg (by omega)]

/-- `memset` fills the bytes exactly when there are none, or when what it leaves
    is there already. -/
theorem memset_fills_iff (c : Registers) :
    FillsBytes c (memset c) ↔ c.rdx = 0 ∨ c.AlreadyFilled := by
  by_cases h : c.rdx = 0
  · refine ⟨fun _ => Or.inl h, fun _ => ?_⟩
    rw [memset_zero h]
    refine ⟨fun p => ?_, rfl⟩
    rw [h]
    exact (if_neg (Nat.not_lt_zero _)).symm
  · rw [or_iff_right h]
    by_cases hzero : c.fillByte = 0
    · exact memset_fills_zero h hzero
    · exact memset_fills_other h hzero

/-- One byte that is to be cleared. -/
theorem memset_clears_nothing :
    (memset ⟨0, 0, 1, 0, 0x1000, 0, false, fun _ => 0xFF⟩).rax = 0 ∧
      (memset ⟨0, 0, 1, 0, 0x1000, 0, false, fun _ => 0xFF⟩).mem 0x1000 = 0xFF ∧
      ¬ FillsBytes ⟨0, 0, 1, 0, 0x1000, 0, false, fun _ => 0xFF⟩
        (memset ⟨0, 0, 1, 0, 0x1000, 0, false, fun _ => 0xFF⟩) := by
  have hret : (memset ⟨0, 0, 1, 0, 0x1000, 0, false, fun _ => 0xFF⟩).rax = 0 := by decide
  refine ⟨hret, by decide, fun h => ?_⟩
  have hdst := h.ret
  rw [hret] at hdst
  exact absurd hdst (by decide)

end Fill

end Pfi
