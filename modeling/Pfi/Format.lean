import Pfi.IntegerText

/-! # Formatted printing

    `serial_printf` and `vmem_printf` go through the format in the same way and
    differ in what they call for the output, so there is one `printf` here,
    which gives the calls in order, and each function runs them on its device.

    A format is complete when it consists of characters and whole conversions
    (`Pieces`).  Its scan then ends at the NUL, with the calls that the pieces
    ask for (`printf_pieces`).  If the format ends inside a conversion, the
    `switch` takes the NUL for the letter, prints it and goes on behind it
    (`printf_incomplete`).  So the scan stays in the string exactly for complete
    formats (`format_stays_iff`).

    Flag, width and length are taken in one lemma (`readConversion_eq`), whatever follows
    them. -/

namespace Pfi

open Run

/-! ## Conversions -/

/-- An argument: its word, and the string that it points to, if it does. -/
structure VaArg where
  word : BitVec 64
  str : List Byte

/-- A call for the output: `…_printc`, `…_print`, or `serial_print("0x")`, which
    both functions make. -/
inductive TextOp where
  | printc (c : Byte)
  | print (str : List Byte)
  | mark
deriving DecidableEq

/-- A conversion, with the letter that the `switch` is on. -/
structure Conversion where
  zeroPad : Bool
  width : Int
  isLong : Nat
  letter : Byte

abbrev percent : Byte := 0x25
abbrev letterC : Byte := 0x63
abbrev letterS : Byte := 0x73
abbrev letterI : Byte := 0x69
abbrev letterD : Byte := 0x64
abbrev letterU : Byte := 0x75
abbrev letterX : Byte := 0x78
abbrev letterP : Byte := 0x70
abbrev letterL : Byte := 0x6C

/-- `"(NULL)"` -/
def nullText : List Byte := [0x28, 0x4E, 0x55, 0x4C, 0x4C, 0x29]

/-- `…_print_ex_integer`, which calls `…_printc` only. -/
def integerOps (fuel : Nat) (val : BitVec 64) (base : Nat) (width : Int) (zeroPad isSigned : Bool) :
    Option (List TextOp) :=
  (printExInteger fuel val base width zeroPad isSigned).map (fun t => t.chars.map TextOp.printc)

/-- An `unsigned int`, or a longer argument. -/
def Conversion.unsigned (v : Conversion) (arg : VaArg) : BitVec 64 :=
  if 1 ≤ v.isLong then arg.word else (arg.word.setWidth 32).setWidth 64

/-- An `int`, or a longer argument. -/
def Conversion.signed (v : Conversion) (arg : VaArg) : BitVec 64 :=
  if 1 ≤ v.isLong then arg.word else (arg.word.setWidth 32).signExtend 64

/-- The `switch`. -/
def Conversion.run (fuel : Nat) (v : Conversion) (arg : VaArg) : Option (List TextOp) :=
  if v.letter = letterC then some [.printc (arg.word.setWidth 8)]
  else if v.letter = letterS then some [.print (if arg.word = 0 then nullText else arg.str)]
  else if v.letter = letterI ∨ v.letter = letterD then
    integerOps fuel (v.signed arg) 10 v.width v.zeroPad true
  else if v.letter = letterU then integerOps fuel (v.unsigned arg) 10 v.width v.zeroPad false
  else if v.letter = letterP then
    (integerOps fuel arg.word 16 (if v.width = 0 then 16 else v.width) true false).map
      (fun ops => .mark :: ops)
  else if v.letter = letterX then integerOps fuel (v.unsigned arg) 16 v.width v.zeroPad false
  else if v.letter = percent then some [.printc percent]
  else some [.printc v.letter]

/-- The cases that take an argument. -/
def Conversion.takes (v : Conversion) : Bool :=
  decide (v.letter ∈ [letterC, letterS, letterI, letterD, letterU, letterX, letterP])

/-- The `default` case prints the character of the format. -/
def Conversion.echoes (v : Conversion) : Bool := !v.takes && decide (v.letter ≠ percent)

/-! ## The scan -/

/-- `*fmt >= '0' && *fmt <= '9'` -/
def IsDigit (c : Byte) : Prop := 0x30 ≤ c.toNat ∧ c.toNat ≤ 0x39

instance (c : Byte) : Decidable (IsDigit c) := inferInstanceAs (Decidable (_ ∧ _))

/-- An `int` that wraps. -/
def int32 (n : Int) : Int := (BitVec.ofInt 32 n).toInt

/-- `width = width * 10 + (*fmt - '0')` -/
def addDigit (width : Int) (c : Byte) : Int := int32 (width * 10 + (c.toNat - 0x30))

def skipWidth (fmt : Nat → Byte) : (fuel : Nat) → (p : Nat) → (width : Int) → Option (Nat × Int)
  | 0, _, _ => none
  | fuel + 1, p, width =>
      if IsDigit (fmt p) then skipWidth fmt fuel (p + 1) (addDigit width (fmt p))
      else some (p, width)

def skipLong (fmt : Nat → Byte) : (fuel : Nat) → (p : Nat) → (isLong : Nat) → Option (Nat × Nat)
  | 0, _, _ => none
  | fuel + 1, p, isLong =>
      if fmt p = letterL then skipLong fmt fuel (p + 1) (isLong + 1) else some (p, isLong)

/-- From behind the percent sign to the letter, which is at the first of the two
    results. -/
def readConversion (fmt : Nat → Byte) (fuel : Nat) (p : Nat) : Option (Nat × Conversion) :=
  let zeroPad := decide (fmt p = zero)
  let p := if zeroPad = true then p + 1 else p
  (skipWidth fmt fuel p 0).bind (fun r =>
    (skipLong fmt fuel r.1 0).map (fun q => (q.1, ⟨zeroPad, r.2, q.2, fmt q.1⟩)))

/-- The position in the format, the number of arguments taken, the calls for the
    output, the positions that were read, and those whose character was
    printed. -/
structure Printf where
  pos : Nat
  args : Nat
  ops : List TextOp
  reads : List Nat
  echoed : List Nat

/-- The body of the loop. -/
def printfStep (fuel : Nat) (fmt : Nat → Byte) (args : Nat → VaArg) (s : Printf) : Option Printf :=
  if fmt s.pos = percent then
    (readConversion fmt fuel (s.pos + 1)).bind (fun r =>
      (r.2.run fuel (args s.args)).map (fun ops =>
        { pos := r.1 + 1
          args := if r.2.takes = true then s.args + 1 else s.args
          ops := s.ops ++ ops
          reads := s.reads ++ List.range' s.pos (r.1 + 1 - s.pos)
          echoed := if r.2.echoes = true then s.echoed ++ [r.1] else s.echoed }))
  else
    some
      { pos := s.pos + 1
        args := s.args
        ops := s.ops ++ [.printc (fmt s.pos)]
        reads := s.reads ++ [s.pos]
        echoed := s.echoed ++ [s.pos] }

/-- `while (*fmt)` -/
def printfLoop (fuel : Nat) (fmt : Nat → Byte) (args : Nat → VaArg) :
    (turns : Nat) → Printf → Option Printf
  | 0, _ => none
  | turns + 1, s =>
      if fmt s.pos = 0 then some { s with reads := s.reads ++ [s.pos] }
      else (printfStep fuel fmt args s).bind (printfLoop fuel fmt args turns)

def printfStart : Printf := { pos := 0, args := 0, ops := [], reads := [], echoed := [] }

def printf (fuel : Nat) (fmt : Nat → Byte) (args : Nat → VaArg) : Option Printf :=
  printfLoop fuel fmt args fuel printfStart

/-! ## Both devices -/

/-- `"0x"` -/
def pointerMark : List Byte := [0x30, 0x78]

def serialOp (out : List Byte) : TextOp → List Byte
  | .printc c => serialPrintc out c
  | .print str => serialPrint out str
  | .mark => serialPrint out pointerMark

def vmemOp (s : Screen) : TextOp → Screen
  | .printc c => vmemPrintc s c
  | .print str => vmemPrint s str
  | .mark => { s with serial := serialPrint s.serial pointerMark }

def serialPrintf (fuel : Nat) (fmt : Nat → Byte) (args : Nat → VaArg) (out : List Byte) :
    Option (Printf × List Byte) :=
  (printf fuel fmt args).map (fun r => (r, exec serialOp out r.ops))

def vmemPrintf (fuel : Nat) (fmt : Nat → Byte) (args : Nat → VaArg) (s : Screen) :
    Option (Printf × Screen) :=
  (printf fuel fmt args).map (fun r => (r, exec vmemOp s r.ops))

/-! ## Formats -/

/-- A NUL-terminated text from a position on. -/
def TextAt (fmt : Nat → Byte) : (p : Nat) → List Byte → Prop
  | p, [] => fmt p = 0
  | p, c :: cs => fmt p = c ∧ c ≠ 0 ∧ TextAt fmt (p + 1) cs

/-- The value of the digits of a width. -/
def widthOf (ds : List Byte) : Int := ds.foldl addDigit 0

/-- The flag, as it is written. -/
def flag (zeroPad : Bool) : List Byte := if zeroPad = true then [zero] else []

/-- A percent sign's flag, width and length are taken as far as they go before
    `rest`. -/
structure Header (zeroPad : Bool) (ds : List Byte) (isLong : Nat) (rest : List Byte) : Prop where
  digits : ∀ d ∈ ds, IsDigit d
  noFlag : zeroPad = false → ds.head? ≠ some zero
  noLong : rest.head? ≠ some letterL
  noDigit : isLong = 0 → ∀ c, rest.head? = some c → ¬ IsDigit c

/-- A character, or a conversion. -/
inductive Piece where
  | lit (c : Byte)
  | conv (v : Conversion)

/-- A format with nothing but characters and whole conversions. -/
inductive Pieces : List Byte → List Piece → Prop where
  | nil : Pieces [] []
  | lit {c : Byte} {cs : List Byte} {ps : List Piece} (hc : c ≠ percent) (rest : Pieces cs ps) :
      Pieces (c :: cs) (.lit c :: ps)
  | conv {zeroPad : Bool} {ds : List Byte} {isLong : Nat} {letter : Byte} {cs : List Byte}
      {ps : List Piece} (header : Header zeroPad ds isLong (letter :: cs)) (rest : Pieces cs ps) :
      Pieces (percent :: (flag zeroPad ++ (ds ++ (List.replicate isLong letterL ++ letter :: cs))))
        (.conv ⟨zeroPad, widthOf ds, isLong, letter⟩ :: ps)

/-- A letter right behind the percent sign. -/
theorem header_letter {letter : Byte} (hlong : letter ≠ letterL) (hdigit : ¬ IsDigit letter) :
    Header false [] 0 [letter] := by
  refine ⟨fun d hd => absurd hd List.not_mem_nil,
    fun _ hc => absurd hc.symm (Option.some_ne_none _), fun hc => hlong (Option.some.inj hc),
    fun _ c hc => ?_⟩
  rw [← Option.some.inj hc]
  exact hdigit

section Scan

variable {fmt : Nat → Byte} {fuel p isLong : Nat} {width : Int} {ds cs rest : List Byte}
  {zeroPad : Bool}

/-- What is found behind some characters of a text. -/
theorem TextAt.append (h : TextAt fmt p (ds ++ rest)) : TextAt fmt (p + ds.length) rest := by
  induction ds generalizing p with
  | nil => exact h
  | cons d ds ih =>
      obtain ⟨-, -, hrest⟩ := h
      have hnext := ih hrest
      rw [List.length_cons, Nat.add_comm ds.length 1, ← Nat.add_assoc]
      exact hnext

/-- The character at the position of a text. -/
theorem TextAt.head (h : TextAt fmt p rest) : fmt p = rest.head?.getD 0 := by
  cases rest with
  | nil => exact h
  | cons c rest => exact h.1

theorem skipWidth_eq (h : TextAt fmt p (ds ++ rest)) (hds : ∀ d ∈ ds, IsDigit d)
    (hrest : ¬ IsDigit (fmt (p + ds.length))) :
    skipWidth fmt fuel p width
      = if ds.length < fuel then some (p + ds.length, ds.foldl addDigit width) else none := by
  induction ds generalizing p width fuel with
  | nil =>
      cases fuel with
      | zero => rfl
      | succ fuel =>
          have hnone : ¬ IsDigit (fmt p) := hrest
          unfold skipWidth
          rw [if_neg hnone]
          exact (if_pos (Nat.succ_pos fuel)).symm
  | cons d ds ih =>
      obtain ⟨hd, -, htail⟩ := h
      have hnext : p + (d :: ds).length = p + 1 + ds.length := by
        rw [List.length_cons]
        omega
      rw [hnext] at hrest ⊢
      cases fuel with
      | zero => rfl
      | succ fuel =>
          unfold skipWidth
          rw [hd, if_pos (hds d List.mem_cons_self),
            ih htail (fun d' hd' => hds d' (List.mem_cons_of_mem d hd')) hrest, List.length_cons,
            List.foldl_cons]
          simp only [Nat.succ_lt_succ_iff]

theorem skipLong_eq {n k : Nat} (h : TextAt fmt p (List.replicate n letterL ++ rest))
    (hrest : rest.head? ≠ some letterL) :
    skipLong fmt fuel p k = if n < fuel then some (p + n, k + n) else none := by
  induction n generalizing p k fuel with
  | zero =>
      have hhead := h.head
      rw [List.replicate_zero, List.nil_append] at hhead
      have hne : fmt p ≠ letterL := by
        intro hc
        rw [hhead] at hc
        cases rest with
        | nil => exact absurd hc (by decide)
        | cons c rest => exact hrest (congrArg some hc)
      cases fuel with
      | zero => rfl
      | succ fuel =>
          unfold skipLong
          rw [if_neg hne, if_pos (Nat.succ_pos fuel)]
          rfl
  | succ n ih =>
      obtain ⟨hl, -, htail⟩ := h
      cases fuel with
      | zero => rfl
      | succ fuel =>
          unfold skipLong
          rw [if_pos hl, ih htail]
          simp only [Nat.succ_lt_succ_iff]
          congr 2
          rw [Nat.add_assoc, Nat.add_assoc, Nat.add_comm 1 n]

theorem letterL_not_digit : ¬ IsDigit letterL := by decide

/-- Flag, width and length. -/
theorem readConversion_eq (hheader : Header zeroPad ds isLong rest)
    (h : TextAt fmt p (flag zeroPad ++ (ds ++ (List.replicate isLong letterL ++ rest)))) :
    readConversion fmt fuel p
      = if ds.length < fuel ∧ isLong < fuel then
          some (p + (flag zeroPad).length + ds.length + isLong,
            ⟨zeroPad, widthOf ds, isLong, rest.head?.getD 0⟩)
        else none := by
  have hafter := h.append
  have hlongs := hafter.append
  have hletter := hlongs.append.head
  rw [List.length_replicate] at hletter
  -- what stands behind the digits is none of them
  have hnodigit : ¬ IsDigit (fmt (p + (flag zeroPad).length + ds.length)) := by
    rw [hlongs.head]
    cases isLong with
    | zero =>
        rw [List.replicate_zero, List.nil_append]
        cases hr : rest.head? with
        | none => exact fun hc => absurd hc (by decide)
        | some c => exact hheader.noDigit rfl c hr
    | succ n => exact letterL_not_digit
  have hflag : decide (fmt p = zero) = zeroPad ∧
      (if zeroPad = true then p + 1 else p) = p + (flag zeroPad).length := by
    cases zeroPad with
    | true => exact ⟨decide_eq_true h.1, rfl⟩
    | false =>
        refine ⟨decide_eq_false (fun hc => ?_), rfl⟩
        rw [h.head] at hc
        cases ds with
        | cons d ds => exact hheader.noFlag rfl (congrArg some hc)
        | nil =>
            have hzero : IsDigit zero := by decide
            rw [← hc, ← h.head] at hzero
            exact hnodigit hzero
  unfold readConversion
  dsimp only
  rw [hflag.1, hflag.2, skipWidth_eq hafter hheader.digits hnodigit]
  by_cases hds : ds.length < fuel
  · rw [if_pos hds, Option.bind_some, skipLong_eq hlongs hheader.noLong]
    by_cases hl : isLong < fuel
    · rw [if_pos hl, if_pos ⟨hds, hl⟩, Option.map_some, Nat.zero_add, hletter]
      rfl
    · rw [if_neg hl, if_neg (fun hc => hl hc.2)]
      rfl
  · rw [if_neg hds, if_neg (fun hc => hds hc.1)]
    rfl

/-- Every text has a header in front. -/
theorem exists_header (cs : List Byte) :
    ∃ zeroPad ds isLong rest, Header zeroPad ds isLong rest ∧
      cs = flag zeroPad ++ (ds ++ (List.replicate isLong letterL ++ rest)) := by
  have hlongs : ∀ cs : List Byte, ∃ n rest, cs = List.replicate n letterL ++ rest ∧
      rest.head? ≠ some letterL := by
    intro cs
    induction cs with
    | nil => exact ⟨0, [], rfl, by simp⟩
    | cons c cs ih =>
        by_cases hc : c = letterL
        · obtain ⟨n, rest, rfl, hrest⟩ := ih
          exact ⟨n + 1, rest, by rw [hc]; rfl, hrest⟩
        · exact ⟨0, c :: cs, rfl, fun hc' => hc (Option.some.inj hc')⟩
  have hwidth : ∀ cs : List Byte, ∃ ds n rest, (∀ d ∈ ds, IsDigit d) ∧
      cs = ds ++ (List.replicate n letterL ++ rest) ∧ rest.head? ≠ some letterL ∧
      (n = 0 → ∀ c, rest.head? = some c → ¬ IsDigit c) := by
    intro cs
    induction cs with
    | nil =>
        exact ⟨[], 0, [], fun d hd => absurd hd List.not_mem_nil, rfl, by simp, fun _ c hc => by
          cases hc⟩
    | cons c cs ih =>
        by_cases hc : IsDigit c
        · obtain ⟨ds, n, rest, hds, rfl, hrest⟩ := ih
          refine ⟨c :: ds, n, rest, fun d hd => ?_, rfl, hrest⟩
          rcases List.mem_cons.mp hd with rfl | hd
          · exact hc
          · exact hds d hd
        · obtain ⟨n, rest, hcs, hrest⟩ := hlongs (c :: cs)
          refine ⟨[], n, rest, fun d hd => absurd hd List.not_mem_nil, hcs, hrest, ?_⟩
          rintro rfl c' hc'
          rw [List.replicate_zero, List.nil_append] at hcs
          rw [← hcs] at hc'
          rw [← Option.some.inj hc']
          exact hc
  by_cases hzero : cs.head? = some zero
  · cases cs with
    | nil => cases hzero
    | cons c cs =>
        obtain ⟨ds, n, rest, hds, hcs, hlong, hdigit⟩ := hwidth cs
        refine ⟨true, ds, n, rest, ⟨hds, fun hc => absurd hc (by decide), hlong, hdigit⟩, ?_⟩
        rw [Option.some.inj hzero, hcs]
        rfl
  · obtain ⟨ds, n, rest, hds, hcs, hlong, hdigit⟩ := hwidth cs
    refine ⟨false, ds, n, rest, ⟨hds, fun _ hc => hzero ?_, hlong, hdigit⟩, hcs⟩
    rw [hcs]
    cases ds with
    | nil => cases hc
    | cons d ds => exact hc

end Scan

/-! ## The calls of a format -/

/-- The calls of a conversion. -/
def Conversion.ops (v : Conversion) (arg : VaArg) : List TextOp := (v.run 64 arg).getD []

/-- The calls of the pieces, with the arguments from the `k`-th on. -/
def renderOps (args : Nat → VaArg) : (k : Nat) → List Piece → List TextOp
  | _, [] => []
  | k, .lit c :: ps => .printc c :: renderOps args k ps
  | k, .conv v :: ps =>
      v.ops (args k) ++ renderOps args (if v.takes = true then k + 1 else k) ps

section Run

variable {fmt : Nat → Byte} {args : Nat → VaArg} {fuel turns isLong : Nat} {ds cs rest : List Byte}
  {zeroPad : Bool} {s s' : Printf} {v : Conversion}

theorem integerOps_fuel (hfuel : 64 ≤ fuel) (val : BitVec 64) (base : Nat) (hbase : 1 < base)
    (width : Int) (zeroPad isSigned : Bool) :
    ∃ ops, integerOps fuel val base width zeroPad isSigned = some ops ∧
      integerOps 64 val base width zeroPad isSigned = some ops := by
  unfold integerOps
  rw [printExInteger_eq hbase hfuel, printExInteger_eq hbase (Nat.le_refl 64)]
  exact ⟨_, rfl, rfl⟩

/-- With enough fuel a conversion makes its calls. -/
theorem Conversion.run_eq (hfuel : 64 ≤ fuel) (v : Conversion) (arg : VaArg) :
    v.run fuel arg = some (v.ops arg) := by
  have hint : ∀ (val : BitVec 64) (base : Nat) (width : Int) (zeroPad isSigned : Bool), 1 < base →
      integerOps fuel val base width zeroPad isSigned
        = some ((integerOps 64 val base width zeroPad isSigned).getD []) := by
    intro val base width zeroPad isSigned hbase
    obtain ⟨ops, hops, hops'⟩ := integerOps_fuel hfuel val base hbase width zeroPad isSigned
    rw [hops, hops']
    rfl
  unfold Conversion.ops run
  split_ifs
  · rfl
  · rfl
  · rfl
  · exact hint _ _ _ _ _ (by decide)
  · exact hint _ _ _ _ _ (by decide)
  · obtain ⟨ops, hops, hops'⟩ := integerOps_fuel hfuel arg.word 16 (by decide) 16 true false
    rw [hops, hops']
    rfl
  · obtain ⟨ops, hops, hops'⟩ := integerOps_fuel hfuel arg.word 16 (by decide) v.width true false
    rw [hops, hops']
    rfl
  · exact hint _ _ _ _ _ (by decide)
  · rfl
  · rfl

/-- One pass over a percent sign and what belongs to it; the letter may be the
    NUL. -/
theorem printfStep_conv (hheader : Header zeroPad ds isLong rest)
    (h : TextAt fmt s.pos
      (percent :: (flag zeroPad ++ (ds ++ (List.replicate isLong letterL ++ rest))))) :
    let v : Conversion := ⟨zeroPad, widthOf ds, isLong, rest.head?.getD 0⟩
    let q := s.pos + 1 + (flag zeroPad).length + ds.length + isLong
    printfStep fuel fmt args s
      = if ds.length < fuel ∧ isLong < fuel then
          (v.run fuel (args s.args)).map (fun ops =>
            { pos := q + 1
              args := if v.takes = true then s.args + 1 else s.args
              ops := s.ops ++ ops
              reads := s.reads ++ List.range' s.pos (q + 1 - s.pos)
              echoed := if v.echoes = true then s.echoed ++ [q] else s.echoed })
        else none := by
  obtain ⟨hpercent, -, htail⟩ := h
  dsimp only
  unfold printfStep
  rw [if_pos hpercent, readConversion_eq hheader htail]
  by_cases hfuel : ds.length < fuel ∧ isLong < fuel
  · rw [if_pos hfuel, if_pos hfuel]
    rfl
  · rw [if_neg hfuel, if_neg hfuel]
    rfl

theorem printfStep_lit {c : Byte} (hc : c ≠ percent) (h : fmt s.pos = c) :
    printfStep fuel fmt args s
      = some
          { pos := s.pos + 1
            args := s.args
            ops := s.ops ++ [.printc c]
            reads := s.reads ++ [s.pos]
            echoed := s.echoed ++ [s.pos] } := by
  unfold printfStep
  rw [h, if_neg hc]

theorem printfLoop_more {c : Byte} {cs : List Byte} (h : TextAt fmt s.pos (c :: cs)) :
    printfLoop fuel fmt args (turns + 1) s
      = (printfStep fuel fmt args s).bind (printfLoop fuel fmt args turns) := by
  obtain ⟨hc, hne, -⟩ := h
  rw [printfLoop, hc, if_neg hne]

/-- What a run leaves, from a state in which `l` characters are left. -/
structure Scanned (s : Printf) (l : Nat) (ops : List TextOp) (s' : Printf) : Prop where
  ops : s'.ops = s.ops ++ ops
  reads : ∀ i ∈ s'.reads, i ∈ s.reads ∨ i ≤ s.pos + l
  echoed : ∀ i ∈ s'.echoed, i ∈ s.echoed ∨ i < s.pos + l

/-- A format of pieces is gone through up to its NUL.  By induction on the
    pieces. -/
theorem printf_pieces {ps : List Piece} (hps : Pieces cs ps) (h : TextAt fmt s.pos cs)
    (hfuel : 64 ≤ fuel) (hlen : cs.length < fuel) (hturns : cs.length < turns) :
    ∃ s', printfLoop fuel fmt args turns s = some s' ∧
      Scanned s cs.length (renderOps args s.args ps) s' := by
  induction hps generalizing s turns with
  | nil =>
      obtain ⟨turns, rfl⟩ := Nat.exists_eq_succ_of_ne_zero (Nat.ne_of_gt hturns)
      refine ⟨_, if_pos h, (List.append_nil _).symm, fun i hi => ?_, fun i hi => Or.inl hi⟩
      rcases List.mem_append.mp hi with hi | hi
      · exact Or.inl hi
      · exact Or.inr (Nat.le_of_eq (List.mem_singleton.mp hi))
  | @lit c cs ps hc hrest ih =>
      obtain ⟨turns, rfl⟩ := Nat.exists_eq_succ_of_ne_zero (Nat.ne_zero_of_lt hturns)
      rw [List.length_cons] at hlen hturns ⊢
      rw [printfLoop_more h, printfStep_lit hc h.1, Option.bind_some]
      obtain ⟨s', hs', hops, hreads, hechoed⟩ :=
        @ih turns ⟨s.pos + 1, s.args, s.ops ++ [.printc c], s.reads ++ [s.pos],
          s.echoed ++ [s.pos]⟩ h.2.2 (by omega) (by omega)
      refine ⟨s', hs', ?_, fun i hi => ?_, fun i hi => ?_⟩
      · rw [hops, List.append_assoc]
        rfl
      · rcases hreads i hi with hi | hi
        · rcases List.mem_append.mp hi with hi | hi
          · exact Or.inl hi
          · rw [List.mem_singleton.mp hi]
            exact Or.inr (Nat.le_add_right _ _)
        · dsimp only at hi
          exact Or.inr (by omega)
      · rcases hechoed i hi with hi | hi
        · rcases List.mem_append.mp hi with hi | hi
          · exact Or.inl hi
          · rw [List.mem_singleton.mp hi]
            exact Or.inr (by omega)
        · dsimp only at hi
          exact Or.inr (by omega)
  | @conv zeroPad ds isLong letter cs ps hheader hrest ih =>
      obtain ⟨turns, rfl⟩ := Nat.exists_eq_succ_of_ne_zero (Nat.ne_zero_of_lt hturns)
      have hsize : (percent :: (flag zeroPad ++ (ds ++ (List.replicate isLong letterL
          ++ letter :: cs)))).length
          = 1 + (flag zeroPad).length + ds.length + isLong + 1 + cs.length := by
        simp only [List.length_cons, List.length_append, List.length_replicate]
        omega
      have hbehind := h.2.2.append.append.append
      rw [List.length_replicate] at hbehind
      rw [hsize] at hlen hturns ⊢
      -- the header and the letter are read, and the letter decides what is printed
      rw [printfLoop_more h, printfStep_conv hheader h, if_pos ⟨by omega, by omega⟩,
        Conversion.run_eq hfuel, Option.map_some, Option.bind_some]
      dsimp only [List.head?_cons, Option.getD_some]
      generalize hq : s.pos + 1 + (flag zeroPad).length + ds.length + isLong = q at hbehind ⊢
      obtain ⟨s', hs', hops, hreads, hechoed⟩ :=
        @ih turns ⟨q + 1,
          if Conversion.takes ⟨zeroPad, widthOf ds, isLong, letter⟩ = true then s.args + 1
            else s.args,
          s.ops ++ Conversion.ops ⟨zeroPad, widthOf ds, isLong, letter⟩ (args s.args),
          s.reads ++ List.range' s.pos (q + 1 - s.pos),
          if Conversion.echoes ⟨zeroPad, widthOf ds, isLong, letter⟩ = true then s.echoed ++ [q]
            else s.echoed⟩
          hbehind.2.2 (by omega) (by omega)
      dsimp only at hops hreads hechoed
      refine ⟨s', hs', ?_, fun i hi => ?_, fun i hi => ?_⟩
      · rw [hops, List.append_assoc]
        rfl
      · rcases hreads i hi with hi | hi
        · rcases List.mem_append.mp hi with hi | hi
          · exact Or.inl hi
          · have hbounds := List.mem_range'_1.mp hi
            exact Or.inr (by omega)
        · exact Or.inr (by omega)
      · rcases hechoed i hi with hi | hi
        · by_cases hecho : Conversion.echoes ⟨zeroPad, widthOf ds, isLong, letter⟩ = true
          · rw [if_pos hecho] at hi
            rcases List.mem_append.mp hi with hi | hi
            · exact Or.inl hi
            · rw [List.mem_singleton.mp hi]
              exact Or.inr (by omega)
          · rw [if_neg hecho] at hi
            exact Or.inl hi
        · exact Or.inr (by omega)

/-! ## Incomplete formats -/

theorem printfStep_echoed (h : printfStep fuel fmt args s = some s') :
    ∀ i ∈ s.echoed, i ∈ s'.echoed := by
  intro i hi
  unfold printfStep at h
  split_ifs at h
  · obtain ⟨r, -, hr⟩ := Option.bind_eq_some_iff.mp h
    obtain ⟨ops, -, rfl⟩ := Option.map_eq_some_iff.mp hr
    dsimp only
    split_ifs
    · exact List.mem_append_left _ hi
    · exact hi
  · injection h with h
    rw [← h]
    exact List.mem_append_left _ hi

/-- What is printed stays printed. -/
theorem printfLoop_echoed (h : printfLoop fuel fmt args turns s = some s') :
    ∀ i ∈ s.echoed, i ∈ s'.echoed := by
  induction turns generalizing s with
  | zero => cases h
  | succ turns ih =>
      intro i hi
      rw [printfLoop] at h
      split_ifs at h
      · injection h with h
        rw [← h]
        exact hi
      · obtain ⟨t, ht, hrest⟩ := Option.bind_eq_some_iff.mp h
        exact ih hrest i (printfStep_echoed ht i hi)

/-- A conversion that ends with the NUL prints it. -/
theorem nul_echoes (zeroPad : Bool) (width : Int) (isLong : Nat) :
    (⟨zeroPad, width, isLong, 0⟩ : Conversion).echoes = true := by
  have hletter : (!decide ((0 : Byte) ∈
      [letterC, letterS, letterI, letterD, letterU, letterX, letterP])
        && decide ((0 : Byte) ≠ percent)) = true := by decide
  exact hletter

/-- A run that ends has printed the NUL, if the format is not made of pieces.  By
    induction on its length. -/
theorem printf_incomplete (hps : ¬ ∃ ps, Pieces cs ps) (h : TextAt fmt s.pos cs)
    (hrun : printfLoop fuel fmt args turns s = some s') : s.pos + cs.length ∈ s'.echoed := by
  induction hn : cs.length using Nat.strong_induction_on generalizing cs s turns with
  | _ n ih =>
      subst hn
      cases cs with
      | nil => exact absurd ⟨[], Pieces.nil⟩ hps
      | cons c cs =>
          cases turns with
          | zero => cases hrun
          | succ turns =>
              rw [printfLoop_more h] at hrun
              obtain ⟨t, ht, hrest⟩ := Option.bind_eq_some_iff.mp hrun
              by_cases hc : c = percent
              · subst hc
                obtain ⟨zeroPad, ds, isLong, rest, hheader, rfl⟩ := exists_header cs
                have hsize : (percent :: (flag zeroPad ++ (ds ++ (List.replicate isLong letterL
                    ++ rest)))).length
                    = 1 + (flag zeroPad).length + ds.length + isLong + rest.length := by
                  simp only [List.length_cons, List.length_append, List.length_replicate]
                  omega
                have hbehind := h.2.2.append.append.append
                rw [List.length_replicate] at hbehind
                rw [printfStep_conv hheader h] at ht
                have hfuel : ds.length < fuel ∧ isLong < fuel := by
                  by_contra hc
                  rw [if_neg hc] at ht
                  cases ht
                rw [if_pos hfuel] at ht
                obtain ⟨ops, -, rfl⟩ := Option.map_eq_some_iff.mp ht
                cases rest with
                | nil =>
                    -- the format ends where the letter should be, and the NUL is taken for it
                    refine printfLoop_echoed hrest _ ?_
                    show _ ∈ if Conversion.echoes ⟨zeroPad, widthOf ds, isLong, 0⟩ = true
                      then s.echoed ++ [_] else s.echoed
                    rw [if_pos (nul_echoes zeroPad (widthOf ds) isLong), hsize]
                    refine List.mem_append_right _ (List.mem_singleton.mpr ?_)
                    rw [List.length_nil]
                    omega
                | cons letter cs =>
                    have hnone : ¬ ∃ ps, Pieces cs ps := by
                      rintro ⟨ps, hcs⟩
                      exact hps ⟨_, Pieces.conv hheader hcs⟩
                    -- the rest is not made of pieces either
                    have hend := ih cs.length (by rw [hsize, List.length_cons]; omega) hnone
                      (by exact hbehind.2.2) hrest rfl
                    rw [hsize, List.length_cons]
                    dsimp only at hend
                    rw [show s.pos + (1 + (flag zeroPad).length + ds.length + isLong
                      + (cs.length + 1)) = s.pos + 1 + (flag zeroPad).length + ds.length + isLong
                        + 1 + cs.length by omega]
                    exact hend
              · rw [printfStep_lit hc h.1] at ht
                injection ht with ht
                subst ht
                have hnone : ¬ ∃ ps, Pieces cs ps := by
                  rintro ⟨ps, hcs⟩
                  exact hps ⟨_, Pieces.lit hc hcs⟩
                have hend := ih cs.length (Nat.lt_succ_self _) hnone h.2.2 hrest rfl
                rw [List.length_cons]
                dsimp only at hend
                rw [show s.pos + (cs.length + 1) = s.pos + 1 + cs.length by omega]
                exact hend

end Run

/-! ## Staying in the string -/

/-- The scan of a format of `l` characters comes to its end, reads nothing
    behind the NUL and does not print it. -/
structure StaysInFormat (l : Nat) (r : Printf) : Prop where
  reads : ∀ i ∈ r.reads, i ≤ l
  echoed : l ∉ r.echoed

/-- A format of pieces makes their calls and stays in the string. -/
theorem printf_complete {fmt : Nat → Byte} {cs : List Byte} {ps : List Piece} {fuel : Nat}
    (h : TextAt fmt 0 cs) (hps : Pieces cs ps) (args : Nat → VaArg)
    (hfuel : cs.length + 64 ≤ fuel) :
    ∃ r, printf fuel fmt args = some r ∧ r.ops = renderOps args 0 ps ∧
      StaysInFormat cs.length r := by
  obtain ⟨r, hrun, hops, hreads, hechoed⟩ :=
    @printf_pieces fmt args fuel fuel cs printfStart ps hps h (by omega) (by omega) (by omega)
  have hlen : printfStart.pos + cs.length = cs.length := Nat.zero_add _
  rw [hlen] at hreads hechoed
  refine ⟨r, hrun, hops, fun i hi => ?_, fun hc => ?_⟩
  · exact (hreads i hi).resolve_left List.not_mem_nil
  · exact absurd ((hechoed _ hc).resolve_left List.not_mem_nil) (Nat.lt_irrefl _)

/-- Both functions stay in the format exactly if it does not end inside a
    conversion. -/
theorem format_stays_iff {fmt : Nat → Byte} {cs : List Byte} (h : TextAt fmt 0 cs)
    (args : Nat → VaArg) (out : List Byte) (s : Screen) :
    (∃ fuel r out', serialPrintf fuel fmt args out = some (r, out') ∧ StaysInFormat cs.length r) ∧
      (∃ fuel r s', vmemPrintf fuel fmt args s = some (r, s') ∧ StaysInFormat cs.length r) ↔
        ∃ ps, Pieces cs ps := by
  constructor
  · rintro ⟨⟨fuel, r, out', hrun, hstays⟩, -⟩
    obtain ⟨r', hprintf, heq⟩ := Option.map_eq_some_iff.mp hrun
    injection heq with heq
    subst heq
    by_contra hnone
    have hnul := printf_incomplete (s := printfStart) hnone h hprintf
    have hlen : printfStart.pos + cs.length = cs.length := Nat.zero_add _
    rw [hlen] at hnul
    exact hstays.echoed hnul
  · rintro ⟨ps, hps⟩
    obtain ⟨r, hprintf, -, hstays⟩ := printf_complete h hps args (Nat.le_refl (cs.length + 64))
    refine ⟨⟨cs.length + 64, r, exec serialOp out r.ops, ?_, hstays⟩,
      ⟨cs.length + 64, r, exec vmemOp s r.ops, ?_, hstays⟩⟩
    · unfold serialPrintf
      rw [hprintf]
      rfl
    · unfold vmemPrintf
      rw [hprintf]
      rfl

/-- A format in memory, with zeros behind it. -/
def formatText (cs : List Byte) : Nat → Byte := fun i => cs.getD i 0

/-- `"%d"` -/
theorem format_stays_number :
    (∃ fuel r out', serialPrintf fuel (formatText [percent, letterD]) (fun _ => ⟨7, []⟩) []
        = some (r, out') ∧ StaysInFormat 2 r) ∧
      ∃ fuel r s', vmemPrintf fuel (formatText [percent, letterD]) (fun _ => ⟨7, []⟩) emptyScreen
        = some (r, s') ∧ StaysInFormat 2 r := by
  have htext : TextAt (formatText [percent, letterD]) 0 [percent, letterD] :=
    ⟨rfl, by decide, rfl, by decide, rfl⟩
  exact (format_stays_iff htext (fun _ => ⟨7, []⟩) [] emptyScreen).mpr
    ⟨_, Pieces.conv (header_letter (by decide) (by decide)) Pieces.nil⟩

/-- `"%"` -/
theorem format_left :
    ¬ ((∃ fuel r out', serialPrintf fuel (formatText [percent]) (fun _ => ⟨0, []⟩) []
        = some (r, out') ∧ StaysInFormat 1 r) ∧
      ∃ fuel r s', vmemPrintf fuel (formatText [percent]) (fun _ => ⟨0, []⟩) emptyScreen
        = some (r, s') ∧ StaysInFormat 1 r) := by
  rintro ⟨⟨fuel, r, out', hrun, hstays⟩, -⟩
  obtain ⟨r', hprintf, heq⟩ := Option.map_eq_some_iff.mp hrun
  injection heq with heq
  subst heq
  have htext : TextAt (formatText [percent]) 0 [percent] := ⟨rfl, by decide, rfl⟩
  have hnone : ¬ ∃ ps, Pieces [percent] ps := by
    rintro ⟨ps, hps⟩
    generalize hcs : [percent] = cs at hps
    cases hps with
    | nil => cases hcs
    | lit hc hrest =>
        injection hcs with hcs
        exact hc hcs.symm
    | conv hheader hrest =>
        have hlength := congrArg List.length hcs
        simp only [List.length_cons, List.length_append, List.length_nil] at hlength
        omega
  exact hstays.echoed (printf_incomplete (s := printfStart) hnone htext hprintf)

end Pfi
