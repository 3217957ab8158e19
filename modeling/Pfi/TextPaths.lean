import Pfi.Format
import Mathlib.Data.List.TakeWhile

/-! # The text paths agree

    The rendered text of a format is its characters and, for each conversion, the
    argument as its letter says (`render`).  It is what the calls of the format
    print, one after the other (`render_eq`).
    The screen and the serial port take these calls in their own ways: a mark
    before a pointer goes to the serial port from both, `serial_printc` knows
    nothing of newlines, and a text ends at its NUL.

    So a list of calls gives both devices the rendered text exactly if each of
    its calls is plain (`agree_iff`).  One that is not shows in a length, of
    what is drawn for a mark and of what is sent for a newline
    (`length_flatMap_eq`), or in a NUL that is sent.  The digits of a number are
    always plain (`integerOps_plain`), so what matters of a format is its
    literals, its letters and the arguments of `%c`
    (`text_paths_agree_iff`). -/

namespace Pfi

open Run Numerals

/-! ## Texts of calls -/

/-- What a call prints. -/
def TextOp.text : TextOp → List Byte
  | .printc c => [c]
  | .print str => cString str
  | .mark => pointerMark

/-- What a call transmits. -/
def TextOp.sent : TextOp → List Byte
  | .printc c => [c]
  | .print str => (cString str).flatMap serialBytes
  | .mark => pointerMark

/-- What a call draws. -/
def TextOp.drawn : TextOp → List Byte
  | .printc c => [c]
  | .print str => cString str
  | .mark => []

/-- A call that both devices take alike. -/
def TextOp.Plain (op : TextOp) : Prop := op ≠ .mark ∧ op ≠ .printc newline ∧ op ≠ .printc 0

/-- A number in a field: its digits behind the sign, with zeros between them or
    spaces before them. -/
def renderInteger (n : Int) (base : Nat) (width : Int) (zeroPad : Bool) : List Byte :=
  let digits := (numeral base n.natAbs).map (fun d => BitVec.ofNat 8 (Nat.digitChar d).toNat)
  let sign := if n < 0 then [minus] else []
  let pad := (width - (digits.length + sign.length)).toNat
  if zeroPad = true then sign ++ List.replicate pad zero ++ digits
  else List.replicate pad space ++ sign ++ digits

/-- An `int`, or a longer signed argument. -/
def VaArg.signed (arg : VaArg) (isLong : Nat) : Int :=
  if 1 ≤ isLong then arg.word.toInt else (arg.word.setWidth 32).toInt

/-- An `unsigned int`, or a longer unsigned argument. -/
def VaArg.unsigned (arg : VaArg) (isLong : Nat) : Nat :=
  if 1 ≤ isLong then arg.word.toNat else arg.word.toNat % 2 ^ 32

/-- An argument as a conversion says. -/
def Conversion.text (v : Conversion) (arg : VaArg) : List Byte :=
  if v.letter = letterC then [arg.word.setWidth 8]
  else if v.letter = letterS then cString (if arg.word = 0 then nullText else arg.str)
  else if v.letter = letterI ∨ v.letter = letterD then
    renderInteger (arg.signed v.isLong) 10 v.width v.zeroPad
  else if v.letter = letterU then renderInteger (arg.unsigned v.isLong) 10 v.width v.zeroPad
  else if v.letter = letterP then
    pointerMark ++ renderInteger arg.word.toNat 16 (if v.width = 0 then 16 else v.width) true
  else if v.letter = letterX then renderInteger (arg.unsigned v.isLong) 16 v.width v.zeroPad
  else [v.letter]

/-- The pieces, with the arguments from the `k`-th on. -/
def renderFrom (args : Nat → VaArg) : (k : Nat) → List Piece → List Byte
  | _, [] => []
  | k, .lit c :: ps => c :: renderFrom args k ps
  | k, .conv v :: ps =>
      v.text (args k) ++ renderFrom args (if v.takes = true then k + 1 else k) ps

/-- The rendered text. -/
def render (args : Nat → VaArg) (ps : List Piece) : List Byte := renderFrom args 0 ps

/-- The screen is as after drawing the text, and the port as after
    `serial_print` of it. -/
structure TextPathsAgree (text : List Byte) (s s' : Screen) (out out' : List Byte) : Prop where
  screen : { s' with serial := [] } = { exec vmemPrintc s text with serial := [] }
  quiet : s.design.serialOut ≠ 1 → s'.serial = s.serial
  port : out' = serialPrint out text

section Render

variable {val : BitVec 64} {base : Nat} {width : Int} {zeroPad isSigned : Bool}

theorem digitByte_digitChar {d : Nat} (hd : d < 16) :
    digitByte d = BitVec.ofNat 8 (Nat.digitChar d).toNat := by
  have hall : ∀ d < 16, digitByte d = BitVec.ofNat 8 (Nat.digitChar d).toNat := by decide
  exact hall d hd

/-- The sign is printed for the negative numbers, and the digits are those of the
    absolute value. -/
theorem magnitude_natAbs (val : BitVec 64) (isSigned : Bool) :
    magnitude val isSigned = (if isSigned = true then val.toInt else (val.toNat : Int)).natAbs ∧
      (Negative val isSigned ↔ (if isSigned = true then val.toInt else (val.toNat : Int)) < 0) := by
  have hneg : Negative val isSigned
      ↔ (if isSigned = true then val.toInt else (val.toNat : Int)) < 0 := by
    unfold Negative
    cases isSigned with
    | true => exact and_iff_right rfl
    | false =>
        refine iff_of_false (fun hc => Bool.false_ne_true hc.1) ?_
        rw [if_neg Bool.false_ne_true]
        omega
  refine ⟨?_, hneg⟩
  rw [← magnitude_eq]
  split
  · rw [Int.natAbs_neg, Int.natAbs_natCast]
  · rfl

/-- What the printing functions print is the number in its field. -/
theorem printExInteger_text (hlow : 1 < base) (hhigh : base ≤ 16) :
    ∃ t, printExInteger 64 val base width zeroPad isSigned = some t ∧
      t.chars = renderInteger (if isSigned = true then val.toInt else (val.toNat : Int)) base width
        zeroPad := by
  obtain ⟨t, pad, ht, -, hchars, hpad⟩ :=
    @printExInteger_shape val base 64 width zeroPad isSigned hlow (Nat.le_refl 64)
  obtain ⟨hmagnitude, hneg⟩ := magnitude_natAbs val isSigned
  have hdigits : (numeral base (magnitude val isSigned)).map digitByte
      = (numeral base (magnitude val isSigned)).map
          (fun d => BitVec.ofNat 8 (Nat.digitChar d).toNat) :=
    List.map_congr_left (fun d hd =>
      digitByte_digitChar (Nat.lt_of_lt_of_le (numeral_lt hlow hd) hhigh))
  have hlen : ((if Negative val isSigned then [minus] else ([] : List Byte)).length : Int)
      = if Negative val isSigned then 1 else 0 := by
    split <;> rfl
  refine ⟨t, ht, hchars.trans ?_⟩
  unfold renderInteger
  dsimp only
  rw [hdigits, ← hmagnitude, List.length_map]
  simp only [← hneg]
  rw [hlen]
  rw [show (width - ((numeral base (magnitude val isSigned)).length
    + (if Negative val isSigned then 1 else 0))).toNat = pad by omega]

/-- The calls for a number print it in its field. -/
theorem integerOps_text (hlow : 1 < base) (hhigh : base ≤ 16) :
    ∃ ops, integerOps 64 val base width zeroPad isSigned = some ops ∧
      ops.flatMap TextOp.text
        = renderInteger (if isSigned = true then val.toInt else (val.toNat : Int)) base width
            zeroPad := by
  obtain ⟨t, ht, hchars⟩ := @printExInteger_text val base width zeroPad isSigned hlow hhigh
  refine ⟨t.chars.map TextOp.printc, ?_, ?_⟩
  · unfold integerOps
    rw [ht]
    rfl
  · rw [← hchars, List.flatMap_map]
    exact List.flatMap_singleton' t.chars

theorem Conversion.signed_toInt (v : Conversion) (arg : VaArg) :
    (v.signed arg).toInt = arg.signed v.isLong := by
  unfold signed VaArg.signed
  split
  · rfl
  · exact BitVec.toInt_signExtend_of_le (by decide)

theorem Conversion.unsigned_toNat (v : Conversion) (arg : VaArg) :
    (v.unsigned arg).toNat = arg.unsigned v.isLong := by
  unfold unsigned VaArg.unsigned
  split
  · rfl
  · rw [BitVec.toNat_setWidth, BitVec.toNat_setWidth]
    omega

/-- The calls of a conversion print what its letter says. -/
theorem Conversion.text_eq (v : Conversion) (arg : VaArg) :
    (v.ops arg).flatMap TextOp.text = v.text arg := by
  have hint : ∀ (val : BitVec 64) (base : Nat) (width : Int) (zeroPad isSigned : Bool),
      1 < base → base ≤ 16 →
      ((integerOps 64 val base width zeroPad isSigned).getD []).flatMap TextOp.text
        = renderInteger (if isSigned = true then val.toInt else (val.toNat : Int)) base width
            zeroPad := by
    intro val base width zeroPad isSigned hlow hhigh
    obtain ⟨ops, hops, htext⟩ := @integerOps_text val base width zeroPad isSigned hlow hhigh
    rw [hops]
    exact htext
  unfold ops run text
  by_cases hC : v.letter = letterC
  · rw [if_pos hC, if_pos hC]
    rfl
  rw [if_neg hC, if_neg hC]
  by_cases hS : v.letter = letterS
  · rw [if_pos hS, if_pos hS]
    exact List.append_nil _
  rw [if_neg hS, if_neg hS]
  by_cases hD : v.letter = letterI ∨ v.letter = letterD
  · rw [if_pos hD, if_pos hD, hint _ _ _ _ _ (by decide) (by decide), if_pos rfl,
      v.signed_toInt arg]
  rw [if_neg hD, if_neg hD]
  by_cases hU : v.letter = letterU
  · rw [if_pos hU, if_pos hU, hint _ _ _ _ _ (by decide) (by decide),
      if_neg Bool.false_ne_true, v.unsigned_toNat arg]
  rw [if_neg hU, if_neg hU]
  by_cases hP : v.letter = letterP
  · obtain ⟨ops, hops, htext⟩ := @integerOps_text arg.word 16
      (if v.width = 0 then 16 else v.width) true false (by decide) (Nat.le_refl 16)
    rw [if_pos hP, if_pos hP, hops, Option.map_some, Option.getD_some, List.flatMap_cons, htext]
    rfl
  rw [if_neg hP, if_neg hP]
  by_cases hX : v.letter = letterX
  · rw [if_pos hX, if_pos hX, hint _ _ _ _ _ (by decide) (Nat.le_refl 16),
      if_neg Bool.false_ne_true, v.unsigned_toNat arg]
  rw [if_neg hX, if_neg hX]
  by_cases hpercent : v.letter = percent
  · rw [if_pos hpercent, hpercent]
    rfl
  · rw [if_neg hpercent]
    rfl

/-- The rendered text is what the calls print.  By induction on the pieces. -/
theorem renderFrom_eq (args : Nat → VaArg) (k : Nat) (ps : List Piece) :
    (renderOps args k ps).flatMap TextOp.text = renderFrom args k ps := by
  induction ps generalizing k with
  | nil => rfl
  | cons p ps ih =>
      cases p with
      | lit c =>
          unfold renderOps renderFrom
          rw [List.flatMap_cons, ih]
          rfl
      | conv v =>
          unfold renderOps renderFrom
          rw [List.flatMap_append, v.text_eq, ih]

theorem render_eq (args : Nat → VaArg) (ps : List Piece) :
    render args ps = (renderOps args 0 ps).flatMap TextOp.text := (renderFrom_eq args 0 ps).symm

end Render

section Calls

variable {s : Screen} {op : TextOp} {ops : List TextOp} {c : Byte} {cs : List Byte}

theorem mem_cString (h : c ∈ cString cs) : c ≠ 0 := by
  have hc := List.mem_takeWhile_imp h
  exact of_decide_eq_true hc

theorem cString_eq_self (h : (0 : Byte) ∉ cs) : cString cs = cs := by
  refine List.takeWhile_eq_self_iff.mpr (fun c hc => decide_eq_true (fun hzero => h ?_))
  rw [← hzero]
  exact hc

theorem serialOp_eq (out : List Byte) (op : TextOp) : serialOp out op = out ++ op.sent := by
  cases op with
  | printc c => rfl
  | print str => exact serialPrint_eq out str
  | mark =>
      have hmark : (cString pointerMark).flatMap serialBytes = pointerMark := by decide
      show serialPrint out pointerMark = _
      rw [serialPrint_eq, hmark]
      rfl

theorem exec_serialOp (out : List Byte) (ops : List TextOp) :
    exec serialOp out ops = out ++ ops.flatMap TextOp.sent := by
  induction ops generalizing out with
  | nil => exact (List.append_nil out).symm
  | cons op ops ih => rw [exec_cons, ih, serialOp_eq, List.flatMap_cons, List.append_assoc]

theorem exec_vmemPrintc_drawn (s : Screen) (cs : List Byte) :
    (exec vmemPrintc s cs).drawn = s.drawn ++ cs := by
  induction cs generalizing s with
  | nil => exact (List.append_nil s.drawn).symm
  | cons c cs ih =>
      rw [exec_cons, ih, vmemPrintc_drawn, List.append_assoc]
      rfl

/-- The design says whether characters go to the serial port; printing does not
    change that. -/
theorem vmemPrintc_serialOut (s : Screen) (c : Byte) :
    (vmemPrintc s c).design.serialOut = s.design.serialOut := by
  by_cases hc : c = newline
  · rw [hc, (vmemPrintc_newline s).1]
  · rw [(vmemPrintc_other hc).1]

theorem exec_vmemPrintc_quiet (h : s.design.serialOut ≠ 1) (cs : List Byte) :
    (exec vmemPrintc s cs).serial = s.serial := by
  induction cs generalizing s with
  | nil => rfl
  | cons c cs ih =>
      have hnext : (vmemPrintc s c).design.serialOut ≠ 1 := by
        rw [vmemPrintc_serialOut]
        exact h
      rw [exec_cons, ih hnext, vmemPrintc_serial, if_neg h, List.append_nil]

theorem exec_vmemOp_drawn (s : Screen) (ops : List TextOp) :
    (exec vmemOp s ops).drawn = s.drawn ++ ops.flatMap TextOp.drawn := by
  have hop : ∀ (s : Screen) (op : TextOp), (vmemOp s op).drawn = s.drawn ++ op.drawn := by
    intro s op
    cases op with
    | printc c => exact vmemPrintc_drawn s c
    | print str => exact exec_vmemPrintc_drawn s (cString str)
    | mark => exact (List.append_nil s.drawn).symm
  induction ops generalizing s with
  | nil => exact (List.append_nil s.drawn).symm
  | cons op ops ih => rw [exec_cons, ih, hop, List.flatMap_cons, List.append_assoc]

/-- Without marks, the screen gets the text. -/
theorem exec_vmemOp (s : Screen) (h : ∀ op ∈ ops, op ≠ .mark) :
    exec vmemOp s ops = exec vmemPrintc s (ops.flatMap TextOp.text) := by
  induction ops generalizing s with
  | nil => rfl
  | cons op ops ih =>
      rw [exec_cons, List.flatMap_cons, exec_append, ih _ (fun op' hop' =>
        h op' (List.mem_cons_of_mem op hop'))]
      cases op with
      | printc c => rfl
      | print str => rfl
      | mark => exact absurd rfl (h .mark List.mem_cons_self)

end Calls

/-! ## Plain calls -/

/-- Parts that are no longer than their counterparts, and as long together, are
    as long each. -/
theorem length_flatMap_eq {α β γ : Type} {f : α → List β} {g : α → List γ} {as : List α}
    (hle : ∀ a ∈ as, (f a).length ≤ (g a).length)
    (h : (as.flatMap f).length = (as.flatMap g).length) :
    ∀ a ∈ as, (f a).length = (g a).length := by
  have hall : ∀ as : List α, (∀ a ∈ as, (f a).length ≤ (g a).length) →
      (as.flatMap f).length ≤ (as.flatMap g).length := by
    intro as hle
    induction as with
    | nil => exact Nat.le_refl 0
    | cons a as ih =>
        have hhead := hle a List.mem_cons_self
        have htail := ih (fun b hb => hle b (List.mem_cons_of_mem a hb))
        rw [List.flatMap_cons, List.flatMap_cons, List.length_append, List.length_append]
        omega
  induction as with
  | nil => exact fun a ha => absurd ha List.not_mem_nil
  | cons a as ih =>
      rw [List.flatMap_cons, List.flatMap_cons, List.length_append, List.length_append] at h
      have hhead := hle a List.mem_cons_self
      have hle' : ∀ b ∈ as, (f b).length ≤ (g b).length :=
        fun b hb => hle b (List.mem_cons_of_mem a hb)
      have htail := hall as hle'
      intro b hb
      rcases List.mem_cons.mp hb with rfl | hb
      · omega
      · exact ih hle' (by omega) b hb

theorem serialBytes_length (cs : List Byte) : cs.length ≤ (cs.flatMap serialBytes).length := by
  induction cs with
  | nil => exact Nat.le_refl 0
  | cons c cs ih =>
      have hone : 1 ≤ (serialBytes c).length := by
        unfold serialBytes
        split
        · decide
        · exact Nat.le_refl 1
      rw [List.flatMap_cons, List.length_append, List.length_cons]
      omega

section Plain

variable {ops : List TextOp}

/-- No call draws more than its text, and a mark draws less. -/
theorem drawn_length (op : TextOp) :
    op.drawn.length ≤ op.text.length ∧ (op.drawn.length = op.text.length → op ≠ .mark) := by
  cases op with
  | printc c => exact ⟨Nat.le_refl _, fun _ hc => by cases hc⟩
  | print str => exact ⟨Nat.le_refl _, fun _ hc => by cases hc⟩
  | mark => exact ⟨Nat.zero_le _, fun hc => absurd hc (by decide)⟩

/-- No call sends more than `serial_print` of its text, and a newline alone
    sends less. -/
theorem sent_length (op : TextOp) :
    op.sent.length ≤ (op.text.flatMap serialBytes).length ∧
      (op.sent.length = (op.text.flatMap serialBytes).length → op ≠ .printc newline) := by
  cases op with
  | printc c =>
      refine ⟨serialBytes_length [c], fun hlen hc => ?_⟩
      rw [TextOp.printc.inj hc] at hlen
      exact absurd hlen (by decide)
  | print str => exact ⟨Nat.le_refl _, fun _ hc => by cases hc⟩
  | mark => exact ⟨by decide, fun _ hc => by cases hc⟩

/-- A plain call sends what `serial_print` sends. -/
theorem TextOp.Plain.sent {op : TextOp} (h : op.Plain) : op.sent = op.text.flatMap serialBytes := by
  cases op with
  | printc c =>
      have hc : c ≠ newline := fun hc => h.2.1 (congrArg TextOp.printc hc)
      show [c] = serialBytes c ++ []
      rw [serialBytes, if_neg hc, List.append_nil]
  | print str => rfl
  | mark => exact absurd rfl h.1

/-- A NUL in a text is a character of its own. -/
theorem eq_of_nul_mem {op : TextOp} (h : (0 : Byte) ∈ op.text) : op = .printc 0 := by
  cases op with
  | printc c => rw [← List.mem_singleton.mp h]
  | print str => exact absurd rfl (mem_cString h)
  | mark => exact absurd h (by decide)

theorem nul_notMem (h : TextOp.printc 0 ∉ ops) : (0 : Byte) ∉ ops.flatMap TextOp.text := by
  intro hmem
  obtain ⟨op, hop, hnul⟩ := List.mem_flatMap.mp hmem
  rw [eq_of_nul_mem hnul] at hop
  exact h hop

/-- Both devices get the text exactly if all of its calls are plain. -/
theorem agree_iff (ops : List TextOp) (s : Screen) (out : List Byte) :
    TextPathsAgree (ops.flatMap TextOp.text) s (exec vmemOp s ops) out (exec serialOp out ops) ↔
      ∀ op ∈ ops, op.Plain := by
  constructor
  · rintro ⟨hscreen, -, hport⟩
    have hmark : ∀ op ∈ ops, op ≠ .mark := by
      have hdrawn := congrArg Screen.drawn hscreen
      dsimp only at hdrawn
      rw [exec_vmemOp_drawn, exec_vmemPrintc_drawn] at hdrawn
      have hlen := congrArg List.length (List.append_cancel_left hdrawn)
      intro op hop
      exact (drawn_length op).2 (length_flatMap_eq (fun op _ => (drawn_length op).1) hlen op hop)
    rw [exec_serialOp, serialPrint_eq] at hport
    have hsent := List.append_cancel_left hport
    have hnul : TextOp.printc 0 ∉ ops := by
      intro hmem
      have hzero : (0 : Byte) ∈ ops.flatMap TextOp.sent :=
        List.mem_flatMap.mpr ⟨_, hmem, List.mem_singleton.mpr rfl⟩
      rw [hsent] at hzero
      obtain ⟨c, hc, hbyte⟩ := List.mem_flatMap.mp hzero
      unfold serialBytes at hbyte
      split_ifs at hbyte
      · exact absurd hbyte (by decide)
      · exact mem_cString hc (List.mem_singleton.mp hbyte).symm
    have hnewline : ∀ op ∈ ops, op ≠ .printc newline := by
      rw [cString_eq_self (nul_notMem hnul), List.flatMap_assoc] at hsent
      have hlen := congrArg List.length hsent
      intro op hop
      exact (sent_length op).2 (length_flatMap_eq (fun op _ => (sent_length op).1) hlen op hop)
    intro op hop
    refine ⟨hmark op hop, hnewline op hop, fun hc => hnul ?_⟩
    rw [← hc]
    exact hop
  · intro hplain
    have hnul : TextOp.printc 0 ∉ ops := fun hmem => (hplain _ hmem).2.2 rfl
    rw [exec_vmemOp s (fun op hop => (hplain op hop).1)]
    refine ⟨rfl, fun hquiet => exec_vmemPrintc_quiet hquiet _, ?_⟩
    rw [exec_serialOp, serialPrint_eq, cString_eq_self (nul_notMem hnul), List.flatMap_assoc]
    exact congrArg (out ++ ·) (List.flatMap_congr (fun op hop => (hplain op hop).sent))

end Plain

/-! ## Plain formats -/

/-- No pointer, and no newline or NUL as a character of its own. -/
def PlainConversion (v : Conversion) (arg : VaArg) : Prop :=
  v.letter ≠ letterP ∧ v.letter ≠ newline ∧
    (v.letter = letterC → arg.word.setWidth 8 ≠ newline ∧ arg.word.setWidth 8 ≠ (0 : Byte))

instance (v : Conversion) (arg : VaArg) : Decidable (PlainConversion v arg) :=
  inferInstanceAs (Decidable (_ ∧ _))

/-- The pieces with the arguments from the `k`-th on. -/
def PlainPieces (args : Nat → VaArg) : (k : Nat) → List Piece → Prop
  | _, [] => True
  | k, .lit c :: ps => c ≠ newline ∧ PlainPieces args k ps
  | k, .conv v :: ps =>
      PlainConversion v (args k) ∧ PlainPieces args (if v.takes = true then k + 1 else k) ps

section Formats

variable {args : Nat → VaArg} {cs : List Byte} {ps : List Piece}

theorem TextOp.plain_printc {c : Byte} : (TextOp.printc c).Plain ↔ c ≠ newline ∧ c ≠ 0 := by
  unfold TextOp.Plain
  rw [Ne, Ne, Ne, TextOp.printc.injEq, TextOp.printc.injEq]
  exact and_iff_right (fun hc => by cases hc)

theorem TextOp.plain_print (str : List Byte) : (TextOp.print str).Plain :=
  ⟨fun hc => TextOp.noConfusion hc, fun hc => TextOp.noConfusion hc,
    fun hc => TextOp.noConfusion hc⟩

/-- Spaces, sign and digits. -/
theorem integerOps_plain {base : Nat} (hlow : 1 < base) (hhigh : base ≤ 16) (val : BitVec 64)
    (width : Int) (zeroPad isSigned : Bool) :
    ∃ ops, integerOps 64 val base width zeroPad isSigned = some ops ∧ ∀ op ∈ ops, op.Plain := by
  obtain ⟨t, pad, ht, -, hchars, -⟩ :=
    @printExInteger_shape val base 64 width zeroPad isSigned hlow (Nat.le_refl 64)
  refine ⟨t.chars.map TextOp.printc, ?_, fun op hop => ?_⟩
  · unfold integerOps
    rw [ht]
    rfl
  · obtain ⟨c, hc, rfl⟩ := List.mem_map.mp hop
    rw [TextOp.plain_printc]
    have hdigits : c ∈ (numeral base (magnitude val isSigned)).map digitByte →
        c ≠ newline ∧ c ≠ 0 := by
      intro hc
      obtain ⟨d, hd, rfl⟩ := List.mem_map.mp hc
      have hall : ∀ d < 16, digitByte d ≠ newline ∧ digitByte d ≠ 0 := by decide
      exact hall d (Nat.lt_of_lt_of_le (numeral_lt hlow hd) hhigh)
    have hsign : c ∈ (if Negative val isSigned then [minus] else []) → c ≠ newline ∧ c ≠ 0 := by
      intro hc
      split_ifs at hc
      · rw [List.mem_singleton.mp hc]
        decide
      · exact absurd hc List.not_mem_nil
    have hpad : ∀ p : Byte, p ≠ newline ∧ p ≠ 0 → c ∈ List.replicate pad p →
        c ≠ newline ∧ c ≠ 0 := by
      intro p hp hc
      rw [List.eq_of_mem_replicate hc]
      exact hp
    rw [hchars] at hc
    cases zeroPad with
    | true =>
        rw [if_pos rfl] at hc
        rcases List.mem_append.mp hc with hc | hc
        · rcases List.mem_append.mp hc with hc | hc
          · exact hsign hc
          · exact hpad zero (by decide) hc
        · exact hdigits hc
    | false =>
        rw [if_neg Bool.false_ne_true] at hc
        rcases List.mem_append.mp hc with hc | hc
        · rcases List.mem_append.mp hc with hc | hc
          · exact hpad space (by decide) hc
          · exact hsign hc
        · exact hdigits hc

/-- The calls of a conversion. -/
theorem Conversion.plain_iff {v : Conversion} (hletter : v.letter ≠ 0) (arg : VaArg) :
    (∀ op ∈ v.ops arg, op.Plain) ↔ PlainConversion v arg := by
  have hint : ∀ (val : BitVec 64) (base : Nat), 1 < base → base ≤ 16 →
      ∀ (width : Int) (zeroPad isSigned : Bool),
        ∀ op ∈ (integerOps 64 val base width zeroPad isSigned).getD [], op.Plain := by
    intro val base hlow hhigh width zeroPad isSigned
    obtain ⟨ops, hops, hplain⟩ := integerOps_plain hlow hhigh val width zeroPad isSigned
    rw [hops]
    exact hplain
  have hother : ∀ l : Byte, v.letter = l → l ≠ letterC → l ≠ letterP → l ≠ newline →
      PlainConversion v arg := by
    rintro l rfl hc hp hn
    exact ⟨hp, hn, fun h => absurd h hc⟩
  unfold Conversion.ops Conversion.run
  -- in the order of the switch; `%c` may be given any character
  by_cases hC : v.letter = letterC
  · rw [if_pos hC, Option.getD_some, List.forall_mem_singleton, TextOp.plain_printc]
    unfold PlainConversion
    rw [hC]
    exact ⟨fun h => ⟨by decide, by decide, fun _ => h⟩, fun h => h.2.2 rfl⟩
  rw [if_neg hC]
  by_cases hS : v.letter = letterS
  · rw [if_pos hS, Option.getD_some, List.forall_mem_singleton]
    exact iff_of_true (TextOp.plain_print _) (hother _ hS (by decide) (by decide) (by decide))
  rw [if_neg hS]
  by_cases hD : v.letter = letterI ∨ v.letter = letterD
  · rw [if_pos hD]
    refine iff_of_true (hint _ 10 (by decide) (by decide) _ _ _) ?_
    rcases hD with hD | hD
    · exact hother _ hD (by decide) (by decide) (by decide)
    · exact hother _ hD (by decide) (by decide) (by decide)
  rw [if_neg hD]
  by_cases hU : v.letter = letterU
  · rw [if_pos hU]
    exact iff_of_true (hint _ 10 (by decide) (by decide) _ _ _)
      (hother _ hU (by decide) (by decide) (by decide))
  rw [if_neg hU]
  by_cases hP : v.letter = letterP
  · rw [if_pos hP]
    obtain ⟨ops, hops, -⟩ := integerOps_plain (by decide) (Nat.le_refl 16) arg.word
      (if v.width = 0 then 16 else v.width) true false
    rw [hops, Option.map_some, Option.getD_some]
    exact iff_of_false (fun h => (h _ List.mem_cons_self).1 rfl) (fun h => h.1 hP)
  rw [if_neg hP]
  by_cases hX : v.letter = letterX
  · rw [if_pos hX]
    exact iff_of_true (hint _ 16 (by decide) (Nat.le_refl 16) _ _ _)
      (hother _ hX (by decide) (by decide) (by decide))
  rw [if_neg hX]
  -- an unknown letter is printed as it is
  by_cases hpercent : v.letter = percent
  · rw [if_pos hpercent, Option.getD_some, List.forall_mem_singleton]
    exact iff_of_true (TextOp.plain_printc.mpr (by decide))
      (hother _ hpercent (by decide) (by decide) (by decide))
  · rw [if_neg hpercent, Option.getD_some, List.forall_mem_singleton, TextOp.plain_printc]
    exact ⟨fun h => ⟨hP, h.1, fun hc => absurd hc hC⟩, fun h => ⟨h.2.1, hletter⟩⟩

/-- The calls of a format, whose characters are not NUL.  By induction on the
    pieces. -/
theorem renderOps_plain_iff (hps : Pieces cs ps) (hcs : (0 : Byte) ∉ cs) (k : Nat) :
    (∀ op ∈ renderOps args k ps, op.Plain) ↔ PlainPieces args k ps := by
  induction hps generalizing k with
  | nil => exact iff_of_true (fun op hop => absurd hop List.not_mem_nil) trivial
  | @lit c cs ps hc hrest ih =>
      have hchar : c ≠ 0 := fun hzero => hcs (hzero ▸ List.mem_cons_self)
      unfold renderOps PlainPieces
      rw [List.forall_mem_cons, TextOp.plain_printc, ih (fun h => hcs (List.mem_cons_of_mem c h)) k]
      exact and_congr_left (fun _ => and_iff_left hchar)
  | @conv zeroPad ds isLong letter cs ps hheader hrest ih =>
      have hmem : ∀ c ∈ letter :: cs, c ∈ percent :: (flag zeroPad ++ (ds
          ++ (List.replicate isLong letterL ++ letter :: cs))) :=
        fun c hc => List.mem_cons_of_mem _ (List.mem_append_right _ (List.mem_append_right _
          (List.mem_append_right _ hc)))
      have hletter : letter ≠ 0 := fun hzero => hcs (hmem 0 (hzero ▸ List.mem_cons_self))
      unfold renderOps PlainPieces
      rw [List.forall_mem_append, Conversion.plain_iff hletter,
        ih (fun h => hcs (hmem 0 (List.mem_cons_of_mem letter h)))]

theorem TextAt.nul_notMem {fmt : Nat → Byte} {p : Nat} (h : TextAt fmt p cs) : (0 : Byte) ∉ cs := by
  induction cs generalizing p with
  | nil => exact List.not_mem_nil
  | cons c cs ih =>
      obtain ⟨-, hc, hrest⟩ := h
      intro hmem
      rcases List.mem_cons.mp hmem with hzero | hmem
      · exact hc hzero.symm
      · exact ih hrest hmem

/-- Both functions print the rendered text exactly if its calls are plain. -/
theorem printf_agree_iff {fmt : Nat → Byte} (h : TextAt fmt 0 cs) (hps : Pieces cs ps)
    (args : Nat → VaArg) (out : List Byte) (s : Screen) {fuel : Nat}
    (hfuel : cs.length + 64 ≤ fuel) :
    (∃ r out' s', serialPrintf fuel fmt args out = some (r, out') ∧
        vmemPrintf fuel fmt args s = some (r, s') ∧
        TextPathsAgree (render args ps) s s' out out') ↔
      ∀ op ∈ renderOps args 0 ps, op.Plain := by
  obtain ⟨r, hprintf, hops, -⟩ := printf_complete h hps args hfuel
  have hserial : serialPrintf fuel fmt args out = some (r, exec serialOp out r.ops) := by
    unfold serialPrintf
    rw [hprintf]
    rfl
  have hvmem : vmemPrintf fuel fmt args s = some (r, exec vmemOp s r.ops) := by
    unfold vmemPrintf
    rw [hprintf]
    rfl
  rw [render_eq, ← agree_iff _ s out, hserial, hvmem, hops]
  constructor
  · rintro ⟨r', out', s', hout, hs, hagree⟩
    have hout' := congrArg Prod.snd (Option.some.inj hout)
    have hs' := congrArg Prod.snd (Option.some.inj hs)
    dsimp only at hout' hs'
    rw [hout', hs']
    exact hagree
  · intro hagree
    exact ⟨r, _, _, rfl, rfl, hagree⟩

end Formats

/-- For a complete format and any arguments, both functions print the rendered
    text exactly if the pieces are plain. -/
theorem text_paths_agree_iff {fmt : Nat → Byte} {cs : List Byte} {ps : List Piece}
    (h : TextAt fmt 0 cs) (hps : Pieces cs ps) (args : Nat → VaArg) (out : List Byte) (s : Screen)
    {fuel : Nat} (hfuel : cs.length + 64 ≤ fuel) :
    (∃ r out' s', serialPrintf fuel fmt args out = some (r, out') ∧
        vmemPrintf fuel fmt args s = some (r, s') ∧
        TextPathsAgree (render args ps) s s' out out') ↔
      PlainPieces args 0 ps := by
  rw [printf_agree_iff h hps args out s hfuel]
  exact renderOps_plain_iff hps h.nul_notMem 0

/-- `"a%d"` -/
theorem text_paths_agree_number :
    ∃ r out' s', serialPrintf 67 (formatText [0x61, percent, letterD]) (fun _ => ⟨7, []⟩) []
        = some (r, out') ∧
      vmemPrintf 67 (formatText [0x61, percent, letterD]) (fun _ => ⟨7, []⟩) emptyScreen
        = some (r, s') ∧
      TextPathsAgree (render (fun _ => ⟨7, []⟩) [.lit 0x61, .conv ⟨false, 0, 0, letterD⟩])
        emptyScreen s' [] out' := by
  have htext : TextAt (formatText [0x61, percent, letterD]) 0 [0x61, percent, letterD] :=
    ⟨rfl, by decide, rfl, by decide, rfl, by decide, rfl⟩
  have hconv : Pieces [percent, letterD] [.conv ⟨false, 0, 0, letterD⟩] :=
    Pieces.conv (header_letter (by decide) (by decide)) Pieces.nil
  exact (text_paths_agree_iff htext (Pieces.lit (by decide) hconv) (fun _ => ⟨7, []⟩) []
    emptyScreen (by decide)).mpr ⟨by decide, by decide, trivial⟩

/-- `"%p"`, whose mark is not drawn, and `"\n"`, which is sent without a carriage
    return. -/
theorem text_paths_differ :
    (¬ ∃ r out' s', serialPrintf 66 (formatText [percent, letterP]) (fun _ => ⟨0, []⟩) []
          = some (r, out') ∧
        vmemPrintf 66 (formatText [percent, letterP]) (fun _ => ⟨0, []⟩) emptyScreen
          = some (r, s') ∧
        TextPathsAgree (render (fun _ => ⟨0, []⟩) [.conv ⟨false, 0, 0, letterP⟩])
          emptyScreen s' [] out') ∧
      ¬ ∃ r out' s', serialPrintf 65 (formatText [newline]) (fun _ => ⟨0, []⟩) []
          = some (r, out') ∧
        vmemPrintf 65 (formatText [newline]) (fun _ => ⟨0, []⟩) emptyScreen = some (r, s') ∧
        TextPathsAgree (render (fun _ => ⟨0, []⟩) [.lit newline]) emptyScreen s' [] out' := by
  constructor
  · have htext : TextAt (formatText [percent, letterP]) 0 [percent, letterP] :=
      ⟨rfl, by decide, rfl, by decide, rfl⟩
    have hps : Pieces [percent, letterP] [.conv ⟨false, 0, 0, letterP⟩] :=
      Pieces.conv (header_letter (by decide) (by decide)) Pieces.nil
    rw [printf_agree_iff htext hps _ _ _ (by decide), renderOps_plain_iff hps htext.nul_notMem 0]
    exact fun h => h.1.1 rfl
  · have htext : TextAt (formatText [newline]) 0 [newline] := ⟨rfl, by decide, rfl⟩
    have hps := Pieces.lit (show newline ≠ percent by decide) Pieces.nil
    rw [printf_agree_iff htext hps _ _ _ (by decide), renderOps_plain_iff hps htext.nul_notMem 0]
    exact fun h => h.1 rfl

end Pfi
