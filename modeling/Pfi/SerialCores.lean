import Pfi.Sections
import Pfi.TextPaths

/-! # The serial port of several cores

    `serial_printc` waits under `serialc_lock` until the transmit register is
    empty and writes it.  `serial_print` holds `serialp_lock` while it sends a
    text, and `serial_printf` holds `serialf_lock` while it sends what its format
    makes, some of it with `serial_print`.  The video console sends its characters
    one at a time, and the mark of a pointer with `serial_print`.

    Each of these codes is in its sections (`SerialCall.within`), which is all
    that the library asks of it, and the texts of its sections are those that its
    call says (`textsUnder_code`).  So on any number of cores, whatever the
    interleaving and the speed of the port, no byte is lost, and the texts of
    `serial_print` are sent one after the other, each whole and those of a core in
    the order of its calls, and so are those of `serial_printf`
    (`serial_output_whole`).  Nothing keeps a text of the one from being cut by
    the other. -/

namespace Pfi

open Run Sections

/-! ## The code -/

/-- `serialf_lock`, `serialp_lock` and `serialc_lock`. -/
inductive SerialLock where
  | serialf
  | serialp
  | serialc
deriving DecidableEq

/-- The accesses of a core to the locks and to the port. -/
abbrev SerialCode := List (Act SerialLock Byte)

/-- `serial_printc` -/
def printcCode (c : Byte) : SerialCode := guarded .serialc [.ready, .put c]

/-- The body of the loop of `serial_print`. -/
def printStepCode (c : Byte) : SerialCode :=
  (if c = newline then printcCode carriageReturn else []) ++ printcCode c

/-- `serial_print` -/
def printCode (str : List Byte) : SerialCode :=
  guarded .serialp ((cString str).flatMap printStepCode)

/-- What `serial_printf` calls. -/
def opCode : TextOp → SerialCode
  | .printc c => printcCode c
  | .print str => printCode str
  | .mark => printCode pointerMark

/-- `serial_printf`, with the calls that its format makes. -/
def printfCode (ops : List TextOp) : SerialCode := guarded .serialf (ops.flatMap opCode)

/-- The end of `vmem_printc`. -/
def copyCode (serialOut : BitVec 8) (c : Byte) : SerialCode :=
  if serialOut = 1 then printcCode c else []

/-- What the video console calls. -/
def vmemCode (serialOut : BitVec 8) : TextOp → SerialCode
  | .printc c => copyCode serialOut c
  | .print str => (cString str).flatMap (copyCode serialOut)
  | .mark => printCode pointerMark

/-- A call of the serial port or of the video console. -/
inductive SerialCall where
  | printc (c : Byte)
  | print (str : List Byte)
  | printf (ops : List TextOp)
  | vmem (s : Screen) (ops : List TextOp)

/-- The accesses of a call. -/
def SerialCall.code : SerialCall → SerialCode
  | .printc c => printcCode c
  | .print str => printCode str
  | .printf ops => printfCode ops
  | .vmem s ops => ops.flatMap (vmemCode s.design.serialOut)

/-- What a call sends when it runs alone. -/
def SerialCall.bytes : SerialCall → List Byte
  | .printc c => serialPrintc [] c
  | .print str => serialPrint [] str
  | .printf ops => exec serialOp [] ops
  | .vmem s ops => (exec vmemOp { s with serial := [] } ops).serial

/-- What `serial_printf` sends with `serial_print`. -/
def TextOp.printed : TextOp → List (List Byte)
  | .printc _ => []
  | .print str => [serialPrint [] str]
  | .mark => [serialPrint [] pointerMark]

/-- What the video console sends with `serial_print`. -/
def TextOp.printedMark : TextOp → List (List Byte)
  | .printc _ => []
  | .print _ => []
  | .mark => [serialPrint [] pointerMark]

/-- The texts that a call sends with a lock held, in order: those of
    `serial_printf`, those of `serial_print`, and single bytes. -/
def SerialLock.texts : SerialLock → SerialCall → List (List Byte)
  | .serialf, .printf ops => [exec serialOp [] ops]
  | .serialf, _ => []
  | .serialp, .print str => [serialPrint [] str]
  | .serialp, .printf ops => ops.flatMap TextOp.printed
  | .serialp, .vmem _ ops => ops.flatMap TextOp.printedMark
  | .serialp, .printc _ => []
  | .serialc, call => call.bytes.map (fun b => [b])

/-! ## Sections -/

section Codes

variable {l : SerialLock}

/-- `serial_printc` sends its character. -/
@[simp] theorem puts_printcCode (c : Byte) : puts (printcCode c) = [c] := rfl

/-- What is sent by codes that follow each other. -/
theorem puts_flatMap {α : Type} (as : List α) (f : α → SerialCode) :
    puts (as.flatMap f) = as.flatMap (fun a => puts (f a)) := by
  induction as with
  | nil => rfl
  | cons a as ih => rw [List.flatMap_cons, List.flatMap_cons, puts_append, ih]

/-- A character of a string is sent with a carriage return in front of a line
    feed. -/
@[simp] theorem puts_printStepCode (c : Byte) : puts (printStepCode c) = serialBytes c := by
  unfold printStepCode serialBytes
  by_cases h : c = newline
  · rw [if_pos h, if_pos h, puts_append, puts_printcCode, puts_printcCode, h]
    rfl
  · rw [if_neg h, if_neg h, List.nil_append, puts_printcCode]

/-- The code of `serial_print` sends what the function alone does. -/
theorem puts_printCode (str : List Byte) : puts (printCode str) = serialPrint [] str := by
  unfold printCode
  rw [puts_guarded, puts_flatMap, serialPrint_eq, List.nil_append]
  simp only [puts_printStepCode]

/-- The code of an output operation sends what the operation alone does. -/
theorem puts_opCode (op : TextOp) : puts (opCode op) = serialOp [] op := by
  cases op with
  | printc c => rfl
  | print str => exact puts_printCode str
  | mark => exact puts_printCode pointerMark

/-- The code of `serial_printf` sends what the function alone does. -/
theorem puts_printfCode (ops : List TextOp) : puts (printfCode ops) = exec serialOp [] ops := by
  unfold printfCode
  rw [puts_guarded, puts_flatMap, exec_serialOp, List.nil_append]
  refine congrArg (fun f => ops.flatMap f) (funext (fun op => ?_))
  rw [puts_opCode, serialOp_eq, List.nil_append]

/-- The console sends a character on if the design says so. -/
theorem puts_copyCode (serialOut : BitVec 8) (c : Byte) :
    puts (copyCode serialOut c) = if serialOut = 1 then [c] else [] := by
  unfold copyCode
  by_cases h : serialOut = 1
  · rw [if_pos h, if_pos h, puts_printcCode]
  · rw [if_neg h, if_neg h, puts_nil]

/-- A text on the video console. -/
theorem exec_vmemPrintc_serial (s : Screen) (cs : List Byte) :
    (exec vmemPrintc s cs).serial
        = s.serial ++ puts (cs.flatMap (copyCode s.design.serialOut))
      ∧ (exec vmemPrintc s cs).design.serialOut = s.design.serialOut := by
  induction cs generalizing s with
  | nil => exact ⟨(List.append_nil s.serial).symm, rfl⟩
  | cons c cs ih =>
      obtain ⟨hserial, hout⟩ := ih (vmemPrintc s c)
      rw [vmemPrintc_serialOut] at hserial hout
      refine ⟨?_, hout⟩
      rw [exec_cons, hserial, vmemPrintc_serial, List.flatMap_cons, puts_append, puts_copyCode,
        List.append_assoc]

/-- An output operation of the console sends what its code does, and keeps the
    design's wish for a copy. -/
theorem vmemOp_serial (s : Screen) (op : TextOp) :
    (vmemOp s op).serial = s.serial ++ puts (vmemCode s.design.serialOut op)
      ∧ (vmemOp s op).design.serialOut = s.design.serialOut := by
  cases op with
  | printc c =>
      refine ⟨?_, vmemPrintc_serialOut s c⟩
      show (vmemPrintc s c).serial = s.serial ++ puts (copyCode s.design.serialOut c)
      rw [vmemPrintc_serial, puts_copyCode]
  | print str => exact exec_vmemPrintc_serial s (cString str)
  | mark =>
      refine ⟨?_, rfl⟩
      show serialPrint s.serial pointerMark = s.serial ++ puts (printCode pointerMark)
      rw [puts_printCode, serialPrint_eq, serialPrint_eq, List.nil_append]

/-- So do the operations of a format. -/
theorem exec_vmemOp_serial (s : Screen) (ops : List TextOp) :
    (exec vmemOp s ops).serial
      = s.serial ++ puts (ops.flatMap (vmemCode s.design.serialOut)) := by
  induction ops generalizing s with
  | nil => exact (List.append_nil s.serial).symm
  | cons op ops ih =>
      obtain ⟨hserial, hout⟩ := vmemOp_serial s op
      rw [exec_cons, ih, hserial, hout, List.flatMap_cons, puts_append, List.append_assoc]

/-- A call sends what it sends when it runs alone. -/
theorem puts_code (call : SerialCall) : puts call.code = call.bytes := by
  cases call with
  | printc c => rfl
  | print str => exact puts_printCode str
  | printf ops => exact puts_printfCode ops
  | vmem s ops => exact (exec_vmemOp_serial { s with serial := [] } ops).symm

/-- A character of a string is one or two sections under `serialc_lock`. -/
theorem block_printStepCode (c : Byte) : Block .serialc [.serialc] (printStepCode c) := by
  unfold printStepCode
  by_cases h : c = newline
  · rw [if_pos h]
    exact (Block.put carriageReturn).append (Block.put c)
  · rw [if_neg h]
    exact Block.nil.append (Block.put c)

/-- `serial_print` takes `serialp_lock`, and `serialc_lock` under it. -/
theorem block_printCode (str : List Byte) : Block .serialc [.serialp, .serialc] (printCode str) :=
  (Block.flatMap (fun c _ => block_printStepCode c)).guarded (by decide)

/-- An output operation takes no other locks. -/
theorem block_opCode (op : TextOp) : Block .serialc [.serialp, .serialc] (opCode op) := by
  cases op with
  | printc c => exact (Block.put c).mono (fun l hl => List.mem_cons_of_mem _ hl)
  | print str => exact block_printCode str
  | mark => exact block_printCode pointerMark

/-- The copy of a character is a section under `serialc_lock`, or nothing. -/
theorem block_copyCode (serialOut : BitVec 8) (c : Byte) :
    Block .serialc [.serialc] (copyCode serialOut c) := by
  unfold copyCode
  by_cases h : serialOut = 1
  · rw [if_pos h]
    exact Block.put c
  · rw [if_neg h]
    exact Block.nil

/-- The console takes the locks of the two printing functions only. -/
theorem block_vmemCode (serialOut : BitVec 8) (op : TextOp) :
    Block .serialc [.serialp, .serialc] (vmemCode serialOut op) := by
  have hmono : ∀ l ∈ [SerialLock.serialc], l ∈ [SerialLock.serialp, .serialc] :=
    fun l hl => List.mem_cons_of_mem _ hl
  cases op with
  | printc c => exact (block_copyCode serialOut c).mono hmono
  | print str => exact (Block.flatMap (fun c _ => block_copyCode serialOut c)).mono hmono
  | mark => exact block_printCode pointerMark

/-- Every call is in its sections. -/
theorem SerialCall.within (call : SerialCall) : Within .serialc [] false call.code := by
  cases call with
  | printc c => exact (Block.put c).within
  | print str => exact (block_printCode str).within
  | printf ops =>
      exact ((Block.flatMap (fun op _ => block_opCode op)).guarded (l := .serialf)
        (by decide)).within
  | vmem s ops => exact (Block.flatMap (fun op _ => block_vmemCode s.design.serialOut op)).within

/-! ## Texts -/

/-- Under `serialc_lock` each byte of a code is a text. -/
def Singles (k : SerialCode) : Prop := textsUnder .serialc k = (puts k).map (fun b => [b])

/-- Nothing is sent. -/
theorem Singles.nil : Singles [] := rfl

/-- One character under the lock. -/
theorem Singles.printc (c : Byte) : Singles (printcCode c) := rfl

/-- Codes that send their characters singly may follow each other. -/
theorem Singles.append {j k : SerialCode} (hj : Singles j) (hk : Singles k) :
    Singles (j ++ k) := by
  unfold Singles at *
  rw [textsUnder_append, puts_append, List.map_append, hj, hk]

/-- So may any number of them. -/
theorem Singles.flatMap {α : Type} {as : List α} {f : α → SerialCode} (hf : ∀ a, Singles (f a)) :
    Singles (as.flatMap f) := by
  induction as with
  | nil => exact Singles.nil
  | cons a as ih =>
      rw [List.flatMap_cons]
      exact (hf a).append ih

/-- Another lock around them makes no text of `serialc_lock` longer. -/
theorem Singles.guarded {k : SerialCode} (hk : Singles k) (hl : l ≠ .serialc) :
    Singles (guarded l k) := by
  unfold Singles at *
  rw [textsUnder_guarded, if_neg hl, List.append_nil, puts_guarded]
  exact hk

/-- A line feed and its carriage return are two texts. -/
theorem Singles.printStep (c : Byte) : Singles (printStepCode c) := by
  unfold printStepCode
  by_cases h : c = newline
  · rw [if_pos h]
    exact (Singles.printc carriageReturn).append (Singles.printc c)
  · rw [if_neg h]
    exact Singles.nil.append (Singles.printc c)

/-- The characters of a string are sent one by one. -/
theorem Singles.print (str : List Byte) : Singles (printCode str) :=
  (Singles.flatMap Singles.printStep).guarded (by decide)

/-- So are those of an output operation. -/
theorem Singles.op (op : TextOp) : Singles (opCode op) := by
  cases op with
  | printc c => exact Singles.printc c
  | print str => exact Singles.print str
  | mark => exact Singles.print pointerMark

/-- The copy of a character is one text, or none. -/
theorem Singles.copy (serialOut : BitVec 8) (c : Byte) : Singles (copyCode serialOut c) := by
  unfold copyCode
  by_cases h : serialOut = 1
  · rw [if_pos h]
    exact Singles.printc c
  · rw [if_neg h]
    exact Singles.nil

/-- The console sends single characters on. -/
theorem Singles.vmem (serialOut : BitVec 8) (op : TextOp) : Singles (vmemCode serialOut op) := by
  cases op with
  | printc c => exact Singles.copy serialOut c
  | print str => exact Singles.flatMap (Singles.copy serialOut)
  | mark => exact Singles.print pointerMark

/-- Every call sends its characters singly under `serialc_lock`. -/
theorem Singles.code (call : SerialCall) : Singles call.code := by
  cases call with
  | printc c => exact Singles.printc c
  | print str => exact Singles.print str
  | printf ops => exact (Singles.flatMap Singles.op).guarded (by decide)
  | vmem s ops => exact Singles.flatMap (Singles.vmem s.design.serialOut)

/-- A code that takes no lock but `serialc_lock` has no texts of the others. -/
theorem textsUnder_printcCode (hl : l ≠ .serialc) (c : Byte) :
    textsUnder l (printcCode c) = [] := by
  unfold printcCode
  rw [textsUnder_guarded, if_neg (Ne.symm hl)]
  rfl

/-- Codes without a text under the lock have none together. -/
theorem textsUnder_flatMap_nil {α : Type} {as : List α} {f : α → SerialCode}
    (hf : ∀ a, textsUnder l (f a) = []) : textsUnder l (as.flatMap f) = [] := by
  rw [textsUnder_flatMap]
  exact List.flatMap_eq_nil_iff.mpr (fun a _ => hf a)

/-- A character has no text under the other locks. -/
theorem textsUnder_printStepCode (hl : l ≠ .serialc) (c : Byte) :
    textsUnder l (printStepCode c) = [] := by
  unfold printStepCode
  by_cases h : c = newline
  · rw [if_pos h, textsUnder_append, textsUnder_printcCode hl, textsUnder_printcCode hl]
    rfl
  · rw [if_neg h, List.nil_append, textsUnder_printcCode hl]

/-- Nor has its copy. -/
theorem textsUnder_copyCode (hl : l ≠ .serialc) (serialOut : BitVec 8) (c : Byte) :
    textsUnder l (copyCode serialOut c) = [] := by
  unfold copyCode
  by_cases h : serialOut = 1
  · rw [if_pos h, textsUnder_printcCode hl]
  · rw [if_neg h, textsUnder_nil]

/-- `serial_print` has one text under its lock. -/
theorem textsUnder_printCode (hl : l ≠ .serialc) (str : List Byte) :
    textsUnder l (printCode str) = if .serialp = l then [serialPrint [] str] else [] := by
  have hputs := puts_printCode str
  unfold printCode at *
  rw [puts_guarded] at hputs
  rw [textsUnder_guarded, textsUnder_flatMap_nil (textsUnder_printStepCode hl), List.nil_append,
    hputs]

/-- Under `serialp_lock` an output operation has the string that it prints, and
    under `serialf_lock` nothing. -/
theorem textsUnder_opCode (op : TextOp) :
    textsUnder .serialp (opCode op) = op.printed ∧ textsUnder .serialf (opCode op) = [] := by
  have hprint := fun str => textsUnder_printCode (l := .serialp) (by decide) str
  have hprintf := fun str => textsUnder_printCode (l := .serialf) (by decide) str
  cases op with
  | printc c =>
      exact ⟨textsUnder_printcCode (by decide) c, textsUnder_printcCode (by decide) c⟩
  | print str => exact ⟨hprint str, hprintf str⟩
  | mark => exact ⟨hprint pointerMark, hprintf pointerMark⟩

/-- Under `serialp_lock` the console has the mark of a pointer, and under
    `serialf_lock` nothing. -/
theorem textsUnder_vmemCode (serialOut : BitVec 8) (op : TextOp) :
    textsUnder .serialp (vmemCode serialOut op) = op.printedMark ∧
      textsUnder .serialf (vmemCode serialOut op) = [] := by
  have hcopy := fun c => textsUnder_copyCode (l := .serialp) (by decide) serialOut c
  have hcopyf := fun c => textsUnder_copyCode (l := .serialf) (by decide) serialOut c
  cases op with
  | printc c => exact ⟨hcopy c, hcopyf c⟩
  | print str => exact ⟨textsUnder_flatMap_nil hcopy, textsUnder_flatMap_nil hcopyf⟩
  | mark =>
      exact ⟨textsUnder_printCode (by decide) pointerMark,
        textsUnder_printCode (by decide) pointerMark⟩

/-- The sections of a call send the texts that the call says. -/
theorem textsUnder_code (l : SerialLock) (call : SerialCall) :
    textsUnder l call.code = l.texts call := by
  cases l with
  | serialc =>
      have hsingles := Singles.code call
      unfold Singles at hsingles
      rw [hsingles, puts_code]
      rfl
  | serialp =>
      cases call with
      | printc c => exact textsUnder_printcCode (by decide) c
      | print str => exact textsUnder_printCode (by decide) str
      | printf ops =>
          show textsUnder .serialp (printfCode ops) = ops.flatMap TextOp.printed
          unfold printfCode
          rw [textsUnder_guarded, if_neg (by decide), List.append_nil, textsUnder_flatMap]
          exact congrArg (fun f => ops.flatMap f) (funext (fun op => (textsUnder_opCode op).1))
      | vmem s ops =>
          show textsUnder .serialp (ops.flatMap (vmemCode s.design.serialOut))
            = ops.flatMap TextOp.printedMark
          rw [textsUnder_flatMap]
          exact congrArg (fun f => ops.flatMap f)
            (funext (fun op => (textsUnder_vmemCode s.design.serialOut op).1))
  | serialf =>
      cases call with
      | printc c => exact textsUnder_printcCode (by decide) c
      | print str => exact textsUnder_printCode (by decide) str
      | printf ops =>
          have hputs := puts_printfCode ops
          show textsUnder .serialf (printfCode ops) = [exec serialOp [] ops]
          unfold printfCode at *
          rw [puts_guarded] at hputs
          rw [textsUnder_guarded, if_pos rfl,
            textsUnder_flatMap_nil (fun op => (textsUnder_opCode op).2), List.nil_append, hputs]
      | vmem s ops =>
          exact textsUnder_flatMap_nil
            (fun op => (textsUnder_vmemCode s.design.serialOut op).2)

end Codes

/-! ## The port -/

/-- On any number of cores no byte is lost, each core sends what it was called
    for in order, and with each lock held the texts of the calls are sent whole,
    those of a core in the order of its calls. -/
theorem serial_output_whole {C : Type} [DecidableEq C] {s : State SerialLock C Byte SerialCall}
    (h : Reachable State.Idle (Step SerialCall.code) s) :
    s.lost = []
    ∧ (∀ c, s.sentBy c ++ puts (s.cont c) = (s.calls c).flatMap SerialCall.bytes)
    ∧ ∀ l : SerialLock, ∃ ts, s.Whole l l.texts ts := by
  obtain ⟨hlost, hsent, hwhole⟩ := output_whole SerialCall.within h
  refine ⟨hlost, fun c => ?_, fun l => ?_⟩
  · have hc := hsent c
    simp only [puts_code] at hc
    exact hc
  · obtain ⟨ts, hts⟩ := hwhole l
    simp only [textsUnder_code] at hts
    exact ⟨ts, hts⟩

/-- Two cores print: the register is full at first, and one byte has been sent. -/
theorem serial_output_whole_two : ∃ s : State SerialLock Bool Byte SerialCall,
    s.out.map (fun e => (e.thread, e.value)) = [(false, 0x41)] ∧ s.lost = [] := by
  refine ⟨_, ?_, (serial_output_whole (C := Bool)
    (.step (.step (.step (.step (.step (.step (.step (.step (.start ⟨true, rfl⟩)
      (.call (c := false) (.print [0x41, 0x0A]) rfl))
      (.acquire (c := false) rfl rfl))
      (.call (c := true) (.printf [.printc 0x42]) rfl))
      (.acquire (c := true) rfl rfl))
      (.acquire (c := false) rfl rfl))
      .drain)
      (.ready (c := false) rfl rfl))
      (.put (c := false) rfl))).1⟩
  rfl

end Pfi
