import Pfi.Run

/-! # The serial port

    What is transmitted is a list of bytes.  `serial_printc` sends one of them
    as it is, and `serial_print` puts a carriage return before each newline of
    a text (`serialPrint_eq`). -/

namespace Pfi

open Run

/-- A character, or any other byte of a text. -/
abbrev Byte := BitVec 8

/-- `'\n'` -/
abbrev newline : Byte := 0x0A

/-- `'\r'` -/
abbrev carriageReturn : Byte := 0x0D

/-- A text of any bytes, up to its NUL. -/
def cString (str : List Byte) : List Byte := str.takeWhile (fun c => decide (c ≠ 0))

/-- `serial_printc`, once the transmit buffer is empty. -/
def serialPrintc (out : List Byte) (c : Byte) : List Byte := out ++ [c]

/-- The body of the loop of `serial_print`. -/
def serialPrintStep (out : List Byte) (c : Byte) : List Byte :=
  serialPrintc (if c = newline then serialPrintc out carriageReturn else out) c

/-- `serial_print` -/
def serialPrint (out : List Byte) (str : List Byte) : List Byte :=
  exec serialPrintStep out (cString str)

/-- What is transmitted for a character of a text. -/
def serialBytes (c : Byte) : List Byte := if c = newline then [carriageReturn, newline] else [c]

theorem serialPrintStep_eq (out : List Byte) (c : Byte) :
    serialPrintStep out c = out ++ serialBytes c := by
  unfold serialPrintStep serialBytes serialPrintc
  by_cases h : c = newline
  · rw [if_pos h, if_pos h, h, List.append_assoc]
    rfl
  · rw [if_neg h, if_neg h]

theorem serialPrint_eq (out str : List Byte) :
    serialPrint out str = out ++ (cString str).flatMap serialBytes := by
  unfold serialPrint
  generalize cString str = text
  induction text generalizing out with
  | nil => exact (List.append_nil out).symm
  | cons c text ih =>
      rw [exec_cons, ih, serialPrintStep_eq, List.flatMap_cons, List.append_assoc]

end Pfi
