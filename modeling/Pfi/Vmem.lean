import Pfi.Serial
import Mathlib.Algebra.Order.Ring.Int
import Mathlib.Logic.Function.Basic

/-! # Text on the screen

    `vmem_printc` stores a word at the cursor and moves it on; a newline only
    moves it.  Nothing looks at the size of the screen, and the character is a
    signed `char` when it is put into the word.

    So one character keeps the cursor in the grid when it is not the last one of
    its row (`InGrid.printc_iff`), and its cell has the design's colours when it
    is below 0x80 (`cellOf_high`).  A text stays on the screen exactly if this
    holds at each character in turn (`screen_stays_iff`). -/

namespace Pfi

open Run

/-! ## The screen -/

/-- `enum VMemColors` -/
inductive VMemColor where
  | black | blue | green | cyan | red | magenta | brown | lightGray
  | darkGray | lightBlue | lightGreen | lightCyan | lightRed | lightMagenta | yellow | white
deriving DecidableEq

/-- The four bits of a colour. -/
def VMemColor.code : VMemColor → BitVec 16
  | .black => 0x0
  | .blue => 0x1
  | .green => 0x2
  | .cyan => 0x3
  | .red => 0x4
  | .magenta => 0x5
  | .brown => 0x6
  | .lightGray => 0x7
  | .darkGray => 0x8
  | .lightBlue => 0x9
  | .lightGreen => 0xA
  | .lightCyan => 0xB
  | .lightRed => 0xC
  | .lightMagenta => 0xD
  | .yellow => 0xE
  | .white => 0xF

/-- `struct VMemDesign` -/
structure VMemDesign where
  x : Int
  y : Int
  fg : VMemColor
  bg : VMemColor
  serialOut : BitVec 8

abbrev vmemMaxCols : Int := 80
abbrev vmemMaxRows : Int := 25

/-- The design, the words from `VMEM` on, the position of the hardware cursor,
    what was sent to the serial port, and the characters that were printed. -/
structure Screen where
  design : VMemDesign
  vmem : Int → BitVec 16
  cursor : Int
  serial : List Byte
  drawn : List Byte

/-- `(design->bg << 4) | design->fg` -/
def VMemDesign.attr (d : VMemDesign) : BitVec 16 := d.bg.code <<< 4 ||| d.fg.code

/-- `((uint16_t)attr << 8) | c`; a `char` is signed. -/
def cellOf (attr : BitVec 16) (c : Byte) : BitVec 16 := attr <<< 8 ||| c.signExtend 16

/-- A conversion to `uint16_t`. -/
def uint16 (n : Int) : Int := n % 2 ^ 16

/-- `vmem_set_cursor` -/
def vmemSetCursor (s : Screen) (x y : Int) : Screen :=
  { s with cursor := uint16 (uint16 y * vmemMaxCols + uint16 x) }

/-- The end of `vmem_printc`. -/
def copyToSerial (s : Screen) (c : Byte) : Screen :=
  if s.design.serialOut = 1 then { s with serial := serialPrintc s.serial c } else s

/-- The index of the word at the cursor. -/
def VMemDesign.index (d : VMemDesign) : Int := d.y * vmemMaxCols + d.x

/-- The cell is stored and the cursor goes on; a line feed starts the next
    row. -/
def vmemPrintc (s : Screen) (c : Byte) : Screen :=
  let s := { s with drawn := s.drawn ++ [c] }
  if c = newline then
    let y := uint16 (s.design.y + 1)
    let s := { s with design := { s.design with x := 0, y := y } }
    copyToSerial (vmemSetCursor s 0 y) c
  else
    let vmem := Function.update s.vmem s.design.index (cellOf s.design.attr c)
    let x := uint16 (s.design.x + 1)
    let s := { s with vmem := vmem, design := { s.design with x := x } }
    copyToSerial (vmemSetCursor s x s.design.y) c

/-- The characters up to the end of the string. -/
def vmemPrint (s : Screen) (str : List Byte) : Screen := exec vmemPrintc s (cString str)

/-! ## One character -/

section Printc

variable {s : Screen} {c : Byte}

/-- The copy to the serial port leaves the design. -/
@[simp] theorem copyToSerial_design : (copyToSerial s c).design = s.design := by
  unfold copyToSerial
  split <;> rfl

/-- It leaves the cells. -/
@[simp] theorem copyToSerial_vmem : (copyToSerial s c).vmem = s.vmem := by
  unfold copyToSerial
  split <;> rfl

/-- A line feed goes to the start of the next row and stores no cell. -/
theorem vmemPrintc_newline (s : Screen) :
    (vmemPrintc s newline).design = { s.design with x := 0, y := uint16 (s.design.y + 1) } ∧
      (vmemPrintc s newline).vmem = s.vmem := by
  unfold vmemPrintc
  dsimp only
  rw [if_pos rfl, copyToSerial_design, copyToSerial_vmem]
  exact ⟨rfl, rfl⟩

/-- Any other character is stored and moves the cursor by one. -/
theorem vmemPrintc_other (h : c ≠ newline) :
    (vmemPrintc s c).design = { s.design with x := uint16 (s.design.x + 1) } ∧
      (vmemPrintc s c).vmem
        = Function.update s.vmem s.design.index (cellOf s.design.attr c) := by
  unfold vmemPrintc
  dsimp only
  rw [if_neg h, copyToSerial_design, copyToSerial_vmem]
  exact ⟨rfl, rfl⟩

/-- A number that fits is itself. -/
theorem uint16_eq {n : Int} (h : 0 ≤ n ∧ n < 2 ^ 16) : uint16 n = n := Int.emod_eq_of_lt h.1 h.2

/-- What goes to the serial port with a character. -/
theorem vmemPrintc_serial (s : Screen) (c : Byte) :
    (vmemPrintc s c).serial = s.serial ++ if s.design.serialOut = 1 then [c] else [] := by
  have hcopy : ∀ t : Screen, (copyToSerial t c).serial
      = t.serial ++ if t.design.serialOut = 1 then [c] else [] := by
    intro t
    unfold copyToSerial
    split
    · rfl
    · exact (List.append_nil _).symm
  unfold vmemPrintc
  dsimp only
  split
  · rw [hcopy]
    rfl
  · rw [hcopy]
    rfl

/-- Every character is drawn once. -/
theorem vmemPrintc_drawn (s : Screen) (c : Byte) : (vmemPrintc s c).drawn = s.drawn ++ [c] := by
  have hcopy : ∀ t : Screen, (copyToSerial t c).drawn = t.drawn := by
    intro t
    unfold copyToSerial
    split <;> rfl
  unfold vmemPrintc
  dsimp only
  split
  · rw [hcopy]
    rfl
  · rw [hcopy]
    rfl

end Printc

/-! ## Cells -/

/-- The colours are one byte. -/
theorem attr_byte (d : VMemDesign) :
    d.attr <<< 8 >>> 8 = d.attr ∧ (d.attr ||| 0xFF = d.attr ↔ d.attr = 0xFF) := by
  have hall : ∀ bg fg : VMemColor,
      (bg.code <<< 4 ||| fg.code) <<< 8 >>> 8 = bg.code <<< 4 ||| fg.code ∧
      (bg.code <<< 4 ||| fg.code ||| 0xFF = bg.code <<< 4 ||| fg.code ↔
        bg.code <<< 4 ||| fg.code = 0xFF) := by
    intro bg fg
    cases bg <;> cases fg <;> decide
  exact hall d.bg d.fg

/-- The upper byte of a signed character. -/
theorem signExtend_high (c : Byte) :
    c.signExtend 16 >>> 8 = if c.toNat < 0x80 then 0 else 0xFF := by
  have hall : ∀ n < 256, (BitVec.ofNat 8 n).signExtend 16 >>> 8
      = if (BitVec.ofNat 8 n).toNat < 0x80 then (0 : BitVec 16) else 0xFF := by
    decide +kernel
  have hc := hall c.toNat c.isLt
  rw [BitVec.ofNat_toNat, BitVec.setWidth_eq] at hc
  exact hc

/-- The low byte of a cell is the character. -/
theorem cellOf_low (attr : BitVec 16) (c : Byte) : (cellOf attr c).setWidth 8 = c := by
  unfold cellOf
  ext i hi
  have hlow : i < 16 := Nat.lt_of_lt_of_le hi (by decide)
  simp [BitVec.getElem_signExtend, hi, hlow]

/-- The sign of the character goes into the colours. -/
theorem cellOf_high (d : VMemDesign) (c : Byte) :
    cellOf d.attr c >>> 8 = d.attr ↔ c.toNat < 0x80 ∨ d.attr = 0xFF := by
  obtain ⟨hshift, hones⟩ := attr_byte d
  unfold cellOf
  rw [BitVec.ushiftRight_or_distrib, hshift, signExtend_high]
  by_cases hc : c.toNat < 0x80
  · rw [if_pos hc]
    exact iff_of_true BitVec.or_zero (Or.inl hc)
  · rw [if_neg hc, hones]
    exact (or_iff_right hc).symm

/-! ## Texts -/

/-- The cursor is in the grid. -/
def InGrid (d : VMemDesign) : Prop :=
  0 ≤ d.x ∧ d.x < vmemMaxCols ∧ 0 ≤ d.y ∧ d.y < vmemMaxRows

instance (d : VMemDesign) : Decidable (InGrid d) := inferInstanceAs (Decidable (_ ∧ _))

/-- The bounds of the grid. -/
theorem inGrid_iff {d : VMemDesign} : InGrid d ↔ 0 ≤ d.x ∧ d.x < 80 ∧ 0 ≤ d.y ∧ d.y < 25 := Iff.rfl

/-- Calls of the two functions. -/
inductive ScreenCall where
  | printc (c : Byte)
  | print (str : List Byte)

/-- The characters that a call prints. -/
def ScreenCall.chars : ScreenCall → List Byte
  | .printc c => [c]
  | .print str => cString str

/-- A character is stored in the text buffer, with the design's colours. -/
structure CellStored (s : Screen) (c : Byte) : Prop where
  inside : 0 ≤ s.design.index ∧ s.design.index < vmemMaxCols * vmemMaxRows
  char : ((vmemPrintc s c).vmem s.design.index).setWidth 8 = c
  colours : (vmemPrintc s c).vmem s.design.index >>> 8 = s.design.attr

/-- Everything is printed on the screen, and the cursor stays there. -/
structure StaysOnScreen (s : Screen) (chars : List Byte) : Prop where
  cursor : Throughout vmemPrintc (fun s => InGrid s.design) s chars
  stored : Along vmemPrintc (fun s c => c ≠ newline → CellStored s c) s chars

/-- A newline that is not on the last row, or a character below 0x80 (unless
    white is printed on white) that is not in the last column. -/
def CharFits (s : Screen) (c : Byte) : Prop :=
  if c = newline then s.design.y + 1 < vmemMaxRows
  else s.design.x + 1 < vmemMaxCols ∧ (c.toNat < 0x80 ∨ s.design.attr = 0xFF)

instance (s : Screen) (c : Byte) : Decidable (CharFits s c) := by
  unfold CharFits
  infer_instance

section Texts

variable {s : Screen} {c : Byte}

/-- The cursor after one character. -/
theorem InGrid.printc_iff (h : InGrid s.design) :
    InGrid (vmemPrintc s c).design ↔
      if c = newline then s.design.y + 1 < vmemMaxRows else s.design.x + 1 < vmemMaxCols := by
  obtain ⟨hx, hx', hy, hy'⟩ := inGrid_iff.mp h
  rw [inGrid_iff]
  by_cases hc : c = newline
  · rw [if_pos hc, hc, (vmemPrintc_newline s).1]
    dsimp only [vmemMaxRows]
    rw [uint16_eq ⟨by omega, by omega⟩]
    omega
  · rw [if_neg hc, (vmemPrintc_other hc).1]
    dsimp only [vmemMaxCols]
    rw [uint16_eq ⟨by omega, by omega⟩]
    omega

/-- The cell is right for a 7-bit character, or if all attribute bits are
    set. -/
theorem CellStored.iff (h : InGrid s.design) (hc : c ≠ newline) :
    CellStored s c ↔ c.toNat < 0x80 ∨ s.design.attr = 0xFF := by
  obtain ⟨hx, hx', hy, hy'⟩ := inGrid_iff.mp h
  have hcell : (vmemPrintc s c).vmem s.design.index = cellOf s.design.attr c := by
    rw [(vmemPrintc_other hc).2]
    exact Function.update_self _ _ _
  rw [← cellOf_high]
  constructor
  · intro hs
    rw [← hcell]
    exact hs.colours
  · intro hhigh
    refine ⟨?_, ?_, ?_⟩
    · unfold VMemDesign.index vmemMaxCols vmemMaxRows
      omega
    · rw [hcell]
      exact cellOf_low _ _
    · rw [hcell]
      exact hhigh

/-- One character. -/
theorem charFits_iff (h : InGrid s.design) :
    InGrid (vmemPrintc s c).design ∧ (c ≠ newline → CellStored s c) ↔ CharFits s c := by
  rw [h.printc_iff]
  unfold CharFits
  by_cases hc : c = newline
  · rw [if_pos hc, if_pos hc]
    exact ⟨fun hs => hs.1, fun hs => ⟨hs, fun hne => absurd hc hne⟩⟩
  · rw [if_neg hc, if_neg hc, CellStored.iff h hc]
    exact ⟨fun hs => ⟨hs.1, hs.2 hc⟩, fun hs => ⟨hs.1, fun _ => hs.2⟩⟩

end Texts

/-- A sequence of calls stays on the screen exactly if each character fits where
    it is printed. -/
theorem screen_stays_iff (s : Screen) (h : InGrid s.design) (calls : List ScreenCall) :
    StaysOnScreen s (calls.flatMap ScreenCall.chars) ↔
      Along vmemPrintc CharFits s (calls.flatMap ScreenCall.chars) := by
  generalize calls.flatMap ScreenCall.chars = chars
  induction chars generalizing s with
  | nil => exact ⟨fun _ => trivial, fun _ => ⟨h, trivial⟩⟩
  | cons c chars ih =>
      constructor
      · rintro ⟨⟨-, hcursor⟩, hcell, hstored⟩
        have hnext := hcursor.head
        exact ⟨(charFits_iff h).mp ⟨hnext, hcell⟩, (ih _ hnext).mp ⟨hcursor, hstored⟩⟩
      · rintro ⟨hfits, hrest⟩
        obtain ⟨hnext, hcell⟩ := (charFits_iff h).mpr hfits
        obtain ⟨hcursor, hstored⟩ := (ih _ hnext).mpr hrest
        exact ⟨⟨h, hcursor⟩, hcell, hstored⟩

/-- An empty screen with the cursor in its first cell, gray on black. -/
def emptyScreen : Screen :=
  { design := { x := 0, y := 0, fg := .lightGray, bg := .black, serialOut := 0 }
    vmem := fun _ => 0, cursor := 0, serial := [], drawn := [] }

theorem screen_stays_two :
    StaysOnScreen emptyScreen ([.printc 0x41, .print [0x42, 0x0A]].flatMap ScreenCall.chars) :=
  (screen_stays_iff emptyScreen (by decide) [.printc 0x41, .print [0x42, 0x0A]]).mpr (by decide)

/-- A full row leaves the cursor behind it, and a letter with an umlaut changes
    the colours of its cell. -/
theorem screen_left :
    ¬ StaysOnScreen emptyScreen ([.print (List.replicate 80 0x41)].flatMap ScreenCall.chars) ∧
      ¬ StaysOnScreen emptyScreen ([.printc 0x84].flatMap ScreenCall.chars) := by
  constructor
  · intro h
    -- the state after the row
    have hlast := exec_of_throughout h.cursor
    exact absurd hlast (by decide +kernel)
  · intro h
    exact absurd (h.stored.1 (by decide)).colours (by decide +kernel)

end Pfi
