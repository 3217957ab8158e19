import Pfi.Vmem

/-! # Reading a line

    `ps2_read_line` takes scan codes until Enter is pressed and edits the line
    in a buffer, with an echo on the screen.

    What the buffer holds is compared with an editor on lists (`edit`): one scan
    code does the same to both (`held_ps2Key`), so after any codes the buffer
    holds the edited text (`held_exec`), and all stores are within it.  The
    echo follows the buffer as long as a row is not left: the column is the one
    at the start plus what was typed since (`Echoed.key`), so what is typed and
    erased again leaves the cursor where it was. -/

namespace Pfi

open Run

/-! ## The keyboard -/

/-- `scan_to_ascii`, up to the last entry that is given. -/
def scanToAsciiEntries : List Byte :=
  [ 0, 27, 0x31, 0x32, 0x33, 0x34, 0x35, 0x36, 0x37, 0x38, 0x39, 0x30, 0x2D, 0x3D, 0x08,
    0x09, 0x71, 0x77, 0x65, 0x72, 0x74, 0x79, 0x75, 0x69, 0x6F, 0x70, 0x5B, 0x5D, 0x0A, 0,
    0x61, 0x73, 0x64, 0x66, 0x67, 0x68, 0x6A, 0x6B, 0x6C, 0x3B, 0x27, 0x60, 0, 0x5C,
    0x7A, 0x78, 0x63, 0x76, 0x62, 0x6E, 0x6D, 0x2C, 0x2E, 0x2F, 0, 0x2A, 0, 0x20, 0 ]

/-- `scan_to_ascii[i]`; the other entries are zero. -/
def scanToAscii (i : Nat) : Byte := scanToAsciiEntries.getD i 0

/-- `'\b'` -/
abbrev backspace : Byte := 0x08

/-- A key is released. -/
def IsRelease (sc : Byte) : Prop := sc &&& 0x80 ≠ 0

instance (sc : Byte) : Decidable (IsRelease sc) := inferInstanceAs (Decidable (_ ≠ _))

/-- The character of a key that is pressed, or 0. -/
def pressed (sc : Byte) : Byte := if IsRelease sc then 0 else scanToAscii sc.toNat

/-- Enter is pressed. -/
def IsEnter (sc : Byte) : Prop := pressed sc = newline

instance (sc : Byte) : Decidable (IsEnter sc) := inferInstanceAs (Decidable (_ = _))

/-! ## `ps2_read_line` -/

/-- The buffer, the screen, and the indices at which `buf` was stored to and
    `scan_to_ascii` was read. -/
structure Ps2Line where
  buf : Nat → Byte
  idx : Nat
  screen : Screen
  stored : List Nat
  looked : List Nat

/-- The line at the start: nothing is typed. -/
def ps2Start (buf : Nat → Byte) (screen : Screen) : Ps2Line :=
  { buf := buf, idx := 0, screen := screen, stored := [], looked := [] }

/-- `buf[idx] = c` -/
def Ps2Line.put (s : Ps2Line) (c : Byte) : Ps2Line :=
  { s with buf := Function.update s.buf s.idx c, stored := s.stored ++ [s.idx] }

/-- `scan_to_ascii[sc]` is read. -/
def Ps2Line.look (s : Ps2Line) (sc : Byte) : Ps2Line := { s with looked := s.looked ++ [sc.toNat] }

/-- Enter. -/
def Ps2Line.enter (s : Ps2Line) : Ps2Line :=
  let s := s.put 0
  { s with screen := vmemPrintc s.screen newline }

/-- The cursor goes back by one, over the start of a row if it must. -/
def moveBack (d : VMemDesign) : VMemDesign :=
  if d.x = 0 ∧ 0 < d.y then { d with y := d.y - 1, x := vmemMaxCols - 1 }
  else if 0 < d.x then { d with x := d.x - 1 }
  else d

/-- Backspace. -/
def Ps2Line.erase (s : Ps2Line) : Ps2Line :=
  if 0 < s.idx then
    let d := moveBack s.screen.design
    let t := vmemSetCursor { s.screen with design := d } d.x d.y
    let t := vmemPrintc t 0x20
    let d := { t.design with x := t.design.x - 1 }
    { s with idx := s.idx - 1, screen := vmemSetCursor { t with design := d } d.x d.y }
  else s

/-- Any other character. -/
def Ps2Line.type (maxLen : Int) (s : Ps2Line) (c : Byte) : Ps2Line :=
  if (s.idx : Int) < maxLen - 1 then
    { s.put c with idx := s.idx + 1, screen := vmemPrintc s.screen c }
  else s

/-- `ps2_read_line` on the codes that `ps2_read_scan` gives; it returns with the
    codes that are left, or waits for more. -/
def ps2ReadLine (maxLen : Int) : List Byte → Ps2Line → Option (Ps2Line × List Byte)
  | [], _ => none
  | sc :: codes, s =>
      if IsRelease sc then ps2ReadLine maxLen codes s
      else
        let c := scanToAscii sc.toNat
        let s := s.look sc
        if c = 0 then ps2ReadLine maxLen codes s
        else if c = newline then some (s.enter, codes)
        else if c = backspace then ps2ReadLine maxLen codes s.erase
        else ps2ReadLine maxLen codes (s.type maxLen c)

/-- What a code other than Enter does. -/
def ps2Key (maxLen : Int) (s : Ps2Line) (sc : Byte) : Ps2Line :=
  if IsRelease sc then s
  else
    let c := scanToAscii sc.toNat
    let s := s.look sc
    if c = 0 then s else if c = backspace then s.erase else s.type maxLen c

/-! ## The editor -/

/-- A line editor with room for `maxLen - 1` characters. -/
def edit (maxLen : Int) (text : List Byte) (sc : Byte) : List Byte :=
  if pressed sc = 0 then text
  else if pressed sc = backspace then text.dropLast
  else if (text.length : Int) < maxLen - 1 then text ++ [pressed sc]
  else text

/-- The characters that the buffer holds. -/
def Ps2Line.held (s : Ps2Line) : List Byte := (List.range s.idx).map s.buf

section Keys

variable {maxLen : Int} {s : Ps2Line} {sc c : Byte} {codes : List Byte}

/-- As many characters are held as the index says. -/
theorem Ps2Line.held_length (s : Ps2Line) : s.held.length = s.idx := by
  unfold held
  rw [List.length_map, List.length_range]

/-- A character that is put behind those that are held. -/
theorem Ps2Line.held_put (s : Ps2Line) (c : Byte) :
    (List.range (s.idx + 1)).map (s.put c).buf = s.held ++ [c] := by
  unfold held put
  dsimp only
  rw [List.range_succ, List.map_append, List.map_singleton, Function.update_self]
  congr 1
  refine List.map_congr_left (fun i hi => ?_)
  exact Function.update_of_ne (Nat.ne_of_lt (List.mem_range.mp hi)) _ _

/-- Backspace drops the last one that is held. -/
theorem Ps2Line.held_erase (s : Ps2Line) : s.erase.held = s.held.dropLast := by
  unfold erase
  by_cases h : 0 < s.idx
  · obtain ⟨n, hn⟩ := Nat.exists_eq_succ_of_ne_zero (Nat.ne_of_gt h)
    rw [if_pos h]
    unfold held
    dsimp only
    rw [hn, Nat.succ_eq_add_one, Nat.add_sub_cancel, List.range_succ, List.map_append,
      List.map_singleton, List.dropLast_concat]
  · have hzero : s.idx = 0 := Nat.eq_zero_of_not_pos h
    rw [if_neg h]
    unfold held
    rw [hzero]
    rfl

/-- A character is held if there is room for it. -/
theorem Ps2Line.held_type (maxLen : Int) (s : Ps2Line) (c : Byte) :
    (s.type maxLen c).held
      = if (s.held.length : Int) < maxLen - 1 then s.held ++ [c] else s.held := by
  rw [s.held_length]
  unfold type
  by_cases h : (s.idx : Int) < maxLen - 1
  · rw [if_pos h, if_pos h]
    exact s.held_put c
  · rw [if_neg h, if_neg h]

/-- One code does to the buffer what it does to the text. -/
theorem held_ps2Key (maxLen : Int) (s : Ps2Line) (sc : Byte) :
    (ps2Key maxLen s sc).held = edit maxLen s.held sc := by
  unfold ps2Key edit pressed
  by_cases hrel : IsRelease sc
  · rw [if_pos hrel, if_pos hrel, if_pos rfl]
  · rw [if_neg hrel, if_neg hrel]
    dsimp only
    by_cases hzero : scanToAscii sc.toNat = 0
    · rw [if_pos hzero, if_pos hzero]
      rfl
    · rw [if_neg hzero, if_neg hzero]
      by_cases hback : scanToAscii sc.toNat = backspace
      · rw [if_pos hback, if_pos hback]
        exact (s.look sc).held_erase
      · rw [if_neg hback, if_neg hback]
        exact (s.look sc).held_type maxLen _

/-- The keys edit the line. -/
theorem held_exec (maxLen : Int) (s : Ps2Line) (codes : List Byte) :
    (exec (ps2Key maxLen) s codes).held = codes.foldl (edit maxLen) s.held := by
  induction codes generalizing s with
  | nil => rfl
  | cons sc codes ih =>
      rw [exec_cons, ih, held_ps2Key]
      rfl

/-! ## Bounds -/

/-- The stores and the reads are within the arrays. -/
structure Ps2Line.Within (maxLen : Int) (s : Ps2Line) : Prop where
  room : (s.idx : Int) < maxLen
  stored : ∀ i ∈ s.stored, (i : Int) < maxLen
  looked : ∀ i ∈ s.looked, i < 128

/-- A code that is not a release is an index of the table. -/
theorem Ps2Line.Within.look (h : s.Within maxLen) (hsc : ¬ IsRelease sc) :
    (s.look sc).Within maxLen := by
  have hlow : ∀ n < 256, ¬ IsRelease (BitVec.ofNat 8 n) → n < 128 := by decide +kernel
  refine ⟨h.room, h.stored, fun i hi => ?_⟩
  rcases List.mem_append.mp hi with hi | hi
  · exact h.looked i hi
  · rw [List.mem_singleton.mp hi]
    refine hlow sc.toNat sc.isLt ?_
    rw [BitVec.ofNat_toNat, BitVec.setWidth_eq]
    exact hsc

/-- A character is stored within the buffer. -/
theorem Ps2Line.Within.put (h : s.Within maxLen) (c : Byte) : (s.put c).Within maxLen := by
  refine ⟨h.room, fun i hi => ?_, h.looked⟩
  rcases List.mem_append.mp hi with hi | hi
  · exact h.stored i hi
  · rw [List.mem_singleton.mp hi]
    exact h.room

/-- Backspace stores nothing. -/
theorem Ps2Line.Within.erase (h : s.Within maxLen) : s.erase.Within maxLen := by
  unfold Ps2Line.erase
  split
  · have hroom := h.room
    refine ⟨?_, h.stored, h.looked⟩
    dsimp only
    omega
  · exact h

/-- A character is stored if there is room, and then leaves room for the end. -/
theorem Ps2Line.Within.type (h : s.Within maxLen) (c : Byte) : (s.type maxLen c).Within maxLen := by
  unfold Ps2Line.type
  split
  · rename_i hlt
    refine ⟨?_, (h.put c).stored, h.looked⟩
    dsimp only
    omega
  · exact h

/-- A key keeps within the buffer and the table. -/
theorem Ps2Line.Within.key (h : s.Within maxLen) (sc : Byte) :
    (ps2Key maxLen s sc).Within maxLen := by
  unfold ps2Key
  by_cases hrel : IsRelease sc
  · rw [if_pos hrel]
    exact h
  · rw [if_neg hrel]
    dsimp only
    split
    · exact h.look hrel
    · split
      · exact (h.look hrel).erase
      · exact (h.look hrel).type _

/-- So do all keys of a line. -/
theorem Ps2Line.Within.exec (h : s.Within maxLen) (codes : List Byte) :
    (exec (ps2Key maxLen) s codes).Within maxLen := by
  induction codes generalizing s with
  | nil => exact h
  | cons sc codes ih => exact ih (h.key sc)

/-! ## The loop -/

/-- A code that is not Enter goes round the loop. -/
theorem ps2ReadLine_key (h : ¬ IsEnter sc) (codes : List Byte) (s : Ps2Line) :
    ps2ReadLine maxLen (sc :: codes) s = ps2ReadLine maxLen codes (ps2Key maxLen s sc) := by
  unfold IsEnter pressed at h
  rw [ps2ReadLine]
  unfold ps2Key
  by_cases hrel : IsRelease sc
  · rw [if_pos hrel, if_pos hrel]
  · rw [if_neg hrel] at h
    rw [if_neg hrel, if_neg hrel]
    dsimp only
    by_cases hzero : scanToAscii sc.toNat = 0
    · rw [if_pos hzero, if_pos hzero]
    · rw [if_neg hzero, if_neg hzero, if_neg h]
      by_cases hback : scanToAscii sc.toNat = backspace
      · rw [if_pos hback, if_pos hback]
      · rw [if_neg hback, if_neg hback]

/-- Enter is a press of the key with the line feed. -/
theorem IsEnter.press (h : IsEnter sc) : ¬ IsRelease sc ∧ scanToAscii sc.toNat = newline := by
  unfold IsEnter pressed at h
  by_cases hrel : IsRelease sc
  · rw [if_pos hrel] at h
    exact absurd h (by decide)
  · rw [if_neg hrel] at h
    exact ⟨hrel, h⟩

/-- Enter ends the line, and the codes after it are left. -/
theorem ps2ReadLine_enter (h : IsEnter sc) (codes : List Byte) (s : Ps2Line) :
    ps2ReadLine maxLen (sc :: codes) s = some ((s.look sc).enter, codes) := by
  obtain ⟨hrel, hc⟩ := h.press
  rw [ps2ReadLine, if_neg hrel]
  dsimp only
  rw [hc, if_neg (by decide), if_pos rfl]

/-- It stops at the first Enter. -/
theorem ps2ReadLine_first {before after : List Byte} (hbefore : ∀ k ∈ before, ¬ IsEnter k)
    (h : IsEnter sc) (s : Ps2Line) :
    ps2ReadLine maxLen (before ++ sc :: after) s
      = some (((exec (ps2Key maxLen) s before).look sc).enter, after) := by
  induction before generalizing s with
  | nil => exact ps2ReadLine_enter h after s
  | cons k before ih =>
      rw [List.cons_append, ps2ReadLine_key (hbefore k List.mem_cons_self), exec_cons]
      exact ih (fun k' hk => hbefore k' (List.mem_cons_of_mem k hk)) _

end Keys

/-! ## The echo -/

/-- Characters are typed and erased again, and what was there before stays; the
    row is not left. -/
structure TypedErased (maxLen : Int) (d : VMemDesign) (text codes : List Byte) : Prop where
  kept : ∀ part, part <+: codes → text.length ≤ (part.foldl (edit maxLen) text).length
  row : ∀ part, part <+: codes →
    d.x + ((part.foldl (edit maxLen) text).length - text.length) ≤ vmemMaxCols
  back : (codes.foldl (edit maxLen) text).length = text.length

/-- The cursor is as far behind the one at the start as there are characters
    more. -/
structure Echoed (d : VMemDesign) (n : Nat) (s : Ps2Line) : Prop where
  more : n ≤ s.idx
  column : s.screen.design.x = d.x + (s.idx - n)
  row : s.screen.design.y = d.y

section Echo

variable {maxLen : Int} {s : Ps2Line} {sc c : Byte} {d : VMemDesign} {n : Nat}

/-- Showing the cursor leaves the design. -/
@[simp] theorem vmemSetCursor_design (s : Screen) (x y : Int) :
    (vmemSetCursor s x y).design = s.design := rfl

/-- A character that is typed is echoed behind the others. -/
theorem Echoed.type (h : Echoed d n s) (hx : 0 ≤ d.x) (hc : c ≠ newline)
    (hrow : d.x + (((s.type maxLen c).idx : Int) - n) ≤ vmemMaxCols) :
    Echoed d n (s.type maxLen c) := by
  obtain ⟨hmore, hcolumn, hy⟩ := h
  unfold vmemMaxCols at hrow
  unfold Ps2Line.type at hrow ⊢
  by_cases hlt : (s.idx : Int) < maxLen - 1
  · rw [if_pos hlt] at hrow ⊢
    dsimp only at hrow
    refine ⟨Nat.le_succ_of_le hmore, ?_, ?_⟩
    · dsimp only
      rw [(vmemPrintc_other hc).1]
      dsimp only
      rw [uint16_eq ⟨by omega, by omega⟩, hcolumn]
      omega
    · dsimp only
      rw [(vmemPrintc_other hc).1]
      exact hy
  · rw [if_neg hlt]
    exact ⟨hmore, hcolumn, hy⟩

/-- Backspace takes the echo back. -/
theorem Echoed.erase (h : Echoed d n s) (hx : 0 ≤ d.x) (hmore : n ≤ s.erase.idx)
    (hrow : d.x + ((s.idx : Int) - n) ≤ vmemMaxCols) : Echoed d n s.erase := by
  obtain ⟨hmore', hcolumn, hy⟩ := h
  unfold vmemMaxCols at hrow
  unfold Ps2Line.erase at hmore ⊢
  by_cases hpos : 0 < s.idx
  · rw [if_pos hpos] at hmore ⊢
    dsimp only at hmore
    have hx' : 0 < s.screen.design.x := by omega
    have hback : moveBack s.screen.design
        = { s.screen.design with x := s.screen.design.x - 1 } := by
      unfold moveBack
      rw [if_neg (fun hc => absurd hc.1 (by omega)), if_pos hx']
    have hspace : (0x20 : Byte) ≠ newline := by decide
    refine ⟨hmore, ?_, ?_⟩
    · rw [hback]
      dsimp only [vmemSetCursor_design]
      rw [(vmemPrintc_other hspace).1]
      dsimp only [vmemSetCursor_design]
      rw [uint16_eq ⟨by omega, by omega⟩]
      omega
    · rw [hback]
      dsimp only [vmemSetCursor_design]
      rw [(vmemPrintc_other hspace).1]
      exact hy
  · rw [if_neg hpos]
    exact ⟨hmore', hcolumn, hy⟩

/-- One code. -/
theorem Echoed.key (h : Echoed d n s) (hx : 0 ≤ d.x) (hsc : ¬ IsEnter sc)
    (hmore : n ≤ (ps2Key maxLen s sc).idx) (hrow : d.x + ((s.idx : Int) - n) ≤ vmemMaxCols)
    (hrow' : d.x + (((ps2Key maxLen s sc).idx : Int) - n) ≤ vmemMaxCols) :
    Echoed d n (ps2Key maxLen s sc) := by
  unfold IsEnter pressed at hsc
  unfold ps2Key at hmore hrow' ⊢
  have hlook : Echoed d n (s.look sc) := ⟨h.more, h.column, h.row⟩
  by_cases hrel : IsRelease sc
  · rw [if_pos hrel]
    exact h
  · rw [if_neg hrel] at hsc hmore hrow' ⊢
    dsimp only at hmore hrow' ⊢
    by_cases hzero : scanToAscii sc.toNat = 0
    · rw [if_pos hzero]
      exact hlook
    · rw [if_neg hzero] at hmore hrow' ⊢
      by_cases hback : scanToAscii sc.toNat = backspace
      · rw [if_pos hback] at hmore ⊢
        exact hlook.erase hx hmore hrow
      · rw [if_neg hback] at hrow' ⊢
        exact hlook.type hx hsc hrow'

/-- Some codes, by induction on them. -/
theorem Echoed.exec (h : Echoed d n s) (hx : 0 ≤ d.x) {codes : List Byte}
    (hcodes : ∀ k ∈ codes, ¬ IsEnter k)
    (hkept : ∀ part, part <+: codes → n ≤ (part.foldl (edit maxLen) s.held).length)
    (hrow : ∀ part, part <+: codes →
      d.x + (((part.foldl (edit maxLen) s.held).length : Int) - n) ≤ vmemMaxCols) :
    Echoed d n (exec (ps2Key maxLen) s codes) := by
  induction codes generalizing s with
  | nil => exact h
  | cons sc codes ih =>
      have hidx : ∀ t : Ps2Line, t.held.length = t.idx := Ps2Line.held_length
      have hfirst := hkept [sc] (List.prefix_append [sc] codes)
      have hrow0 := hrow [] List.nil_prefix
      have hrow1 := hrow [sc] (List.prefix_append [sc] codes)
      simp only [List.foldl_cons, List.foldl_nil] at hfirst hrow0 hrow1
      rw [← held_ps2Key, hidx] at hfirst hrow1
      rw [hidx] at hrow0
      refine ih (h.key hx (hcodes sc List.mem_cons_self) hfirst hrow0 hrow1)
        (fun k hk => hcodes k (List.mem_cons_of_mem sc hk)) (fun part hpart => ?_)
        (fun part hpart => ?_)
      · rw [held_ps2Key]
        exact hkept (sc :: part) (List.prefix_cons_inj sc |>.mpr hpart)
      · rw [held_ps2Key]
        exact hrow (sc :: part) (List.prefix_cons_inj sc |>.mpr hpart)

end Echo

/-! ## A line -/

/-- The line is read up to the first Enter, the buffer then holds the edited
    text with a NUL, all accesses are within the arrays, and what is typed and
    erased again on one row leaves the cursor where it was. -/
theorem ps2_read_line_exact {maxLen : Int} (hmax : 1 ≤ maxLen) (buf : Nat → Byte) (screen : Screen)
    {before after : List Byte} {sc : Byte} (hbefore : ∀ k ∈ before, ¬ IsEnter k)
    (henter : IsEnter sc) :
    ∃ s', ps2ReadLine maxLen (before ++ sc :: after) (ps2Start buf screen) = some (s', after) ∧
      (List.range ((before.foldl (edit maxLen) []).length + 1)).map s'.buf
        = before.foldl (edit maxLen) [] ++ [0] ∧
      s'.Within maxLen ∧
      ∀ first codes last, before = first ++ codes ++ last →
        let d := (exec (ps2Key maxLen) (ps2Start buf screen) first).screen.design
        let d' := (exec (ps2Key maxLen) (ps2Start buf screen) (first ++ codes)).screen.design
        0 ≤ d.x → TypedErased maxLen d (first.foldl (edit maxLen) []) codes →
          d'.x = d.x ∧ d'.y = d.y := by
  have hheld : ∀ codes, (exec (ps2Key maxLen) (ps2Start buf screen) codes).held
      = codes.foldl (edit maxLen) [] := held_exec maxLen (ps2Start buf screen)
  have hstart : (ps2Start buf screen).Within maxLen :=
    ⟨by show (0 : Int) < maxLen; omega, fun i hi => absurd hi List.not_mem_nil,
      fun i hi => absurd hi List.not_mem_nil⟩
  refine ⟨_, ps2ReadLine_first hbefore henter _, ?_, ?_, ?_⟩
  · rw [← hheld, Ps2Line.held_length]
    exact Ps2Line.held_put _ 0
  · have hput := ((hstart.exec before).look henter.press.1).put 0
    exact ⟨hput.room, hput.stored, hput.looked⟩
  · rintro first codes last rfl d d' hx herased
    have hidx : (exec (ps2Key maxLen) (ps2Start buf screen) first).idx
        = (first.foldl (edit maxLen) []).length := by
      rw [← hheld, Ps2Line.held_length]
    have hcodes : ∀ k ∈ codes, ¬ IsEnter k := fun k hk =>
      hbefore k (List.mem_append_left _ (List.mem_append_right _ hk))
    have hecho : Echoed d (first.foldl (edit maxLen) []).length
        (exec (ps2Key maxLen) (ps2Start buf screen) first) := by
      refine ⟨Nat.le_of_eq hidx.symm, ?_, rfl⟩
      rw [hidx, Int.sub_self, Int.add_zero]
    have hkept := herased.kept
    have hrow := herased.row
    rw [← hheld] at hkept hrow
    have hend := hecho.exec hx hcodes (by rw [← hheld]; exact hkept) (by rw [← hheld]; exact hrow)
    have hidx' : (exec (ps2Key maxLen) (exec (ps2Key maxLen) (ps2Start buf screen) first)
        codes).idx = (first.foldl (edit maxLen) []).length := by
      rw [← Ps2Line.held_length, held_exec, hheld]
      exact herased.back
    have hcolumn := hend.column
    rw [hidx', Int.sub_self, Int.add_zero] at hcolumn
    have hd' : d' = (exec (ps2Key maxLen) (exec (ps2Key maxLen) (ps2Start buf screen) first)
        codes).screen.design := by
      show (exec (ps2Key maxLen) (ps2Start buf screen) (first ++ codes)).screen.design = _
      rw [exec_append]
    rw [hd']
    exact ⟨hcolumn, hend.row⟩

/-- `a`, `b`, backspace, the release of backspace, and Enter. -/
theorem ps2_read_line_short :
    ∃ s', ps2ReadLine 8 ([0x1E, 0x30, 0x0E, 0x8E] ++ 0x1C :: [0x10])
        (ps2Start (fun _ => 0xFF) emptyScreen)
        = some (s', [0x10]) ∧
      (List.range 2).map s'.buf = [0x61, 0] ∧ s'.Within 8 ∧
      (exec (ps2Key 8) (ps2Start (fun _ => 0xFF) emptyScreen) [0x1E, 0x30, 0x0E]).screen.design.x
        = (exec (ps2Key 8) (ps2Start (fun _ => 0xFF) emptyScreen) [0x1E]).screen.design.x := by
  obtain ⟨s', hline, hbuf, hwithin, hecho⟩ := @ps2_read_line_exact 8 (by decide) (fun _ => 0xFF)
    emptyScreen [0x1E, 0x30, 0x0E, 0x8E] [0x10] 0x1C (by decide) (by decide)
  have hparts : ∀ part : List Byte, part <+: [0x30, 0x0E] →
      part ∈ ([[], [0x30], [0x30, 0x0E]] : List (List Byte)) := by
    intro part h
    simp only [List.prefix_cons_iff, List.prefix_nil] at h
    rcases h with rfl | ⟨t, rfl, rfl | ⟨u, rfl, rfl⟩⟩ <;> simp
  have herased : TypedErased 8
      (exec (ps2Key 8) (ps2Start (fun _ => 0xFF) emptyScreen) [0x1E]).screen.design
      ([0x1E].foldl (edit 8) []) [0x30, 0x0E] := by
    refine ⟨fun part h => ?_, fun part h => ?_, by decide⟩
    · have hall : ∀ part ∈ ([[], [0x30], [0x30, 0x0E]] : List (List Byte)),
          ([0x1E].foldl (edit 8) []).length
            ≤ (part.foldl (edit 8) ([0x1E].foldl (edit 8) [])).length := by
        decide
      exact hall part (hparts part h)
    · have hall : ∀ part ∈ ([[], [0x30], [0x30, 0x0E]] : List (List Byte)),
          (exec (ps2Key 8) (ps2Start (fun _ => 0xFF) emptyScreen) [0x1E]).screen.design.x
            + ((part.foldl (edit 8) ([0x1E].foldl (edit 8) [])).length
              - ([0x1E].foldl (edit 8) []).length) ≤ vmemMaxCols := by
        decide
      exact hall part (hparts part h)
  exact ⟨s', hline, hbuf, hwithin, (hecho [0x1E] [0x30, 0x0E] [0x8E] rfl (by decide) herased).1⟩

end Pfi
