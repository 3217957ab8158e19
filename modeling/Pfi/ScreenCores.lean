import Pfi.LockedObject
import Pfi.Vmem

/-! # The screen of several cores

    `vmem_printc` reads and writes a design and the text buffer under
    `vmemc_lock`, one access after the other, and `vmem_set_cursor` and
    `vmem_disable_cursor` write pairs of an index and a value to the display
    controller under `vmem_cur_lock`.  Each is an operation on an object behind a
    lock.

    So the cores print as one core would that prints their characters in the
    order in which the lock was taken, whatever designs they print with
    (`text_cores_serial`), and the position of the cursor is that of the last
    call that took its lock, never a byte of one and a byte of another
    (`cursor_cores_serial`).  The cursor is set after `vmemc_lock` was released, so
    the two orders need not be the same. -/

namespace Pfi

open Run LockedObject

/-! ## Characters -/

/-- What `vmemc_lock` guards: the designs, the words from `VMEM` on, and the local
    coordinate of the holder. -/
structure TextState where
  designs : Nat → VMemDesign
  vmem : Int → BitVec 16
  coord : Int

/-- A store to a design. -/
def TextState.setDesign (t : TextState) (d : Nat) (design : VMemDesign) : TextState :=
  { t with designs := Function.update t.designs d design }

/-- The accesses of `vmem_printc` under the lock. -/
def printcSteps (op : Nat × Byte) : List (TextState → TextState) :=
  let d := op.1
  let c := op.2
  if c = newline then
    [fun t => t.setDesign d { t.designs d with x := 0 },
      fun t => { t with coord := uint16 ((t.designs d).y + 1) },
      fun t => t.setDesign d { t.designs d with y := t.coord }]
  else
    [fun t => { t with
        vmem := Function.update t.vmem (t.designs d).index (cellOf (t.designs d).attr c) },
      fun t => { t with coord := uint16 ((t.designs d).x + 1) },
      fun t => t.setDesign d { t.designs d with x := t.coord }]

/-- The screen as one design sees it. -/
def TextState.screen (t : TextState) (d : Nat) : Screen where
  design := t.designs d
  vmem := t.vmem
  cursor := 0
  serial := []
  drawn := []

/-- `vmem_printc` with a design, alone. -/
def TextState.printc (t : TextState) (op : Nat × Byte) : TextState :=
  let s := vmemPrintc (t.screen op.1) op.2
  { t with designs := Function.update t.designs op.1 s.design, vmem := s.vmem }

/-- The same designs and the same text. -/
structure SameText (t u : TextState) : Prop where
  designs : t.designs = u.designs
  vmem : t.vmem = u.vmem

section Text

variable {t u : TextState} {op : Nat × Byte} {ops : List (Nat × Byte)}

/-- The accesses of a character, one after the other. -/
theorem sameText_printc (h : SameText t u) (op : Nat × Byte) :
    SameText (atOnce printcSteps t op) (u.printc op) := by
  obtain ⟨hdesigns, hvmem⟩ := h
  obtain ⟨d, c⟩ := op
  by_cases hc : c = newline
  · obtain ⟨hd, hv⟩ := vmemPrintc_newline (u.screen d)
    unfold atOnce printcSteps TextState.printc
    dsimp only
    rw [if_pos hc, hc, hd, hv]
    refine ⟨?_, hvmem⟩
    simp only [finish_cons, finish_nil, TextState.setDesign, Function.update_self,
      Function.update_idem, hdesigns]
    rfl
  · obtain ⟨hd, hv⟩ := @vmemPrintc_other (u.screen d) c hc
    unfold atOnce printcSteps TextState.printc
    dsimp only
    rw [if_neg hc, hd, hv]
    refine ⟨?_, ?_⟩
    · simp only [finish_cons, finish_nil, TextState.setDesign, hdesigns]
      rfl
    · simp only [finish_cons, finish_nil, TextState.setDesign, hdesigns, hvmem]
      rfl

theorem sameText_exec (h : SameText t u) (ops : List (Nat × Byte)) :
    SameText (exec (atOnce printcSteps) t ops) (exec TextState.printc u ops) := by
  induction ops generalizing t u with
  | nil => exact h
  | cons op ops ih => exact ih (sameText_printc h op)

/-- However the cores that print are interleaved, the designs and the text are
    those of one core that prints their characters in the order in which the lock
    was taken, once the holder is done; and each core has printed its characters in
    order, up to one that waits. -/
theorem text_cores_serial {C : Type} [DecidableEq C] {s : State TextState (Nat × Byte) C}
    (h : Reachable (· = State.start t) (Step printcSteps) s) :
    (∀ c, s.opsOf c ++ (s.phase c).pending = s.calls c)
    ∧ (s.holder = none → SameText s.obj (exec TextState.printc t s.ops))
    ∧ ∀ c rest, s.phase c = .inside rest →
        SameText (finish s.obj rest) (exec TextState.printc t s.ops) := by
  have hserial := serializes h
  have hexec := @sameText_exec t t ⟨rfl, rfl⟩ s.ops
  refine ⟨hserial.called, fun hfree => ?_, fun c rest hc => ?_⟩
  · rw [hserial.free hfree]
    exact hexec
  · rw [hserial.inside c rest hc]
    exact hexec

/-- Two designs on an empty screen. -/
def twoDesigns : TextState where
  designs := fun d => { x := d, y := 0, fg := .white, bg := .black, serialOut := 0 }
  vmem := fun _ => 0
  coord := 0

/-- One core has printed, another one waits meanwhile. -/
theorem text_cores_serial_two : ∃ s : State TextState (Nat × Byte) Bool,
    s.ops = [(0, 0x41)]
      ∧ (s.holder = none → SameText s.obj (exec TextState.printc twoDesigns s.ops)) := by
  refine ⟨_, ?_, (text_cores_serial (C := Bool)
    (.step (.step (.step (.step (.step (.step (.step (.start rfl)
      (.call (c := false) (0, 0x41) rfl))
      (.acquire (c := false) rfl rfl))
      (.small (c := false) rfl))
      (.call (c := true) (1, 0x42) rfl))
      (.small (c := false) rfl))
      (.small (c := false) rfl))
      (.release (c := false) rfl))).2.1⟩
  rfl

end Text

/-! ## The cursor -/

/-- The registers of the display controller, and the one that is selected. -/
structure Crtc where
  index : BitVec 8
  regs : BitVec 8 → BitVec 8

def Crtc.outb (k : Crtc) (port : Nat) (value : BitVec 8) : Crtc :=
  if port = 0x3D4 then { k with index := value }
  else if port = 0x3D5 then { k with regs := Function.update k.regs k.index value }
  else k

/-- A call that takes `vmem_cur_lock`. -/
inductive CursorCall where
  | set (x y : Int)
  | disable

/-- The port writes of `vmem_set_cursor` and `vmem_disable_cursor`. -/
def cursorSteps : CursorCall → List (Crtc → Crtc)
  | .set x y =>
      let pos := uint16 (uint16 y * vmemMaxCols + uint16 x)
      [fun k => k.outb 0x3D4 0x0E,
        fun k => k.outb 0x3D5 (BitVec.ofInt 8 (pos / 2 ^ 8)),
        fun k => k.outb 0x3D4 0x0F,
        fun k => k.outb 0x3D5 (BitVec.ofInt 8 pos)]
  | .disable => [fun k => k.outb 0x3D4 0x0A, fun k => k.outb 0x3D5 0x20]

/-- The position that the controller shows. -/
def Crtc.cursor (k : Crtc) : Int := (k.regs 0x0E).toNat * 2 ^ 8 + (k.regs 0x0F).toNat

/-- The call on the screen. -/
def cursorCall (s : Screen) : CursorCall → Screen
  | .set x y => vmemSetCursor s x y
  | .disable => s

section Cursor

variable {k : Crtc} {scr : Screen}

/-- The index port selects a register. -/
theorem outb_index (k : Crtc) (value : BitVec 8) :
    k.outb 0x3D4 value = { k with index := value } := if_pos rfl

/-- The data port writes the one that is selected. -/
theorem outb_data (k : Crtc) (value : BitVec 8) :
    k.outb 0x3D5 value = { k with regs := Function.update k.regs k.index value } := by
  unfold Crtc.outb
  rw [if_neg (by decide), if_pos rfl]

/-- The port writes of a call, one after the other. -/
theorem cursor_atOnce (h : k.cursor = scr.cursor) (call : CursorCall) :
    (atOnce cursorSteps k call).cursor = (cursorCall scr call).cursor := by
  cases call with
  | set x y =>
      have hpos : 0 ≤ uint16 (uint16 y * vmemMaxCols + uint16 x)
          ∧ uint16 (uint16 y * vmemMaxCols + uint16 x) < 2 ^ 16 := by
        unfold uint16
        omega
      show Crtc.cursor _ = uint16 (uint16 y * vmemMaxCols + uint16 x)
      unfold atOnce cursorSteps
      dsimp only
      generalize uint16 (uint16 y * vmemMaxCols + uint16 x) = pos at hpos ⊢
      have hhigh : (BitVec.ofInt 8 (pos / 2 ^ 8)).toNat = pos / 2 ^ 8 := by
        rw [BitVec.toNat_ofInt]
        omega
      have hlow : ((BitVec.ofInt 8 pos).toNat : Int) = pos % 2 ^ 8 := by
        rw [BitVec.toNat_ofInt]
        omega
      have hne : (0x0E : BitVec 8) ≠ 0x0F := by decide
      unfold Crtc.cursor
      simp only [finish_cons, finish_nil, outb_index, outb_data]
      rw [Function.update_of_ne hne, Function.update_self, Function.update_self, hhigh, hlow]
      omega
  | disable =>
      show Crtc.cursor _ = scr.cursor
      rw [← h]
      rfl

theorem cursor_exec (h : k.cursor = scr.cursor) (calls : List CursorCall) :
    (exec (atOnce cursorSteps) k calls).cursor = (exec cursorCall scr calls).cursor := by
  induction calls generalizing k scr with
  | nil => exact h
  | cons call calls ih => exact ih (cursor_atOnce h call)

/-- However the cores that set the cursor are interleaved, the controller shows
    the position of the calls done one after the other, in the order in which the
    lock was taken. -/
theorem cursor_cores_serial {C : Type} [DecidableEq C] {s : State Crtc CursorCall C}
    (h0 : k.cursor = scr.cursor) (h : Reachable (· = State.start k) (Step cursorSteps) s) :
    (∀ c, s.opsOf c ++ (s.phase c).pending = s.calls c)
    ∧ (s.holder = none → s.obj.cursor = (exec cursorCall scr s.ops).cursor)
    ∧ ∀ c rest, s.phase c = .inside rest →
        (finish s.obj rest).cursor = (exec cursorCall scr s.ops).cursor := by
  have hserial := serializes h
  refine ⟨hserial.called, fun hfree => ?_, fun c rest hc => ?_⟩
  · rw [hserial.free hfree]
    exact cursor_exec h0 s.ops
  · rw [hserial.inside c rest hc]
    exact cursor_exec h0 s.ops

/-- A call has set the cursor, another one is between its two halves. -/
theorem cursor_cores_serial_two : ∃ s : State Crtc CursorCall Bool,
    s.ops.length = 2
      ∧ ∀ c rest, s.phase c = .inside rest → (finish s.obj rest).cursor
          = (exec cursorCall (twoDesigns.screen 0) s.ops).cursor := by
  refine ⟨_, ?_, (@cursor_cores_serial ⟨0, fun _ => 0⟩ (twoDesigns.screen 0) Bool _ _ rfl
    (.step (.step (.step (.step (.step (.step (.step (.step (.step (.step (.start rfl)
      (.call (c := false) (.set 5 2) rfl))
      (.acquire (c := false) rfl rfl))
      (.small (c := false) rfl))
      (.small (c := false) rfl))
      (.small (c := false) rfl))
      (.small (c := false) rfl))
      (.release (c := false) rfl))
      (.call (c := true) (.set 7 9) rfl))
      (.acquire (c := true) rfl rfl))
      (.small (c := true) rfl))).2.2⟩
  rfl

end Cursor

end Pfi
