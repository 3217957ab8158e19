import Pfi.ContextSwitch
import Pfi.Idt

/-! # Interrupts and exceptions

    On an interrupt the processor aligns the stack pointer, pushes five words
    and goes to the offset of the gate.  A stub of the firmware pushes the
    fifteen general registers, calls its handler, pops them in the opposite
    order and returns with `iretq`.

    All of it is words pushed from the aligned stack pointer.  A handler that
    keeps to its part of the stack leaves them, so each is popped again
    (`interruptStub_resumes`): the thread goes on with all its registers, and of
    its memory only bytes below its stack pointer have changed.  They may begin
    at the stack pointer itself, so nothing below it is safe.

    The stubs of the exceptions leave their words as a `reg_trap_frame`.  They
    push a zero for the error code where they take the processor to push none,
    and the frame is right if it does as they take it (`exception_frame`). -/

namespace Pfi

open ByteStore Run

/-! ## The processor -/

/-- The general registers without the stack pointer. -/
structure Regs where
  rax : Word
  rcx : Word
  rdx : Word
  rbx : Word
  rbp : Word
  rsi : Word
  rdi : Word
  r8 : Word
  r9 : Word
  r10 : Word
  r11 : Word
  r12 : Word
  r13 : Word
  r14 : Word
  r15 : Word
deriving DecidableEq

structure CpuState extends Regs where
  rsp : Word
  rip : Word
  rflags : Word
  cs : Word
  ss : Word
  mem : Mem

/-- The stack pointer that the processor pushes from. -/
def alignStack (rsp : Word) : Word := rsp &&& ~~~15

/-- The flags `TF`, `IF`, `NT` and `RF` are cleared. -/
def gateFlags (rflags : Word) : Word := rflags &&& ~~~0x14300

def CpuState.pushes (c : CpuState) (ws : List Word) : CpuState :=
  { c with mem := pushAll c.mem c.rsp ws, rsp := c.rsp - BitVec.ofNat 64 (8 * ws.length) }

/-- An interrupt or an exception through a gate that uses the stack in use. -/
def CpuState.deliver (c : CpuState) (g : Gate) (err : Option Word) : CpuState :=
  let pushed := ({ c with rsp := alignStack c.rsp } : CpuState).pushes
    ([c.ss, c.rsp, c.rflags, c.cs, c.rip] ++ err.toList)
  { pushed with rflags := gateFlags c.rflags, cs := BitVec.ofNat 64 g.selector, rip := g.offset }

/-- The `i`-th word from the stack pointer on. -/
def stackWord (m : Mem) (rsp : Addr) (i : Nat) : Word := load64 m (rsp + BitVec.ofNat 64 (8 * i))

def CpuState.iretq (c : CpuState) : CpuState :=
  { c with
    rip := stackWord c.mem c.rsp 0
    cs := stackWord c.mem c.rsp 1
    rflags := stackWord c.mem c.rsp 2
    rsp := stackWord c.mem c.rsp 3
    ss := stackWord c.mem c.rsp 4 }

/-! ## The stubs -/

/-- The registers in the order in which the stubs push them. -/
def Regs.pushed (r : Regs) : List Word :=
  [r.rax, r.rcx, r.rdx, r.rbx, r.rbp, r.rsi, r.rdi, r.r8, r.r9, r.r10, r.r11, r.r12, r.r13, r.r14,
    r.r15]

/-- The fifteen pops. -/
def popRegisters (m : Mem) (rsp : Addr) : Regs where
  r15 := stackWord m rsp 0
  r14 := stackWord m rsp 1
  r13 := stackWord m rsp 2
  r12 := stackWord m rsp 3
  r11 := stackWord m rsp 4
  r10 := stackWord m rsp 5
  r9 := stackWord m rsp 6
  r8 := stackWord m rsp 7
  rdi := stackWord m rsp 8
  rsi := stackWord m rsp 9
  rbp := stackWord m rsp 10
  rbx := stackWord m rsp 11
  rdx := stackWord m rsp 12
  rcx := stackWord m rsp 13
  rax := stackWord m rsp 14

/-- The end of a stub: the fifteen pops, and `iretq`. -/
def CpuState.resume (c : CpuState) : CpuState :=
  ({ c with toRegs := popRegisters c.mem c.rsp, rsp := c.rsp + 120 } : CpuState).iretq

/-- `aos_int_smp_timer` and `aos_int_smp_ipi`: a handler is called, and returns
    to the pops. -/
def interruptStub (handler : CpuState → CpuState) (ret : Word) (c : CpuState) : CpuState :=
  (handler ((c.pushes c.toRegs.pushed).pushes [ret])).resume

/-- A compiled function from its first instruction to the return: it takes the
    return address off the stack, and of the stack it writes `room` bytes at
    most, the return address among them.  The write of the handlers to the
    end-of-interrupt register of the local APIC goes to the device, and is no
    change of memory. -/
structure Returns (room : Nat) (handler : CpuState → CpuState) : Prop where
  rsp : ∀ c, (handler c).rsp = c.rsp + 8
  mem : ∀ c p, ¬ (below (c.rsp + 8) room).Has p → (handler c).mem p = c.mem p

/-- Where the stubs expect the processor to push an error code. -/
def expectsError (n : Nat) : Bool := n = 8 ∨ 10 ≤ n ∧ n ≤ 14 ∨ n = 17 ∨ n = 21

/-- The pushes of `aos_system_exception_asm_n`. -/
def exceptionPushes (n : Nat) (c : CpuState) : CpuState :=
  let c := if expectsError n then c else c.pushes [0]
  let c := c.pushes [BitVec.ofNat 64 n]
  c.pushes c.toRegs.pushed

/-- `aos_system_exception_asm_n` up to the call.  The `cld` in front of it, which
    is for the compiled handler, is left out. -/
def exceptionStub (n : Nat) (c : CpuState) : CpuState :=
  let c := exceptionPushes n c
  { c with rdi := c.rsp }

/-- `struct reg_trap_frame`. -/
structure TrapFrame extends Regs where
  intNo : Word
  errCode : Word
  rip : Word
  cs : Word
  rflags : Word
  rsp : Word
  ss : Word
deriving DecidableEq

def trapFrameAt (m : Mem) (a : Addr) : TrapFrame where
  toRegs := popRegisters m a
  intNo := stackWord m a 15
  errCode := stackWord m a 16
  rip := stackWord m a 17
  cs := stackWord m a 18
  rflags := stackWord m a 19
  rsp := stackWord m a 20
  ss := stackWord m a 21

/-! ## Words on the stack -/

section Stack

variable {m m' : Mem} {top : Addr} {ws ws' : List Word}

theorem below_mono {n k : Nat} (h : n ≤ k) : (below top n).Sub (below top k) := by
  intro p hp
  unfold below Range.Has at *
  dsimp only at *
  bv_omega

/-- Of two pieces of a stack the second is below the first. -/
theorem below_apart {n k : Nat} (h : n + k ≤ 2 ^ 63) :
    (below top n).Apart (below (top - BitVec.ofNat 64 n) k) := by
  intro p hp hp'
  unfold below Range.Has at hp hp'
  dsimp only at hp hp'
  bv_omega

theorem below_below {n k : Nat} :
    (below (top - BitVec.ofNat 64 n) k).Sub (below top (n + k)) := by
  intro p hp
  have hbase : top - BitVec.ofNat 64 n - BitVec.ofNat 64 k = top - BitVec.ofNat 64 (n + k) := by
    bv_omega
  unfold below Range.Has at *
  dsimp only at *
  rw [hbase] at hp
  omega

theorem pushAll_append :
    pushAll (pushAll m top ws) (top - BitVec.ofNat 64 (8 * ws.length)) ws'
      = pushAll m top (ws ++ ws') := by
  induction ws generalizing m top with
  | nil =>
      have hsp : top - BitVec.ofNat 64 (8 * ([] : List Word).length) = top := by
        simp
      rw [hsp]
      rfl
  | cons w ws ih =>
      have hsp : top - BitVec.ofNat 64 (8 * (w :: ws).length)
          = top - 8 - BitVec.ofNat 64 (8 * ws.length) := by
        rw [List.length_cons]
        bv_omega
      rw [hsp]
      exact ih

/-- The words that were pushed, from the last one on. -/
theorem stackWord_pushed (hlen : 8 * ws.length ≤ 2 ^ 63) {i : Nat} (hi : i < ws.length)
    (hsame : ∀ p, (below top (8 * ws.length)).Has p → m' p = pushAll m top ws p) :
    stackWord m' (top - BitVec.ofNat 64 (8 * ws.length)) i = ws.reverse.getD i 0 := by
  have hplace : top - BitVec.ofNat 64 (8 * ws.length) + BitVec.ofNat 64 (8 * i)
      = slot top (ws.length - 1 - i) := by
    unfold slot
    bv_omega
  unfold stackWord
  rw [hplace, load_slot_congr (by omega) hsame, load_pushAll (by omega) (by omega),
    List.getD_eq_getElem?_getD, List.getD_eq_getElem?_getD, List.getElem?_reverse hi]

end Stack

/-- The processor and a stub have pushed a list of words. -/
structure CpuState.Pushed (c c' : CpuState) (ws : List Word) : Prop where
  mem : c'.mem = pushAll c.mem (alignStack c.rsp) ws
  rsp : c'.rsp = alignStack c.rsp - BitVec.ofNat 64 (8 * ws.length)
  registers : c'.toRegs = c.toRegs

section Pushed

variable {c c' : CpuState} {ws vs : List Word} {g : Gate} {err : Option Word}

theorem CpuState.pushed_deliver (c : CpuState) (g : Gate) (err : Option Word) :
    c.Pushed (c.deliver g err) ([c.ss, c.rsp, c.rflags, c.cs, c.rip] ++ err.toList) :=
  ⟨rfl, rfl, rfl⟩

theorem CpuState.Pushed.pushes (h : c.Pushed c' ws) (vs : List Word) :
    c.Pushed (c'.pushes vs) (ws ++ vs) := by
  refine ⟨?_, ?_, h.registers⟩
  · show pushAll c'.mem c'.rsp vs = _
    rw [h.mem, h.rsp, pushAll_append]
  · show c'.rsp - BitVec.ofNat 64 (8 * vs.length) = _
    rw [h.rsp, List.length_append]
    bv_omega

/-- The words are read from the stack pointer on. -/
theorem CpuState.Pushed.word (h : c.Pushed c' ws) (hlen : 8 * ws.length ≤ 2 ^ 63) {i : Nat}
    (hi : i < ws.length) {m : Mem}
    (hsame : ∀ p, (below (alignStack c.rsp) (8 * ws.length)).Has p → m p = c'.mem p) :
    stackWord m c'.rsp i = ws.reverse.getD i 0 := by
  rw [h.mem] at hsame
  rw [h.rsp]
  exact stackWord_pushed hlen hi hsame

/-- The registers that were pushed last are popped. -/
theorem CpuState.Pushed.registers_popped (h : c.Pushed c' (ws ++ c.toRegs.pushed))
    (hlen : 8 * (ws.length + 15) ≤ 2 ^ 63) {m : Mem}
    (hsame : ∀ p, (below (alignStack c.rsp) (8 * (ws.length + 15))).Has p → m p = c'.mem p) :
    popRegisters m c'.rsp = c.toRegs := by
  have hcount : (ws ++ c.toRegs.pushed).length = ws.length + 15 := List.length_append
  rw [← hcount] at hlen hsame
  have hword : ∀ i, i < 15 → stackWord m c'.rsp i = c.toRegs.pushed.reverse.getD i 0 := by
    intro i hi
    rw [h.word hlen (by omega) hsame, List.reverse_append, List.getD_eq_getElem?_getD,
      List.getElem?_append_left (by rw [List.length_reverse]; exact hi),
      ← List.getD_eq_getElem?_getD]
  unfold popRegisters
  rw [hword 0 (by decide), hword 1 (by decide), hword 2 (by decide), hword 3 (by decide),
    hword 4 (by decide), hword 5 (by decide), hword 6 (by decide), hword 7 (by decide),
    hword 8 (by decide), hword 9 (by decide), hword 10 (by decide), hword 11 (by decide),
    hword 12 (by decide), hword 13 (by decide), hword 14 (by decide)]
  rfl

/-- The words of the processor are behind the fifteen registers. -/
theorem CpuState.Pushed.frame_popped (h : c.Pushed c' (ws ++ c.toRegs.pushed))
    (hlen : 8 * (ws.length + 15) ≤ 2 ^ 63) {m : Mem}
    (hsame : ∀ p, (below (alignStack c.rsp) (8 * (ws.length + 15))).Has p → m p = c'.mem p)
    {i : Nat} (hi : i < ws.length) : stackWord m (c'.rsp + 120) i = ws.reverse.getD i 0 := by
  have hcount : (ws ++ c.toRegs.pushed).length = ws.length + 15 := List.length_append
  rw [← hcount] at hlen hsame
  have hread := h.word hlen (i := 15 + i) (by omega) hsame
  have hplace : c'.rsp + 120 + BitVec.ofNat 64 (8 * i)
      = c'.rsp + BitVec.ofNat 64 (8 * (15 + i)) := by
    bv_omega
  have hregs : c.toRegs.pushed.reverse.length ≤ 15 + i := Nat.le_add_right 15 i
  unfold stackWord at hread ⊢
  rw [hplace, hread, List.reverse_append, List.getD_eq_getElem?_getD,
    List.getElem?_append_right hregs, List.getD_eq_getElem?_getD]
  exact congrArg (fun k => (ws.reverse[k]?).getD 0) (Nat.add_sub_cancel_left 15 i)

end Pushed

/-! ## The interrupt stubs -/

/-- Bytes that an interrupt may write: those below the aligned stack pointer, for
    the processor, the registers and the handler. -/
def interruptRange (rsp : Word) (room : Nat) : Range := below (alignStack rsp) (160 + room)

section Stub

variable {handler : CpuState → CpuState} {room : Nat}

/-- A call comes back with the stack pointer it was made with, and the return
    address and the frame of the handler are below. -/
theorem Returns.call (h : Returns room handler) (hroom : 8 ≤ room ∧ room ≤ 2 ^ 63) (ret : Word)
    (c : CpuState) : (handler (c.pushes [ret])).rsp = c.rsp ∧
      ∀ p, ¬ (below c.rsp room).Has p → (handler (c.pushes [ret])).mem p = c.mem p := by
  have hcall : (c.pushes [ret]).rsp = c.rsp - 8 := rfl
  have hback : c.rsp - 8 + 8 = c.rsp := by
    bv_omega
  refine ⟨?_, fun p hp => ?_⟩
  · rw [h.rsp, hcall, hback]
  · rw [h.mem _ p (by rw [hcall, hback]; exact hp)]
    refine pushAll_apart (show 8 * 1 ≤ 2 ^ 64 by decide) (fun hc => hp ?_)
    unfold below Range.Has at *
    dsimp only [List.length_cons, List.length_nil] at *
    bv_omega

/-- What was pushed is popped: all but the memory is as it was. -/
theorem CpuState.Pushed.resume {c c₁ c₂ : CpuState}
    (h : c.Pushed c₁ ([c.ss, c.rsp, c.rflags, c.cs, c.rip] ++ c.toRegs.pushed))
    (hback : c₂.rsp = c₁.rsp)
    (hsame : ∀ p, (below (alignStack c.rsp) (8 * (5 + 15))).Has p → c₂.mem p = c₁.mem p) :
    c₂.resume = { c with mem := c₂.mem } := by
  have hlen : 8 * (5 + 15) ≤ 2 ^ 63 := by decide
  have hpopped := h.registers_popped hlen hsame
  have hword : ∀ i, i < 5 → stackWord c₂.mem (c₁.rsp + 120) i
      = [c.rip, c.cs, c.rflags, c.rsp, c.ss].getD i 0 := by
    intro i hi
    exact h.frame_popped hlen hsame hi
  unfold CpuState.resume CpuState.iretq
  dsimp only
  rw [hback, hword 0 (by decide), hword 1 (by decide), hword 2 (by decide), hword 3 (by decide),
    hword 4 (by decide), hpopped]
  rfl

/-- What an interrupt leaves below the aligned stack pointer. -/
def CpuState.interruptWords (c : CpuState) : List Word :=
  [c.ss, c.rsp, c.rflags, c.cs, c.rip] ++ c.toRegs.pushed

/-- Whatever a thread is at, it goes on after the interrupt with all its
    registers.  Its memory holds twenty words below the aligned stack pointer,
    and but for the frame of the handler nothing else has changed. -/
theorem interruptStub_resumes (hreturns : Returns room handler)
    (hroom : 8 ≤ room ∧ 160 + room ≤ 2 ^ 63) (ret : Word) (c : CpuState) (g : Gate) :
    ∃ m, interruptStub handler ret (c.deliver g none) = { c with mem := m } ∧
      ∀ p, ¬ (below (alignStack c.rsp - 160) room).Has p →
        m p = pushAll c.mem (alignStack c.rsp) c.interruptWords p := by
  have hsaved : c.Pushed ((c.deliver g none).pushes (c.deliver g none).toRegs.pushed)
      c.interruptWords := (c.pushed_deliver g none).pushes c.toRegs.pushed
  have hstub : interruptStub handler ret (c.deliver g none)
      = (handler (((c.deliver g none).pushes (c.deliver g none).toRegs.pushed).pushes
          [ret])).resume := rfl
  generalize (c.deliver g none).pushes (c.deliver g none).toRegs.pushed = c₁ at hsaved hstub
  obtain ⟨hback, hkept⟩ := hreturns.call ⟨hroom.1, by omega⟩ ret c₁
  generalize handler (c₁.pushes [ret]) = c₂ at hback hkept hstub
  have hcount : c.interruptWords.length = 20 := rfl
  have hrsp := hsaved.rsp
  have hmem := hsaved.mem
  rw [hcount] at hrsp
  rw [hrsp] at hkept
  have hsum : 8 * 20 + room ≤ 2 ^ 63 := hroom.2
  refine ⟨c₂.mem, ?_, fun p hp => ?_⟩
  · rw [hstub]
    -- the frame of the handler is below the pushed words
    exact hsaved.resume hback (fun p hp => hkept p (below_apart hsum p hp))
  · rw [hkept p hp, hmem]

/-- Bytes out of the range stay. -/
theorem interruptWords_apart {c : CpuState} {p : Addr} (hp : ¬ (interruptRange c.rsp room).Has p) :
    pushAll c.mem (alignStack c.rsp) c.interruptWords p = c.mem p := by
  have hcount : c.interruptWords.length = 20 := rfl
  refine pushAll_apart (by rw [hcount]; decide) (fun hc => hp ?_)
  rw [hcount] at hc
  exact below_mono (Nat.le_add_right _ room) p hc

end Stub

/-! ## The exception stubs -/

/-- What a processor was at, with the number and the error code of an
    exception. -/
def CpuState.trapFrame (c : CpuState) (n : Nat) (errCode : Word) : TrapFrame :=
  { c.toRegs with
    intNo := BitVec.ofNat 64 n
    errCode := errCode
    rip := c.rip
    cs := c.cs
    rflags := c.rflags
    rsp := c.rsp
    ss := c.ss }

/-- The same with a word too many on the stack: the error code is taken for the
    place that the exception was at. -/
def CpuState.trapFrameAbove (c : CpuState) (n : Nat) (errCode : Word) : TrapFrame :=
  { c.trapFrame n 0 with rip := errCode, cs := c.rip, rflags := c.cs, rsp := c.rflags, ss := c.rsp }

/-- And with a word too few. -/
def CpuState.trapFrameBelow (c : CpuState) (n : Nat) : TrapFrame :=
  { c.trapFrame n c.rip with
    rip := c.cs, cs := c.rflags, rflags := c.rsp, rsp := c.ss
    ss := load64 c.mem (alignStack c.rsp) }

section Exception

variable {c c' : CpuState} {ws : List Word}

/-- The words below the registers in a `reg_trap_frame`. -/
def frameWords (n : Nat) (err : Option Word) (c : CpuState) : List Word :=
  [c.ss, c.rsp, c.rflags, c.cs, c.rip] ++ err.toList
    ++ ((if expectsError n then [] else [0]) ++ [BitVec.ofNat 64 n])

theorem CpuState.pushed_exception (c : CpuState) (g : Gate) (n : Nat) (err : Option Word) :
    c.Pushed (exceptionPushes n (c.deliver g err))
      (frameWords n err c ++ c.toRegs.pushed) := by
  have hdelivered := c.pushed_deliver g err
  unfold exceptionPushes frameWords
  by_cases hexpects : expectsError n = true
  · rw [if_pos hexpects, if_pos hexpects]
    exact (hdelivered.pushes [BitVec.ofNat 64 n]).pushes c.toRegs.pushed
  · rw [if_neg hexpects, if_neg hexpects]
    have hzero := (hdelivered.pushes [0]).pushes [BitVec.ofNat 64 n]
    rw [List.append_assoc] at hzero
    exact hzero.pushes c.toRegs.pushed

/-- The words of a trap frame above the registers are read from the stack. -/
theorem CpuState.Pushed.trapFrameAt_eq (h : c.Pushed c' (ws ++ c.toRegs.pushed))
    (hlen : 8 * (ws.length + 15) ≤ 2 ^ 63) :
    trapFrameAt c'.mem c'.rsp =
      { c.toRegs with
        intNo := stackWord c'.mem (c'.rsp + 120) 0
        errCode := stackWord c'.mem (c'.rsp + 120) 1
        rip := stackWord c'.mem (c'.rsp + 120) 2
        cs := stackWord c'.mem (c'.rsp + 120) 3
        rflags := stackWord c'.mem (c'.rsp + 120) 4
        rsp := stackWord c'.mem (c'.rsp + 120) 5
        ss := stackWord c'.mem (c'.rsp + 120) 6 } := by
  have hpopped := h.registers_popped hlen (fun p _ => rfl)
  have hplace : ∀ i, stackWord c'.mem c'.rsp (15 + i) = stackWord c'.mem (c'.rsp + 120) i := by
    intro i
    unfold stackWord
    have hat : c'.rsp + BitVec.ofNat 64 (8 * (15 + i))
        = c'.rsp + 120 + BitVec.ofNat 64 (8 * i) := by
      bv_omega
    rw [hat]
  unfold trapFrameAt
  rw [hpopped, hplace 0, hplace 1, hplace 2, hplace 3, hplace 4, hplace 5, hplace 6]

/-- The word above the pushed ones is what the stack held. -/
theorem CpuState.Pushed.above (h : c.Pushed c' (ws ++ c.toRegs.pushed))
    (hlen : 8 * (ws.length + 15) ≤ 2 ^ 63) :
    stackWord c'.mem (c'.rsp + 120) ws.length = load64 c.mem (alignStack c.rsp) := by
  have hcount : (ws ++ c.toRegs.pushed).length = ws.length + 15 := List.length_append
  have hmem := h.mem
  have hrsp := h.rsp
  rw [hcount] at hrsp
  generalize alignStack c.rsp = top at hmem hrsp ⊢
  have hplace : c'.rsp + 120 + BitVec.ofNat 64 (8 * ws.length) = top := by
    rw [hrsp]
    bv_omega
  unfold stackWord
  rw [hplace, hmem]
  refine load64_eq_of_eqOn (fun p hp => pushAll_apart (by omega) (fun hc => ?_))
  rw [hcount] at hc
  unfold below Range.Has at hp hc
  dsimp only at hp hc
  bv_omega

/-- The trap frame below pushed words: they are read upwards, and behind them
    the word that the stack held. -/
theorem CpuState.Pushed.trapFrameAt_words (h : c.Pushed c' (ws ++ c.toRegs.pushed))
    (hlen : 6 ≤ ws.length ∧ ws.length ≤ 8) :
    trapFrameAt c'.mem c'.rsp =
      { c.toRegs with
        intNo := (load64 c.mem (alignStack c.rsp) :: ws).reverse.getD 0 0
        errCode := (load64 c.mem (alignStack c.rsp) :: ws).reverse.getD 1 0
        rip := (load64 c.mem (alignStack c.rsp) :: ws).reverse.getD 2 0
        cs := (load64 c.mem (alignStack c.rsp) :: ws).reverse.getD 3 0
        rflags := (load64 c.mem (alignStack c.rsp) :: ws).reverse.getD 4 0
        rsp := (load64 c.mem (alignStack c.rsp) :: ws).reverse.getD 5 0
        ss := (load64 c.mem (alignStack c.rsp) :: ws).reverse.getD 6 0 } := by
  have hbytes : 8 * (ws.length + 15) ≤ 2 ^ 63 := by omega
  have hword : ∀ i, i ≤ ws.length → stackWord c'.mem (c'.rsp + 120) i
      = (load64 c.mem (alignStack c.rsp) :: ws).reverse.getD i 0 := by
    intro i hi
    rw [List.reverse_cons, List.getD_eq_getElem?_getD]
    by_cases hlast : i = ws.length
    · rw [hlast, h.above hbytes, List.getElem?_append_right (by rw [List.length_reverse]),
        List.length_reverse, Nat.sub_self]
      rfl
    · have hin : i < ws.length := by omega
      rw [h.frame_popped hbytes (fun p _ => rfl) hin,
        List.getElem?_append_left (by rw [List.length_reverse]; exact hin),
        ← List.getD_eq_getElem?_getD]
  rw [h.trapFrameAt_eq hbytes, hword 0 (by omega), hword 1 (by omega), hword 2 (by omega),
    hword 3 (by omega), hword 4 (by omega), hword 5 (by omega), hword 6 hlen.1]

/-- The stack pointer at the call, from the number of words. -/
theorem alignStack_sub_mod (rsp : Word) (k : Nat) :
    (alignStack rsp - BitVec.ofNat 64 (8 * k)).toNat % 16 = 8 * k % 16 := by
  have haligned : (alignStack rsp).toNat % 16 = 0 := by
    have hlow : alignStack rsp &&& 15 = 0 := by
      unfold alignStack
      rw [BitVec.and_assoc, show ~~~(15 : Word) &&& 15 = 0 by decide]
      exact BitVec.and_zero
    have hmod := congrArg BitVec.toNat hlow
    rw [BitVec.toNat_and] at hmod
    exact (Nat.and_two_pow_sub_one_eq_mod _ 4).symm.trans hmod
  bv_omega

/-- The frame is a whole number of 16 bytes if the stub is right. -/
theorem frameWords_aligned (n : Nat) (err : Option Word) (c : CpuState) :
    8 * ((frameWords n err c).length + 15) % 16 = 0 ↔ err.isSome = expectsError n := by
  cases err <;> cases hexpects : expectsError n <;> simp [frameWords, hexpects]

end Exception

/-- For each exception, at any state, with or without an error code from the
    processor: the handler gets a pointer to a `reg_trap_frame` with all that
    the processor was at, the number, and the error code or zero, if the stub is
    right about the error code.  If the processor pushes one that the stub does
    not expect, each field above the number is the one below it, and if it
    pushes none and the stub expects one, the one above it.  The stack is
    aligned at the call exactly when the stub is right. -/
theorem exception_frame (c : CpuState) (g : Gate) (n : Nat) (err : Option Word) :
    (exceptionStub n (c.deliver g err)).rdi = (exceptionStub n (c.deliver g err)).rsp ∧
      ((exceptionStub n (c.deliver g err)).rsp.toNat % 16 = 0 ↔ err.isSome = expectsError n) ∧
      trapFrameAt (exceptionStub n (c.deliver g err)).mem (exceptionStub n (c.deliver g err)).rdi
        = (if err.isSome = expectsError n then c.trapFrame n (err.getD 0)
          else if err.isSome then c.trapFrameAbove n (err.getD 0)
          else c.trapFrameBelow n) := by
  have hpushed := c.pushed_exception g n err
  have hcall : (exceptionStub n (c.deliver g err)).rdi
      = (exceptionPushes n (c.deliver g err)).rsp := rfl
  have hrsp : (exceptionStub n (c.deliver g err)).rsp
      = (exceptionPushes n (c.deliver g err)).rsp := rfl
  have hmem : (exceptionStub n (c.deliver g err)).mem
      = (exceptionPushes n (c.deliver g err)).mem := rfl
  rw [hcall, hrsp, hmem]
  refine ⟨rfl, ?_, ?_⟩
  · rw [hpushed.rsp, List.length_append, alignStack_sub_mod]
    exact frameWords_aligned n err c
  -- by what the processor has pushed and what the stub expects
  cases err with
  | none =>
      cases hexpects : expectsError n with
      | false =>
          have hws : frameWords n none c
              = [c.ss, c.rsp, c.rflags, c.cs, c.rip, 0, BitVec.ofNat 64 n] := by
            simp [frameWords, hexpects]
          rw [hws] at hpushed
          rw [Option.isSome_none, if_pos rfl]
          exact hpushed.trapFrameAt_words (show 6 ≤ 7 ∧ 7 ≤ 8 by decide)
      | true =>
          have hws : frameWords n none c
              = [c.ss, c.rsp, c.rflags, c.cs, c.rip, BitVec.ofNat 64 n] := by
            simp [frameWords, hexpects]
          rw [hws] at hpushed
          rw [Option.isSome_none, if_neg (by decide), if_neg (by decide)]
          exact hpushed.trapFrameAt_words (show 6 ≤ 6 ∧ 6 ≤ 8 by decide)
  | some e =>
      cases hexpects : expectsError n with
      | false =>
          have hws : frameWords n (some e) c
              = [c.ss, c.rsp, c.rflags, c.cs, c.rip, e, 0, BitVec.ofNat 64 n] := by
            simp [frameWords, hexpects]
          rw [hws] at hpushed
          rw [Option.isSome_some, if_neg (by decide), if_pos rfl]
          exact hpushed.trapFrameAt_words (show 6 ≤ 8 ∧ 8 ≤ 8 by decide)
      | true =>
          have hws : frameWords n (some e) c
              = [c.ss, c.rsp, c.rflags, c.cs, c.rip, e, BitVec.ofNat 64 n] := by
            simp [frameWords, hexpects]
          rw [hws] at hpushed
          rw [Option.isSome_some, if_pos rfl]
          exact hpushed.trapFrameAt_words (show 6 ≤ 7 ∧ 7 ≤ 8 by decide)

end Pfi
