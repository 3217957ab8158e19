import Pfi.Interrupts

/-! # Interrupted threads

    Interrupts come between any two instructions, also between those of
    `thread_context_switch`, which is on the stack of the old thread first and
    on that of the new one behind `mov rsp, [rsi]`.

    An interrupt resumes its thread with all but some bytes below the stack
    pointer.  The switch reads nothing there: what it pushes is written behind
    the interrupt, and what it pops is above the stack pointer.  So with
    interrupts it ends in the same registers as without, and its memory is the
    same but for bytes that are dead: below the frame of the old thread, and
    below the stack pointer of the new one (`interruptedSwitch_same`).

    In the machine of the threads a switch with interrupts is therefore work of
    the old thread on its own stack, the switch, and work of the new one.  Its
    invariant carries over, and with it that each thread is resumed with what
    it is due, whatever interrupts there are (`interrupts_transparent`). -/

namespace ByteStore

section SameBut

variable {D D' : Addr → Prop} {m m' m'' : Mem} {a : Addr} {n v : Nat}

/-- All bytes but some are the same. -/
def SameBut (D : Addr → Prop) (m m' : Mem) : Prop := ∀ p, ¬ D p → m' p = m p

/-- Bytes that may differ in more places. -/
theorem SameBut.mono (h : SameBut D m m') (hsub : ∀ p, D p → D' p) : SameBut D' m m' :=
  fun p hp => h p (fun hc => hp (hsub p hc))

/-- Differences add up inside of one set. -/
theorem SameBut.trans (h : SameBut D m m') (h' : SameBut D m' m'') : SameBut D m m'' :=
  fun p hp => (h' p hp).trans (h p hp)

/-- Bytes that are stored are the same again. -/
theorem SameBut.store (h : SameBut D m m') (hsub : ∀ p, D p → D' p ∨ Range.Has ⟨a, n⟩ p) :
    SameBut D' (ByteStore.store m a n v) (ByteStore.store m' a n v) := by
  intro p hp
  by_cases hin : Range.Has ⟨a, n⟩ p
  · have hoff : (p - a).toNat < n := hin
    unfold ByteStore.store
    dsimp only
    rw [if_pos hoff, if_pos hoff]
  · rw [store_apart hin, store_apart hin]
    refine h p (fun hc => ?_)
    rcases hsub p hc with hc | hc
    · exact hp hc
    · exact hin hc

/-- A word apart from the differing bytes is read the same. -/
theorem SameBut.load64 (h : SameBut D m m') (hapart : ∀ p, Range.Has ⟨a, 8⟩ p → ¬ D p) :
    ByteStore.load64 m' a = ByteStore.load64 m a :=
  load64_eq_of_eqOn (fun p hp => h p (hapart p hp))

end SameBut

section StackWords

variable {sp p : Addr} {n k : Nat}

/-- The bytes below a pointer are those of the next word and those below it. -/
theorem below_word_cases (hn : n + 8 ≤ 2 ^ 63) (hp : (below sp (n + 8)).Has p) :
    (below (sp - 8) n).Has p ∨ Range.Has ⟨sp - 8, 8⟩ p := by
  unfold below Range.Has at *
  dsimp only at *
  bv_omega

/-- When the pointer goes up, more bytes are below it. -/
theorem below_up (hp : (below sp n).Has p) :
    (below (sp + BitVec.ofNat 64 k) (n + k)).Has p := by
  have hbase : sp + BitVec.ofNat 64 k - BitVec.ofNat 64 (n + k) = sp - BitVec.ofNat 64 n := by
    bv_omega
  unfold below Range.Has at *
  dsimp only at *
  rw [hbase]
  omega

/-- The word at the stack pointer is not below it. -/
theorem not_below_of_word (hn : n + 8 ≤ 2 ^ 63) (hp : Range.Has ⟨sp, 8⟩ p) :
    ¬ (below sp n).Has p := by
  unfold below Range.Has at *
  dsimp only at *
  bv_omega

/-- A byte above the word at the stack pointer is still above the stack
    pointer. -/
theorem has_next_word (hk : k + 8 ≤ 2 ^ 63) (hp : Range.Has ⟨sp + 8, k⟩ p) :
    Range.Has ⟨sp, k + 8⟩ p := by
  unfold Range.Has at *
  dsimp only at *
  bv_omega

/-- One word further down. -/
theorem sub_words (sp : Addr) (k : Nat) :
    sp - 8 - BitVec.ofNat 64 (8 * k) = sp - BitVec.ofNat 64 (8 * k + 8) := by
  bv_omega

/-- One word further up. -/
theorem add_words (sp : Addr) (k : Nat) :
    sp + 8 + BitVec.ofNat 64 (8 * k) = sp + BitVec.ofNat 64 (8 * k + 8) := by
  bv_omega

end StackWords

end ByteStore

namespace Pfi

open ByteStore Run

/-! ## Interrupts -/

/-- The table of `idt_exinit` and the handlers of the two interrupts.  Each
    handler returns, and a new stack has room for an interrupt below its
    frame. -/
structure Irqs where
  idt : Addr
  stubs : Stubs
  timer : CpuState → CpuState
  ipi : CpuState → CpuState
  timerRet : Word
  ipiRet : Word
  room : Nat
  timerReturns : Returns room timer
  ipiReturns : Returns room ipi
  roomLow : 8 ≤ room
  roomHigh : 56 + (175 + room) ≤ threadStackBytes

/-- The bytes below a stack pointer that an interrupt may need, with those that
    the alignment skips. -/
def Irqs.reach (I : Irqs) : Nat := 175 + I.room

/-- The bytes of the table of gates. -/
def Irqs.table (I : Irqs) : Range := ⟨I.idt, sizeofIdtEntry * idtEntries⟩

/-- The gates are those that `idt_exinit` sets. -/
def Irqs.Gates (I : Irqs) (m : Mem) : Prop :=
  ∀ v w, I.stubs.stubOf v = some w → readGate m I.idt v = ⟨w, 0x08, 0, 0x8E⟩

/-- The processor goes to the offset of the gate, where one of the stubs is. -/
def Irqs.serve (I : Irqs) (c : CpuState) (v : Nat) : CpuState :=
  let c := c.deliver (readGate c.mem I.idt v) none
  if c.rip = I.stubs.timer then interruptStub I.timer I.timerRet c
  else if c.rip = I.stubs.ipi then interruptStub I.ipi I.ipiRet c
  else c

/-- The vectors that the local APIC is set up with. -/
def IsIrq (v : Nat) : Prop := v = 0x30 ∨ v = 0x40

/-- Interrupts that come one after the other. -/
def Irqs.serveAll (I : Irqs) (c : CpuState) (vs : List Nat) : CpuState := vs.foldl I.serve c

section Serve

variable {I : Irqs} {c : CpuState} {m m' : Mem} {v : Nat}

/-- The gates stand while the table's bytes stay. -/
theorem Irqs.Gates.kept (h : I.Gates m) (hsame : ∀ p, I.table.Has p → m' p = m p) : I.Gates m' := by
  intro v w hv
  have hlow := Stubs.entries_lt (v, w) (Stubs.stubOf_eq_some.mp hv)
  rw [← h v w hv]
  refine readGate_congr (fun p hp => hsame p ?_)
  unfold table
  unfold gateAddr Range.Has at *
  dsimp only [sizeofIdtEntry, idtEntries] at *
  bv_omega

/-- An interrupt goes through its gate to its stub, and resumes. -/
theorem Irqs.serve_resumes (hgates : I.Gates c.mem) (hv : IsIrq v) :
    ∃ m, I.serve c v = { c with mem := m } ∧
      ∀ p, ¬ (below (alignStack c.rsp - 160) I.room).Has p →
        m p = pushAll c.mem (alignStack c.rsp) c.interruptWords p := by
  have hlow := I.roomLow
  have hhigh := I.roomHigh
  have hroom : 8 ≤ I.room ∧ 160 + I.room ≤ 2 ^ 63 := by
    dsimp only [threadStackBytes] at hhigh
    omega
  have htimer := interruptStub_resumes I.timerReturns hroom I.timerRet c (readGate c.mem I.idt v)
  have hipi := interruptStub_resumes I.ipiReturns hroom I.ipiRet c (readGate c.mem I.idt v)
  have hrip : (c.deliver (readGate c.mem I.idt v) none).rip = I.stubs.timer ∨
      (c.deliver (readGate c.mem I.idt v) none).rip = I.stubs.ipi := by
    rcases hv with rfl | rfl
    · exact Or.inl (congrArg Gate.offset (hgates 0x30 _ rfl))
    · exact Or.inr (congrArg Gate.offset (hgates 0x40 _ rfl))
  unfold serve
  dsimp only
  by_cases hfirst : (c.deliver (readGate c.mem I.idt v) none).rip = I.stubs.timer
  · rw [if_pos hfirst]
    exact htimer
  · rw [if_neg hfirst, if_pos (hrip.resolve_left hfirst)]
    exact hipi

/-- What an interrupt writes, with the stack aligned first, lies below the stack
    pointer. -/
theorem alignStack_range {rsp : Word} {room : Nat} :
    (interruptRange rsp room).Sub (below rsp (175 + room)) := by
  have hsum : alignStack rsp + (rsp &&& 15) = rsp := by
    unfold alignStack
    rw [BitVec.add_eq_or_of_and_eq_zero, ← BitVec.and_or_distrib_left]
    · rw [show ~~~(15 : Word) ||| 15 = BitVec.allOnes 64 by decide, BitVec.and_allOnes]
    · rw [BitVec.and_assoc, BitVec.and_comm rsp 15, ← BitVec.and_assoc (~~~15),
        show ~~~(15 : Word) &&& 15 = 0 by decide]
      simp
  have hlow : (rsp &&& 15).toNat ≤ 15 := Nat.and_le_right
  intro p hp
  unfold interruptRange at hp
  generalize alignStack rsp = top at hsum hp
  generalize rsp &&& 15 = low at hsum hlow
  subst hsum
  unfold below Range.Has at *
  dsimp only at *
  bv_omega

/-- All but some bytes below the stack pointer stay. -/
theorem Irqs.serve_same (hgates : I.Gates c.mem) (hv : IsIrq v) :
    ∃ m, I.serve c v = { c with mem := m } ∧ SameBut (below c.rsp I.reach).Has c.mem m := by
  obtain ⟨m, hc, hm⟩ := serve_resumes hgates hv
  refine ⟨m, hc, fun p hp => ?_⟩
  have hout : ¬ (interruptRange c.rsp I.room).Has p := fun hin => hp (alignStack_range p hin)
  have hframe : ¬ (below (alignStack c.rsp - 160) I.room).Has p :=
    fun hin => hout (@below_below _ 160 _ p hin)
  rw [hm p hframe, interruptWords_apart hout]

/-- Interrupts one after the other. -/
theorem Irqs.serveAll_same {vs : List Nat} (hgates : I.Gates c.mem) (hvs : ∀ v ∈ vs, IsIrq v)
    (htable : I.table.Apart (below c.rsp I.reach)) :
    ∃ m, I.serveAll c vs = { c with mem := m } ∧ SameBut (below c.rsp I.reach).Has c.mem m := by
  induction vs generalizing c with
  | nil => exact ⟨c.mem, rfl, fun _ _ => rfl⟩
  | cons v vs ih =>
      obtain ⟨m, hc, hm⟩ := serve_same hgates (hvs v List.mem_cons_self)
      have hgates' : I.Gates m := hgates.kept (fun p hp => hm p (htable p hp))
      obtain ⟨m', hc', hm'⟩ := @ih { c with mem := m } hgates'
        (fun v hv => hvs v (List.mem_cons_of_mem _ hv)) htable
      refine ⟨m', ?_, hm.trans hm'⟩
      show I.serveAll (I.serve c v) vs = _
      rw [hc, hc']

end Serve

/-! ## The switch with interrupts -/

/-- `push` of a register. -/
def push (get : Regs → Word) (c : CpuState) : CpuState := c.pushes [get c.toRegs]

/-- What a `pop` or a `ret` does with the word. -/
structure Setter where
  set : CpuState → Word → CpuState
  withMem : ∀ c m w, set { c with mem := m } w = { set c w with mem := m }
  rsp : ∀ c w, (set c w).rsp = c.rsp
  mem : ∀ c w, (set c w).mem = c.mem

/-- `pop` into a register, and `ret` with the instruction pointer. -/
def pop (f : Setter) (c : CpuState) : CpuState :=
  { f.set c (load64 c.mem c.rsp) with rsp := c.rsp + 8 }

/-- `rbp` is popped. -/
def setRbp : Setter :=
  ⟨fun c w => { c with rbp := w }, fun _ _ _ => rfl, fun _ _ => rfl, fun _ _ => rfl⟩
/-- `rbx` is popped. -/
def setRbx : Setter :=
  ⟨fun c w => { c with rbx := w }, fun _ _ _ => rfl, fun _ _ => rfl, fun _ _ => rfl⟩
/-- `r12` is popped. -/
def setR12 : Setter :=
  ⟨fun c w => { c with r12 := w }, fun _ _ _ => rfl, fun _ _ => rfl, fun _ _ => rfl⟩
/-- `r13` is popped. -/
def setR13 : Setter :=
  ⟨fun c w => { c with r13 := w }, fun _ _ _ => rfl, fun _ _ => rfl, fun _ _ => rfl⟩
/-- `r14` is popped. -/
def setR14 : Setter :=
  ⟨fun c w => { c with r14 := w }, fun _ _ _ => rfl, fun _ _ => rfl, fun _ _ => rfl⟩
/-- `r15` is popped. -/
def setR15 : Setter :=
  ⟨fun c w => { c with r15 := w }, fun _ _ _ => rfl, fun _ _ => rfl, fun _ _ => rfl⟩
/-- `ret` pops the address to return to. -/
def setRip : Setter :=
  ⟨fun c w => { c with rip := w }, fun _ _ _ => rfl, fun _ _ => rfl, fun _ _ => rfl⟩

/-- A push moves the stack pointer down by a word. -/
@[simp] theorem push_rsp (get : Regs → Word) (c : CpuState) : (push get c).rsp = c.rsp - 8 := rfl

/-- A pop moves it up. -/
@[simp] theorem pop_rsp (f : Setter) (c : CpuState) : (pop f c).rsp = c.rsp + 8 := rfl

/-- `mov [rdi], rsp` -/
def saveRsp (c : CpuState) : CpuState := { c with mem := store64 c.mem c.rdi c.rsp }

/-- `mov rsp, [rsi]` -/
def loadRsp (c : CpuState) : CpuState := { c with rsp := load64 c.mem c.rsi }

/-- What is pushed, in order. -/
def pushedRegisters : List (Regs → Word) :=
  [Regs.rbp, Regs.rbx, Regs.r12, Regs.r13, Regs.r14, Regs.r15]

/-- What is popped, in order, the return address last. -/
def poppedRegisters : List Setter := [setR15, setR14, setR13, setR12, setRbx, setRbp, setRip]

/-- The instructions of `thread_context_switch`. -/
def switchCode : List (CpuState → CpuState) :=
  pushedRegisters.map push ++ ([saveRsp] ++ ([loadRsp] ++ poppedRegisters.map pop))

/-- The instructions, one after the other, with no interrupts. -/
def execute (c : CpuState) (code : List (CpuState → CpuState)) : CpuState :=
  code.foldl (fun c i => i c) c

/-- Code with interrupts in front of each instruction. -/
def Irqs.interleave (I : Irqs) : CpuState → List (CpuState → CpuState) → List (List Nat) → CpuState
  | c, [], _ => c
  | c, i :: code, irqs => I.interleave (i (I.serveAll c (irqs.headD []))) code irqs.tail

/-- What the switch of the threads sees of a processor. -/
def CpuState.processor (c : CpuState) : Processor :=
  { rbp := c.rbp, rbx := c.rbx, r12 := c.r12, r13 := c.r13, r14 := c.r14, r15 := c.r15
    rsp := c.rsp, rip := c.rip, mem := c.mem }

@[simp] theorem CpuState.processor_rsp (c : CpuState) : c.processor.rsp = c.rsp := rfl

@[simp] theorem CpuState.processor_mem (c : CpuState) : c.processor.mem = c.mem := rfl

/-- Without interrupts the code is `thread_context_switch`. -/
theorem execute_switchCode (c : CpuState) :
    (execute c switchCode).processor = threadContextSwitch c.processor c.rdi c.rsi := rfl

/-- The same processor but for some bytes of the memory. -/
structure Irqs.Same (I : Irqs) (D : Addr → Prop) (c c' : CpuState) : Prop where
  cpu : c' = { c with mem := c'.mem }
  mem : SameBut D c.mem c'.mem
  gates : I.Gates c'.mem

/-- Interrupts of the two vectors in front of each instruction. -/
def AreIrqs (irqs : List (List Nat)) : Prop := ∀ vs ∈ irqs, ∀ v ∈ vs, IsIrq v

section Same

variable {I : Irqs} {D D' : Addr → Prop} {c c' : CpuState} {irqs : List (List Nat)}

/-- The interrupts in front of the next instruction are the firmware's. -/
theorem AreIrqs.head (h : AreIrqs irqs) : ∀ v ∈ irqs.headD [], IsIrq v := by
  cases irqs with
  | nil => exact fun v hv => absurd hv List.not_mem_nil
  | cons vs irqs => exact h vs List.mem_cons_self

/-- So are those in front of the later ones. -/
theorem AreIrqs.drop (h : AreIrqs irqs) (k : Nat) : AreIrqs (irqs.drop k) :=
  fun vs hvs => h vs (List.mem_of_mem_drop hvs)

/-- So are those after it. -/
theorem AreIrqs.tail (h : AreIrqs irqs) : AreIrqs irqs.tail :=
  fun vs hvs => h vs (List.mem_of_mem_tail hvs)

/-- Code that follows other code, with the interrupts in front of each. -/
theorem Irqs.interleave_append (I : Irqs) (c : CpuState) (code code' : List (CpuState → CpuState))
    (irqs : List (List Nat)) :
    I.interleave c (code ++ code') irqs
      = I.interleave (I.interleave c code irqs) code' (irqs.drop code.length) := by
  induction code generalizing c irqs with
  | nil => rfl
  | cons i code ih =>
      have hdrop : irqs.tail.drop code.length = irqs.drop (code.length + 1) := by
        rw [List.drop_tail]
      show I.interleave (i (I.serveAll c (irqs.headD []))) (code ++ code') irqs.tail = _
      rw [ih, hdrop]
      rfl

/-- Processors that may differ in more bytes. -/
theorem Irqs.Same.mono (h : I.Same D c c') (hsub : ∀ p, D p → D' p) : I.Same D' c c' :=
  ⟨h.cpu, h.mem.mono hsub, h.gates⟩

/-- Interrupts write where the memories differ anyway. -/
theorem Irqs.Same.serveAll {vs : List Nat} (h : I.Same D c c') (hvs : ∀ v ∈ vs, IsIrq v)
    (htable : I.table.Apart (below c.rsp I.reach)) (hsub : ∀ p, (below c.rsp I.reach).Has p → D p) :
    I.Same D c (I.serveAll c' vs) := by
  obtain ⟨hc, hmem, hgates⟩ := h
  generalize c'.mem = m at hc hmem hgates
  subst hc
  obtain ⟨m', hc', hm'⟩ := @serveAll_same I { c with mem := m } vs hgates hvs htable
  rw [hc']
  exact ⟨rfl, hmem.trans (hm'.mono hsub), hgates.kept (fun p hp => hm' p (htable p hp))⟩

/-- A word that is pushed is the same again. -/
theorem Irqs.Same.pushed (h : I.Same D c c') (get : Regs → Word)
    (hsub : ∀ p, D p → D' p ∨ Range.Has ⟨c.rsp - 8, 8⟩ p)
    (htable : I.table.Apart ⟨c.rsp - 8, 8⟩) : I.Same D' (push get c) (push get c') := by
  obtain ⟨hc, hmem, hgates⟩ := h
  generalize c'.mem = m at hc hmem hgates
  subst hc
  exact ⟨rfl, hmem.store hsub, hgates.kept (fun p hp => store_apart (htable p hp))⟩

/-- Storing the stack pointer on both sides. -/
theorem Irqs.Same.saved (h : I.Same D c c') (htable : I.table.Apart ⟨c.rdi, 8⟩) :
    I.Same D (saveRsp c) (saveRsp c') := by
  obtain ⟨hc, hmem, hgates⟩ := h
  generalize c'.mem = m at hc hmem hgates
  subst hc
  exact ⟨rfl, hmem.store (fun p hp => Or.inl hp),
    hgates.kept (fun p hp => store_apart (htable p hp))⟩

/-- Loading the stack pointer on both sides, from a word that is the same. -/
theorem Irqs.Same.loaded (h : I.Same D c c') (hword : ∀ p, Range.Has ⟨c.rsi, 8⟩ p → ¬ D p) :
    I.Same D (loadRsp c) (loadRsp c') := by
  obtain ⟨hc, hmem, hgates⟩ := h
  generalize c'.mem = m at hc hmem hgates
  subst hc
  have hload : loadRsp { c with mem := m } = { loadRsp c with mem := m } := by
    unfold loadRsp
    dsimp only
    rw [hmem.load64 hword]
  have hmem' : (loadRsp c).mem = c.mem := by
    unfold loadRsp
    dsimp only
  rw [hload]
  generalize loadRsp c = c₁ at hmem'
  rw [← hmem'] at hmem
  exact ⟨rfl, hmem, hgates⟩

/-- A word that is popped is not one of the bytes that differ. -/
theorem Irqs.Same.popped (h : I.Same D c c') (f : Setter)
    (hword : ∀ p, Range.Has ⟨c.rsp, 8⟩ p → ¬ D p) : I.Same D (pop f c) (pop f c') := by
  obtain ⟨hc, hmem, hgates⟩ := h
  generalize c'.mem = m at hc hmem hgates
  subst hc
  have hpop : pop f { c with mem := m } = { pop f c with mem := m } := by
    unfold pop
    dsimp only
    rw [hmem.load64 hword, f.withMem]
  rw [hpop]
  refine ⟨rfl, ?_, hgates⟩
  show SameBut D (f.set c _).mem m
  rw [f.mem]
  exact hmem

/-- Pushes, each of them behind interrupts. -/
theorem Irqs.Same.pushes {n : Nat} (hn : I.reach ≤ n) (gets : List (Regs → Word))
    (hlen : n + 8 * gets.length ≤ 2 ^ 63) (hirqs : AreIrqs irqs)
    (htable : I.table.Apart (below c.rsp (n + 8 * gets.length)))
    (h : I.Same (below c.rsp (n + 8 * gets.length)).Has c c') :
    I.Same (below (c.rsp - BitVec.ofNat 64 (8 * gets.length)) n).Has (execute c (gets.map push))
      (I.interleave c' (gets.map push) irqs) := by
  induction gets generalizing c c' irqs with
  | nil =>
      refine h.mono (fun p hp => ?_)
      simpa using hp
  | cons get gets ih =>
      have hcount : n + 8 * (get :: gets).length = n + 8 * gets.length + 8 := by
        rw [List.length_cons]
        omega
      rw [hcount] at hlen htable h
      have hword : Range.Sub ⟨c.rsp - 8, 8⟩ (below c.rsp (n + 8 * gets.length + 8)) :=
        @below_mono c.rsp 8 _ (Nat.le_add_left 8 _)
      have hrest : (below (c.rsp - 8) (n + 8 * gets.length)).Sub
          (below c.rsp (n + 8 * gets.length + 8)) := by
        rw [Nat.add_comm (n + 8 * gets.length) 8]
        exact @below_below c.rsp 8 _
      have hreach := @below_mono c.rsp I.reach (n + 8 * gets.length + 8) (by omega)
      have hserved := h.serveAll hirqs.head (fun p hp hc => htable p hp (hreach p hc)) hreach
      have hpushed : I.Same (below (c.rsp - 8) (n + 8 * gets.length)).Has (push get c)
          (push get (I.serveAll c' (irqs.headD []))) :=
        hserved.pushed get (fun p hp => below_word_cases hlen hp)
          (fun p hp hc => htable p hp (hword p hc))
      have htable' : I.table.Apart (below (c.rsp - 8) (n + 8 * gets.length)) :=
        fun p hp hc => htable p hp (hrest p hc)
      have hdone := @ih (push get c) _ irqs.tail (by omega) hirqs.tail
        (by rw [push_rsp]; exact htable') (by rw [push_rsp]; exact hpushed)
      rw [push_rsp, sub_words] at hdone
      exact hdone

/-- Pops, each of them behind interrupts, which may overwrite the words that
    have been popped. -/
theorem Irqs.Same.pops {n : Nat} (hn : I.reach ≤ n) (fs : List Setter)
    (hlen : n + 8 * fs.length ≤ 2 ^ 63) (hirqs : AreIrqs irqs)
    (hwords : ∀ p, Range.Has ⟨c.rsp, 8 * fs.length⟩ p → ¬ D p)
    (htable : I.table.Apart (below (c.rsp + BitVec.ofNat 64 (8 * fs.length)) (n + 8 * fs.length)))
    (h : I.Same (fun p => D p ∨ (below c.rsp n).Has p) c c') :
    I.Same (fun p => D p ∨
        (below (c.rsp + BitVec.ofNat 64 (8 * fs.length)) (n + 8 * fs.length)).Has p)
      (execute c (fs.map pop)) (I.interleave c' (fs.map pop) irqs) := by
  induction fs generalizing c c' irqs n with
  | nil => exact h.mono (fun p hp => hp.imp_right below_up)
  | cons f fs ih =>
      have hlen' : n + 8 * (fs.length + 1) ≤ 2 ^ 63 := hlen
      have hreach := @below_mono c.rsp I.reach n hn
      have hserved := h.serveAll hirqs.head
        (fun p hp hc => htable p hp (below_up (hreach p hc))) (fun p hp => Or.inr (hreach p hp))
      have hpopped := hserved.popped f (fun p hp hc => by
        rcases hc with hc | hc
        · exact hwords p (Nat.lt_of_lt_of_le hp (show 8 ≤ 8 * (fs.length + 1) by omega)) hc
        · exact not_below_of_word (by omega) hp hc)
      -- the word that is popped is below the stack pointer now
      have hnext : I.Same (fun p => D p ∨ (below (c.rsp + 8) (n + 8)).Has p) (pop f c)
          (pop f (I.serveAll c' (irqs.headD []))) :=
        hpopped.mono (fun p hp => hp.imp_right (@below_up _ _ _ 8))
      have hcount : n + 8 + 8 * fs.length = n + 8 * (f :: fs).length := by
        rw [List.length_cons]
        omega
      have hplace : c.rsp + 8 + BitVec.ofNat 64 (8 * fs.length)
          = c.rsp + BitVec.ofNat 64 (8 * (f :: fs).length) := add_words c.rsp fs.length
      have hdone := @ih (pop f c) _ irqs.tail (n + 8) (by omega) (by omega) hirqs.tail
        (fun p hp => hwords p (by
          rw [pop_rsp] at hp
          exact @has_next_word _ _ (8 * fs.length) (by omega) hp))
        (by rw [pop_rsp, hplace, hcount]; exact htable) (by rw [pop_rsp]; exact hnext)
      rw [pop_rsp, hplace, hcount] at hdone
      exact hdone

/-- Code that follows other code. -/
theorem execute_append (c : CpuState) (code code' : List (CpuState → CpuState)) :
    execute c (code ++ code') = execute (execute c code) code' := List.foldl_append

/-- Six words are pushed, and the arguments of the switch stay. -/
theorem execute_pushes (c : CpuState) :
    (execute c (pushedRegisters.map push)).rsp = c.rsp - 48 ∧
      (execute c (pushedRegisters.map push)).rdi = c.rdi ∧
      (execute c (pushedRegisters.map push)).rsi = c.rsi := by
  refine ⟨?_, rfl, rfl⟩
  show c.rsp - 8 - 8 - 8 - 8 - 8 - 8 = c.rsp - 48
  bv_omega

/-- Six words and the return address are popped. -/
theorem execute_pops_rsp (c : CpuState) :
    (execute c (poppedRegisters.map pop)).rsp = c.rsp + 56 := by
  show c.rsp + 8 + 8 + 8 + 8 + 8 + 8 + 8 = c.rsp + 56
  bv_omega

/-- The switch ends in the same registers, whatever interrupts there are in
    between, and in the same memory but for bytes below the frame of the old
    thread and bytes below the stack pointer of the new one. -/
theorem Irqs.interruptedSwitch_same (hgates : I.Gates c.mem) (hirqs : AreIrqs irqs) {top : Addr}
    (htop : (execute c switchCode).rsp = top)
    (hold : I.table.Apart (below c.rsp (I.reach + 48))) (hsave : I.table.Apart ⟨c.rdi, 8⟩)
    (htable : I.table.Apart (below top (I.reach + 56)))
    (hnew : ∀ p, Range.Has ⟨c.rsi, 8⟩ p → ¬ (below (c.rsp - 48) I.reach).Has p)
    (hframe : ∀ p, (below top 56).Has p → ¬ (below (c.rsp - 48) I.reach).Has p) :
    I.Same (fun p => (below (c.rsp - 48) I.reach).Has p ∨ (below top (I.reach + 56)).Has p)
      (execute c switchCode) (I.interleave c switchCode irqs) := by
  have hreach : I.reach + 56 ≤ 2 ^ 63 := by
    have hhigh := I.roomHigh
    unfold reach
    dsimp only [threadStackBytes] at hhigh
    omega
  have hpushed : I.Same (below (c.rsp - 48) I.reach).Has (execute c (pushedRegisters.map push))
      (I.interleave c (pushedRegisters.map push) irqs) :=
    Irqs.Same.pushes (Nat.le_refl I.reach) pushedRegisters
      (show I.reach + 8 * 6 ≤ 2 ^ 63 by omega) hirqs hold ⟨rfl, fun p _ => rfl, hgates⟩
  obtain ⟨hrsp, hrdi, hrsi⟩ := execute_pushes c
  have hdead : I.table.Apart (below (c.rsp - 48) I.reach) := fun p hp hc =>
    hold p hp (by rw [Nat.add_comm]; exact @below_below c.rsp 48 I.reach p hc)
  unfold switchCode at htop ⊢
  rw [interleave_append, interleave_append, interleave_append, execute_append, execute_append,
    execute_append]
  rw [execute_append, execute_append, execute_append, execute_pops_rsp] at htop
  generalize execute c (pushedRegisters.map push) = c₁ at *
  generalize I.interleave c (pushedRegisters.map push) irqs = c₁' at *
  -- on the stack of the old thread, with nothing below it in use
  have hsaved : I.Same (below (c.rsp - 48) I.reach).Has (execute c₁ [saveRsp])
      (I.interleave c₁' [saveRsp] (irqs.drop 6)) := by
    have hserved := hpushed.serveAll (hirqs.drop 6).head (by rw [hrsp]; exact hdead)
      (by rw [hrsp]; exact fun p hp => hp)
    exact hserved.saved (by rw [hrdi]; exact hsave)
  have hrsp₂ : (execute c₁ [saveRsp]).rsp = c.rsp - 48 := hrsp
  have hrsi₂ : (execute c₁ [saveRsp]).rsi = c.rsi := hrsi
  generalize execute c₁ [saveRsp] = c₂ at *
  have hloaded : I.Same (below (c.rsp - 48) I.reach).Has (execute c₂ [loadRsp])
      (I.interleave (I.interleave c₁' [saveRsp] (irqs.drop 6)) [loadRsp]
        ((irqs.drop 6).drop 1)) := by
    have hserved := hsaved.serveAll ((hirqs.drop 6).drop 1).head (by rw [hrsp₂]; exact hdead)
      (by rw [hrsp₂]; exact fun p hp => hp)
    exact hserved.loaded (by rw [hrsi₂]; exact hnew)
  generalize execute c₂ [loadRsp] = c₃ at *
  -- and on that of the new one, from its frame upwards
  have hwords : ∀ p, Range.Has ⟨c₃.rsp, 8 * 7⟩ p → ¬ (below (c.rsp - 48) I.reach).Has p := by
    intro p hp
    refine hframe p ?_
    have hbase : top - 56 = c₃.rsp := by
      rw [← htop]
      bv_omega
    show Range.Has ⟨top - 56, 56⟩ p
    rw [hbase]
    exact hp
  have hpopped := Irqs.Same.pops (Nat.le_refl I.reach) poppedRegisters
    (show I.reach + 8 * 7 ≤ 2 ^ 63 by omega) (((hirqs.drop 6).drop 1).drop 1) hwords
    (by show I.table.Apart (below (c₃.rsp + 56) (I.reach + 56)); rw [htop]; exact htable)
    (hloaded.mono (fun p hp => Or.inl hp))
  rw [← htop]
  exact hpopped

end Same

/-! ## Threads with interrupts -/

/-- The whole processor, with what `Threads` has besides. -/
structure CoreThreads where
  cpu : CpuState
  current : Addr
  live : List Addr
  due : Addr → Context

/-- The switched threads, as the model without interrupts has them. -/
def CoreThreads.threads (s : CoreThreads) : Threads :=
  { cpu := s.cpu.processor, current := s.current, live := s.live, due := s.due }

/-- The actions of the threads, with interrupts in each switch, and an
    interrupt of the running thread. -/
inductive InterruptedAct where
  | work (cpu : CpuState)
  | create (thread stackRaw : Addr) (entry tid : Word)
  | switchTo (new : Addr) (irqs : List (List Nat))
  | interrupt (v : Nat)

/-- What each act does to the processor and to the saved stacks. -/
def CoreThreads.step (I : Irqs) (s : CoreThreads) : InterruptedAct → CoreThreads
  | .work cpu => { s with cpu := cpu }
  | .create thread stackRaw entry tid =>
      { s with
        cpu := { s.cpu with mem := createThreadFrame s.cpu.mem thread stackRaw entry tid }
        live := thread :: s.live
        due := Function.update s.due thread (initialContext stackRaw entry) }
  | .switchTo new irqs =>
      { s with
        cpu := I.interleave s.cpu switchCode irqs
        current := new
        due := Function.update s.due s.current s.cpu.processor.afterReturn }
  | .interrupt v => { s with cpu := I.serve s.cpu v }

/-- As for `Threads`; no thread writes to the table, the switch has its
    arguments in `rdi` and `rsi`, and an interrupt finds room on the stack. -/
def CoreThreads.Allowed (L : Layout) (I : Irqs) (s : CoreThreads) : InterruptedAct → Prop
  | .work cpu =>
      s.threads.Allowed L (.work cpu.processor) ∧ ∀ p, I.table.Has p → cpu.mem p = s.cpu.mem p
  | .create thread stackRaw entry tid => s.threads.Allowed L (.create thread stackRaw entry tid)
  | .switchTo new irqs =>
      new ∈ s.live ∧ new ≠ s.current ∧ s.cpu.rdi = s.current ∧ s.cpu.rsi = new ∧ AreIrqs irqs ∧
        (below (s.cpu.rsp + 8) (56 + I.reach)).Sub (L.stack s.current)
  | .interrupt v => IsIrq v ∧ (below s.cpu.rsp I.reach).Sub (L.stack s.current)

/-- A thread that is switched to has what it is due, and one that is interrupted
    all that it had, with twenty words below its stack pointer. -/
def CoreThreads.Resumes (I : Irqs) (s : CoreThreads) : InterruptedAct → Prop
  | .switchTo new irqs => (I.interleave s.cpu switchCode irqs).processor.toContext = s.due new
  | .interrupt v =>
      ∃ m, I.serve s.cpu v = { s.cpu with mem := m } ∧
        ∀ p, ¬ (below (alignStack s.cpu.rsp - 160) I.room).Has p →
          m p = pushAll s.cpu.mem (alignStack s.cpu.rsp) s.cpu.interruptWords p
  | _ => True

/-- The table is apart from the threads and their stacks. -/
structure TableApart (L : Layout) (I : Irqs) : Prop where
  state : ∀ t, L.thread t → I.table.Apart ⟨t, threadStateBytes⟩
  stack : ∀ t, L.thread t → I.table.Apart (L.stack t)

/-- The parked threads have room for interrupts below their frames. -/
structure CoreOk (L : Layout) (I : Irqs) (s : CoreThreads) : Prop where
  threads : ThreadsOk L s.threads
  gates : I.Gates s.cpu.mem
  room : ∀ t ∈ s.live, t ≠ s.current → (below (s.due t).rsp (56 + I.reach)).Sub (L.stack t)

section Core

variable {L : Layout} {I : Irqs} {s : CoreThreads}

/-- A parked thread depends on its frame and its `rsp`. -/
theorem Parked.kept_frame {m m' : Mem} {t : Addr} {c : Context} (h : Parked L m t c)
    (hframe : ∀ p, (below c.rsp 56).Has p → m' p = m p)
    (hrsp : ∀ p, Range.Has ⟨t, 8⟩ p → m' p = m p) : Parked L m' t c := by
  refine ⟨?_, h.inside, ?_⟩
  · rw [load64_eq_of_eqOn hrsp]
    exact h.rsp
  · rw [frameAt_congr hframe]
    exact h.frame

/-- A running thread keeps the invariant, as its own bytes are all it writes. -/
theorem CoreOk.work (h : CoreOk L I s) {cpu : CpuState}
    (hok : s.Allowed L I (.work cpu)) : CoreOk L I (s.step I (.work cpu)) :=
  ⟨h.threads.work hok.1, h.gates.kept hok.2, h.room⟩

/-- A new thread's frame is laid on its own stack. -/
theorem CoreOk.create (hapart : TableApart L I) (h : CoreOk L I s) {t stackRaw : Addr}
    {entry tid : Word} (hok : s.Allowed L I (.create t stackRaw entry tid)) :
    CoreOk L I (s.step I (.create t stackRaw entry tid)) := by
  have hthreads := @ThreadsOk.create L t s.threads h.threads stackRaw entry tid hok
  obtain ⟨hthread, hnew, hstack⟩ := hok
  refine ⟨hthreads, ?_, ?_⟩
  · refine h.gates.kept (fun p hp => createThreadFrame_apart (hapart.state t hthread p hp) ?_)
    rw [← hstack]
    exact hapart.stack t hthread p hp
  · intro u hu hne
    show (below (Function.update s.due t (initialContext stackRaw entry) u).rsp _).Sub _
    rcases List.mem_cons.mp hu with rfl | hlive
    · -- a new stack is larger than what is needed
      have hroom : 56 + I.reach ≤ threadStackBytes := I.roomHigh
      rw [Function.update_self, hstack]
      show (below (stackRaw + BitVec.ofNat 64 threadStackBytes) (56 + I.reach)).Sub _
      intro p hp
      have hmore := @below_mono (stackRaw + BitVec.ofNat 64 threadStackBytes) _ _ hroom p hp
      have hbase : stackRaw + BitVec.ofNat 64 threadStackBytes - BitVec.ofNat 64 threadStackBytes
          = stackRaw := by
        bv_omega
      unfold below at hmore
      rw [hbase] at hmore
      exact hmore
    · have hut : u ≠ t := by
        rintro rfl
        exact hnew hlive
      rw [Function.update_of_ne hut]
      exact h.room u hlive hne

/-- An interrupt is work of the running thread. -/
theorem CoreOk.interrupt (hapart : TableApart L I) (h : CoreOk L I s) {v : Nat}
    (hok : s.Allowed L I (.interrupt v)) : CoreOk L I (s.step I (.interrupt v)) := by
  obtain ⟨hv, hroom⟩ := hok
  have hcurrent := h.threads.threads s.current h.threads.current
  obtain ⟨m, hc, hm⟩ := Irqs.serve_same h.gates hv
  have hwork : s.Allowed L I (.work { s.cpu with mem := m }) := by
    refine ⟨fun t ht hne p hp => hm p (fun hin => ?_),
      fun p hp => hm p (fun hin => hapart.stack s.current hcurrent p hp (hroom p hin))⟩
    rcases hp with hp | hp
    · exact L.stacksApart t s.current (h.threads.threads t ht) hcurrent hne p hp (hroom p hin)
    · exact L.stateStackApart t s.current (h.threads.threads t ht) hcurrent p (rsp_sub t p hp)
        (hroom p hin)
  have hstep : s.step I (.interrupt v) = s.step I (.work { s.cpu with mem := m }) := by
    show ({ s with cpu := I.serve s.cpu v } : CoreThreads) = _
    rw [hc]
    rfl
  rw [hstep]
  exact h.work hwork

/-- What the switch of a running thread does, with interrupts. -/
theorem CoreOk.switched (hapart : TableApart L I) (h : CoreOk L I s) {new : Addr}
    {irqs : List (List Nat)} (hok : s.Allowed L I (.switchTo new irqs)) :
    I.Same (fun p => (below (s.cpu.rsp - 48) I.reach).Has p ∨
        (below (s.due new).rsp (56 + I.reach)).Has p)
      (execute s.cpu switchCode) (I.interleave s.cpu switchCode irqs) ∧
      (execute s.cpu switchCode).processor = threadContextSwitch s.cpu.processor s.current new ∧
      (execute s.cpu switchCode).processor.toContext = s.due new := by
  obtain ⟨hlive, hne, hrdi, hrsi, hirqs, hroom⟩ := hok
  have hcurrent := h.threads.threads s.current h.threads.current
  have hthread := h.threads.threads new hlive
  have hnewRoom := h.room new hlive hne
  have hcode : (execute s.cpu switchCode).processor
      = threadContextSwitch s.cpu.processor s.current new := by
    rw [execute_switchCode, hrdi, hrsi]
  have hframe : (below (s.cpu.rsp + 8) 56).Sub (L.stack s.current) :=
    fun p hp => hroom p (below_mono (Nat.le_add_right 56 I.reach) p hp)
  have hdue : (execute s.cpu switchCode).processor.toContext = s.due new := by
    rw [hcode]
    exact h.threads.restores (a := .switchTo new) ⟨hlive, hne, hframe⟩
  have htop : (execute s.cpu switchCode).rsp = (s.due new).rsp := by
    rw [← hdue, CpuState.processor_rsp]
  have hold : (below s.cpu.rsp (I.reach + 48)).Sub (L.stack s.current) := by
    intro p hp
    have hup := @below_up s.cpu.rsp p (I.reach + 48) 8 hp
    exact hroom p (by rw [show 56 + I.reach = I.reach + 48 + 8 by omega]; exact hup)
  have hdead : (below (s.cpu.rsp - 48) I.reach).Sub (L.stack s.current) := fun p hp =>
    hold p (by rw [Nat.add_comm]; exact @below_below s.cpu.rsp 48 I.reach p hp)
  refine ⟨?_, hcode, hdue⟩
  rw [Nat.add_comm 56 I.reach]
  refine Irqs.interruptedSwitch_same h.gates hirqs htop
    (fun p hp hc => hapart.stack s.current hcurrent p hp (hold p hc)) ?_ ?_ ?_ ?_
  · rw [hrdi]
    exact fun p hp hc => hapart.state s.current hcurrent p hp (rsp_sub s.current p hc)
  · rw [Nat.add_comm I.reach 56]
    exact fun p hp hc => hapart.stack new hthread p hp (hnewRoom p hc)
  · rw [hrsi]
    exact fun p hp hc => L.stateStackApart new s.current hthread hcurrent p (rsp_sub new p hp)
      (hdead p hc)
  · exact fun p hp hc => L.stacksApart new s.current hthread hcurrent hne p
      (hnewRoom p (below_mono (Nat.le_add_right 56 I.reach) p hp)) (hdead p hc)

/-- A switch keeps it, whatever interrupts come between its instructions. -/
theorem CoreOk.switchTo (hapart : TableApart L I) (h : CoreOk L I s) {new : Addr}
    {irqs : List (List Nat)} (hok : s.Allowed L I (.switchTo new irqs)) :
    CoreOk L I (s.step I (.switchTo new irqs)) := by
  obtain ⟨hsame, hcode, -⟩ := h.switched hapart hok
  obtain ⟨hlive, hne, -, -, -, hroom⟩ := hok
  have hcurrent := h.threads.threads s.current h.threads.current
  have hnewRoom := h.room new hlive hne
  have hframe : (below (s.cpu.rsp + 8) 56).Sub (L.stack s.current) :=
    fun p hp => hroom p (below_mono (Nat.le_add_right 56 I.reach) p hp)
  have hplain : ThreadsOk L (s.threads.step (.switchTo new)) :=
    h.threads.switchTo ⟨hlive, hne, hframe⟩
  have hmem : (execute s.cpu switchCode).mem
      = (threadContextSwitch s.cpu.processor s.current new).mem := by
    rw [← hcode, CpuState.processor_mem]
  have hdead : (below (s.cpu.rsp - 48) I.reach).Sub (L.stack s.current) := by
    intro p hp
    have hup := @below_up (s.cpu.rsp - 48) p I.reach 56 hp
    refine hroom p ?_
    have hbase : s.cpu.rsp - 48 + BitVec.ofNat 64 56 = s.cpu.rsp + 8 := by
      bv_omega
    rw [hbase, Nat.add_comm] at hup
    exact hup
  -- what interrupts have written is on the stacks of the two threads
  have hkept : ∀ p, ¬ (below (s.cpu.rsp - 48) I.reach).Has p → ¬ (L.stack new).Has p →
      (I.interleave s.cpu switchCode irqs).mem p
        = (threadContextSwitch s.cpu.processor s.current new).mem p := by
    intro p hold hnew
    rw [hsame.mem p (fun hc => hc.elim hold (fun hin => hnew (hnewRoom p hin))), hmem]
  refine ⟨⟨hplain.threads, hplain.current, ?_⟩, hsame.gates, ?_⟩
  · intro t ht hnew
    have hthread := h.threads.threads t ht
    have hother := h.threads.threads new hlive
    refine (hplain.parked t ht hnew).kept_frame (fun p hp => hkept p ?_ ?_)
      (fun p hp => hkept p ?_ ?_)
    · intro hc
      by_cases htc : t = s.current
      · have hdue : (s.threads.step (.switchTo new)).due t = s.cpu.processor.afterReturn := by
          rw [htc]
          exact Function.update_self ..
        have hbase : s.cpu.rsp + 8 - BitVec.ofNat 64 56 = s.cpu.rsp - 48 := by
          bv_omega
        rw [hdue] at hp
        have hbound : 56 + I.reach ≤ 2 ^ 63 :=
          Nat.le_trans I.roomHigh (show threadStackBytes ≤ 2 ^ 63 by decide)
        refine @below_apart (s.cpu.rsp + 8) 56 I.reach hbound p hp ?_
        rw [hbase]
        exact hc
      · exact L.stacksApart t s.current hthread hcurrent htc p
          ((hplain.parked t ht hnew).inside p hp) (hdead p hc)
    · exact fun hc => L.stacksApart t new hthread hother hnew p
        ((hplain.parked t ht hnew).inside p hp) hc
    · exact fun hc => L.stateStackApart t s.current hthread hcurrent p (rsp_sub t p hp) (hdead p hc)
    · exact fun hc => L.stateStackApart t new hthread hother p (rsp_sub t p hp) hc
  · intro t ht hnew
    show (below (Function.update s.due s.current s.cpu.processor.afterReturn t).rsp _).Sub _
    by_cases htc : t = s.current
    · rw [htc, Function.update_self]
      exact hroom
    · rw [Function.update_of_ne htc]
      exact h.room t ht htc

/-- Every act keeps the invariant. -/
theorem CoreOk.step (hapart : TableApart L I) (h : CoreOk L I s) {a : InterruptedAct}
    (hok : s.Allowed L I a) : CoreOk L I (s.step I a) := by
  cases a with
  | work cpu => exact h.work hok
  | create thread stackRaw entry tid => exact h.create hapart hok
  | switchTo new irqs => exact h.switchTo hapart hok
  | interrupt v => exact h.interrupt hapart hok

/-- Where the invariant holds, a switched thread resumes as it stopped. -/
theorem CoreOk.resumes (hapart : TableApart L I) (h : CoreOk L I s) {a : InterruptedAct}
    (hok : s.Allowed L I a) : s.Resumes I a := by
  cases a with
  | work cpu => exact trivial
  | create thread stackRaw entry tid => exact trivial
  | switchTo new irqs =>
      obtain ⟨hsame, -, hdue⟩ := h.switched hapart hok
      show (I.interleave s.cpu switchCode irqs).processor.toContext = s.due new
      rw [← hdue, hsame.cpu]
      rfl
  | interrupt v => exact Irqs.serve_resumes h.gates hok.1

end Core

/-- In every run from one running thread, with interrupts at any point: each
    interrupt goes through the table of `idt_exinit` to its handler and resumes
    the thread, each switch gives the new thread what it is due, and the stub of
    each exception stays in the table. -/
theorem interrupts_transparent {L : Layout} {I : Irqs} (hapart : TableApart L I) {s : CoreThreads}
    (hthread : L.thread s.current) (hlive : s.live = [s.current]) {m : Mem} {idtPtr : Addr}
    (hmem : ∀ p, I.table.Has p → s.cpu.mem p = fillIdt m I.idt idtPtr I.stubs p)
    {as : List InterruptedAct} (hrun : Along (CoreThreads.step I) (CoreThreads.Allowed L I) s as) :
    Along (CoreThreads.step I) (fun s a => s.Resumes I a ∧ I.Gates s.cpu.mem) s as := by
  have hgates : I.Gates (fillIdt m I.idt idtPtr I.stubs) := fun v w hv => readGate_fillIdt hv
  have hstart : CoreOk L I s := by
    refine ⟨⟨?_, ?_, ?_⟩, hgates.kept hmem, ?_⟩
    · intro t ht
      have ht : t ∈ s.live := ht
      rw [hlive] at ht
      rw [List.mem_singleton.mp ht]
      exact hthread
    · show s.current ∈ s.live
      rw [hlive]
      exact List.mem_cons_self
    · intro t ht hne
      have ht : t ∈ s.live := ht
      rw [hlive] at ht
      exact absurd (List.mem_singleton.mp ht) hne
    · intro t ht hne
      rw [hlive] at ht
      exact absurd (List.mem_singleton.mp ht) hne
  exact along_of_invariant (fun s a h hok => ⟨h.resumes hapart hok, h.gates⟩)
    (fun s a h hok => h.step hapart hok) hstart hrun

/-- Handlers that return at once. -/
def quickIrqs : Irqs where
  idt := 0x40000
  stubs := lowStubs
  timer c := { c with rsp := c.rsp + 8 }
  ipi c := { c with rsp := c.rsp + 8 }
  timerRet := 0x5018
  ipiRet := 0x5058
  room := 8
  timerReturns := ⟨fun _ => rfl, fun _ _ _ => rfl⟩
  ipiReturns := ⟨fun _ => rfl, fun _ _ _ => rfl⟩
  roomLow := by decide
  roomHigh := by decide

/-- The table of the example lies apart from its stacks. -/
theorem tableApart_two : TableApart twoThreads quickIrqs where
  state := by
    rintro t (rfl | rfl)
    · exact (apart_of_le (by decide) (by decide)).symm
    · exact (apart_of_le (by decide) (by decide)).symm
  stack := by
    rintro t (rfl | rfl)
    · exact (apart_of_le (by decide) (by decide)).symm
    · exact (apart_of_le (by decide) (by decide)).symm

/-- The idle thread runs, with the table in memory. -/
def idleCore : CoreThreads where
  cpu := { rax := 1, rcx := 2, rdx := 3, rbx := 0, rbp := 7, rsi := 0, rdi := 0, r8 := 0, r9 := 0
           r10 := 0, r11 := 0, r12 := 0, r13 := 0, r14 := 0, r15 := 0, rsp := 0x13000, rip := 0
           rflags := 0x202, cs := 8, ss := 16
           mem := fillIdt (fun _ => 0) 0x40000 0x41000 lowStubs }
  current := 0x1000
  live := [0x1000]
  due _ := { rbp := 0, rbx := 0, r12 := 0, r13 := 0, r14 := 0, r15 := 0, rsp := 0, rip := 0 }

/-- It is interrupted and creates a thread. -/
def interruptedCreate : List InterruptedAct := [.interrupt 0x30, .create 0x2000 0x20000 0x5000 1]

/-- It switches to the thread, with interrupts before and between the pushes. -/
def interruptedSwitch : List InterruptedAct :=
  interruptedCreate ++
    [.work { (exec (CoreThreads.step quickIrqs) idleCore interruptedCreate).cpu with
        rdi := 0x1000, rsi := 0x2000, rsp := 0x13000 },
      .switchTo 0x2000 [[0x30], [0x40, 0x30]]]

theorem interrupts_transparent_switch :
    Along (CoreThreads.step quickIrqs)
      (fun s a => s.Resumes quickIrqs a ∧ quickIrqs.Gates s.cpu.mem)
      idleCore interruptedSwitch := by
  have hcreate : Along (CoreThreads.step quickIrqs) (CoreThreads.Allowed twoThreads quickIrqs)
      idleCore interruptedCreate :=
    ⟨⟨Or.inl rfl, sub_of_le (by decide) (by decide)⟩, ⟨Or.inr rfl, by decide, rfl⟩, trivial⟩
  refine interrupts_transparent tableApart_two (Or.inl rfl) rfl (fun _ _ => rfl)
    (along_append.mpr ⟨hcreate, ⟨⟨fun _ _ _ _ _ => rfl, fun _ _ => rfl⟩, ⟨?_, ?_⟩, trivial⟩⟩)
  · exact List.mem_cons_self
  · refine ⟨by decide, rfl, rfl, ?_, sub_of_le (by decide) (by decide)⟩
    intro vs hvs v hv
    rcases List.mem_cons.mp hvs with rfl | hvs
    · exact Or.inl (List.mem_singleton.mp hv)
    · rw [List.mem_singleton.mp hvs] at hv
      rcases List.mem_cons.mp hv with rfl | hv
      · exact Or.inr rfl
      · exact Or.inl (List.mem_singleton.mp hv)

end Pfi
