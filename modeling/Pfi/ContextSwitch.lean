import Mathlib.Logic.Function.Basic
import Pfi.ByteStore
import Pfi.Run

/-! # Context switches

    `thread_context_switch` pushes six registers on the stack of the old
    thread, above them the return address of the call, stores the stack
    pointer in the first field of its `thread_state`, loads that of the new
    thread and pops the registers in the opposite order.  `create_thread`
    writes a frame of the same seven words on a new stack, and its stack
    pointer into the same field.

    A thread that does not run is parked: its `thread_state` leads to a frame
    on its own stack with the words it is to go on with (`Parked`).  Creating
    a thread and switching away from one both park it, and nothing that
    another thread does to its own memory changes a parked one.  So every
    thread is resumed with the registers, the stack pointer and the return
    address of its last switch, or at its entry with six zeros
    (`context_switch_transparent`). -/

namespace Pfi

open ByteStore Run

/-! ## The switch -/

/-- What a thread goes on with: the registers that a call keeps, the stack
    pointer, and where it goes on. -/
structure Context where
  rbp : Word
  rbx : Word
  r12 : Word
  r13 : Word
  r14 : Word
  r15 : Word
  rsp : Word
  rip : Word
deriving DecidableEq

structure Processor extends Context where
  mem : Mem

/-- The first half of `thread_context_switch`: six pushes, and the store of
    `rsp`, which is the first field of a `thread_state`. -/
def saveContext (c : Processor) (old : Addr) : Processor :=
  let rsp := c.rsp - 8
  let mem := store64 c.mem rsp c.rbp
  let rsp := rsp - 8
  let mem := store64 mem rsp c.rbx
  let rsp := rsp - 8
  let mem := store64 mem rsp c.r12
  let rsp := rsp - 8
  let mem := store64 mem rsp c.r13
  let rsp := rsp - 8
  let mem := store64 mem rsp c.r14
  let rsp := rsp - 8
  let mem := store64 mem rsp c.r15
  let mem := store64 mem old rsp
  { c with rsp := rsp, mem := mem }

/-- The second half: six pops and the return. -/
def restoreContext (c : Processor) (new : Addr) : Processor :=
  let rsp := load64 c.mem new
  let r15 := load64 c.mem rsp
  let rsp := rsp + 8
  let r14 := load64 c.mem rsp
  let rsp := rsp + 8
  let r13 := load64 c.mem rsp
  let rsp := rsp + 8
  let r12 := load64 c.mem rsp
  let rsp := rsp + 8
  let rbx := load64 c.mem rsp
  let rsp := rsp + 8
  let rbp := load64 c.mem rsp
  let rsp := rsp + 8
  let rip := load64 c.mem rsp
  let rsp := rsp + 8
  { rbp := rbp, rbx := rbx, r12 := r12, r13 := r13, r14 := r14, r15 := r15
    rsp := rsp, rip := rip, mem := c.mem }

/-- `thread_context_switch`, from its first instruction on: `rsp` points to
    the return address. -/
def threadContextSwitch (c : Processor) (old new : Addr) : Processor :=
  restoreContext (saveContext c old) new

/-- What the caller of the switch is to go on with: the return of the call. -/
def Processor.afterReturn (c : Processor) : Context :=
  { c.toContext with rsp := c.rsp + 8, rip := load64 c.mem c.rsp }

/-! ## New threads -/

abbrev threadStackBytes : Nat := 16384
abbrev threadStateBytes : Nat := 44

/-- The memory that `create_thread` leaves: seven words at the end of the
    stack, then `rsp`, `tid`, `stack_bottom` and `status`, which is
    `THREAD_STATUS_READY`. -/
def createThreadFrame (m : Mem) (thread stackRaw : Addr) (entry tid : Word) : Mem :=
  let stack := stackRaw + BitVec.ofNat 64 threadStackBytes
  let m := pushAll m stack [entry, 0, 0, 0, 0, 0, 0]
  let m := store64 m thread (stack - 56)
  let m := store64 m (thread + 8) tid
  let m := store64 m (thread + 16) stackRaw
  store m (thread + 32) 4 0

/-- What a new thread starts with. -/
def initialContext (stackRaw : Addr) (entry : Word) : Context :=
  { rbp := 0, rbx := 0, r12 := 0, r13 := 0, r14 := 0, r15 := 0
    rsp := stackRaw + BitVec.ofNat 64 threadStackBytes, rip := entry }

/-! ## Frames -/

/-- The context in the seven words below an address. -/
def frameAt (m : Mem) (top : Addr) : Context :=
  { rip := load64 m (slot top 0)
    rbp := load64 m (slot top 1)
    rbx := load64 m (slot top 2)
    r12 := load64 m (slot top 3)
    r13 := load64 m (slot top 4)
    r14 := load64 m (slot top 5)
    r15 := load64 m (slot top 6)
    rsp := top }

section Frame

variable {m m' : Mem} {top : Addr} {c : Processor} {old new : Addr}

theorem frameAt_congr (h : ∀ p, (below top 56).Has p → m' p = m p) :
    frameAt m' top = frameAt m top := by
  have hword : ∀ i, i < 7 → load64 m' (slot top i) = load64 m (slot top i) :=
    fun i hi => load_slot_congr hi h
  unfold frameAt
  rw [hword 0 (by decide), hword 1 (by decide), hword 2 (by decide), hword 3 (by decide),
    hword 4 (by decide), hword 5 (by decide), hword 6 (by decide)]

/-- The memory after the pushes and the store. -/
theorem saveContext_mem (c : Processor) (old : Addr) :
    (saveContext c old).mem
      = store64 (pushAll c.mem c.rsp [c.rbp, c.rbx, c.r12, c.r13, c.r14, c.r15]) old
          (c.rsp - 48) := by
  have hsp : c.rsp - 8 - 8 - 8 - 8 - 8 - 8 = c.rsp - 48 := by bv_omega
  simp only [saveContext, pushAll, hsp]

theorem restoreContext_mem (c : Processor) (new : Addr) :
    (restoreContext c new).mem = c.mem := by
  simp only [restoreContext]

/-- The new thread goes on with the frame that its `thread_state` leads to. -/
theorem restoreContext_context (c : Processor) (new : Addr) :
    (restoreContext c new).toContext = frameAt c.mem (load64 c.mem new + 56) := by
  unfold restoreContext frameAt
  dsimp only
  generalize load64 c.mem new = sp
  have h0 : slot (sp + 56) 0 = sp + 8 + 8 + 8 + 8 + 8 + 8 := by unfold slot; bv_omega
  have h1 : slot (sp + 56) 1 = sp + 8 + 8 + 8 + 8 + 8 := by unfold slot; bv_omega
  have h2 : slot (sp + 56) 2 = sp + 8 + 8 + 8 + 8 := by unfold slot; bv_omega
  have h3 : slot (sp + 56) 3 = sp + 8 + 8 + 8 := by unfold slot; bv_omega
  have h4 : slot (sp + 56) 4 = sp + 8 + 8 := by unfold slot; bv_omega
  have h5 : slot (sp + 56) 5 = sp + 8 := by unfold slot; bv_omega
  have h6 : slot (sp + 56) 6 = sp := by unfold slot; bv_omega
  have hrsp : sp + 8 + 8 + 8 + 8 + 8 + 8 + 8 = sp + 56 := by bv_omega
  rw [h0, h1, h2, h3, h4, h5, h6, hrsp]

/-- Seven words pushed from an address are a frame there. -/
theorem frameAt_pushAll (m : Mem) (top : Addr) (rip rbp rbx r12 r13 r14 r15 : Word) :
    frameAt (pushAll m top [rip, rbp, rbx, r12, r13, r14, r15]) top
      = { rbp := rbp, rbx := rbx, r12 := r12, r13 := r13, r14 := r14, r15 := r15
          rsp := top, rip := rip } := by
  have hword : ∀ i, i < 7 →
      load64 (pushAll m top [rip, rbp, rbx, r12, r13, r14, r15]) (slot top i)
        = [rip, rbp, rbx, r12, r13, r14, r15].getD i 0 :=
    fun i hi => @load_pushAll m top [rip, rbp, rbx, r12, r13, r14, r15] i
      (show 8 * 7 ≤ 2 ^ 64 by decide) hi
  unfold frameAt
  rw [hword 0 (by decide), hword 1 (by decide), hword 2 (by decide), hword 3 (by decide),
    hword 4 (by decide), hword 5 (by decide), hword 6 (by decide)]
  rfl

/-- The call has pushed the return address, and the switch the six registers
    below it. -/
theorem saveContext_frame (c : Processor) (old : Addr)
    (hapart : Range.Apart ⟨old, 8⟩ (below (c.rsp + 8) 56)) :
    frameAt (saveContext c old).mem (c.rsp + 8) = c.afterReturn := by
  have hws : 8 * [c.rbp, c.rbx, c.r12, c.r13, c.r14, c.r15].length ≤ 2 ^ 64 :=
    show 8 * 6 ≤ 2 ^ 64 by decide
  -- the store of `rsp` is elsewhere
  have hkeep : frameAt (saveContext c old).mem (c.rsp + 8)
      = frameAt (pushAll c.mem c.rsp [c.rbp, c.rbx, c.r12, c.r13, c.r14, c.r15]) (c.rsp + 8) := by
    rw [saveContext_mem]
    exact frameAt_congr (fun p hp => store_apart (fun hc => hapart p hc hp))
  have hword : ∀ i, i < 6 →
      load64 (pushAll c.mem c.rsp [c.rbp, c.rbx, c.r12, c.r13, c.r14, c.r15])
          (slot (c.rsp + 8) (i + 1))
        = [c.rbp, c.rbx, c.r12, c.r13, c.r14, c.r15].getD i 0 := by
    intro i hi
    have hslot : slot (c.rsp + 8) (i + 1) = slot c.rsp i := by
      unfold slot
      bv_omega
    rw [hslot]
    exact load_pushAll hws hi
  have hreturn : load64 (pushAll c.mem c.rsp [c.rbp, c.rbx, c.r12, c.r13, c.r14, c.r15])
      (slot (c.rsp + 8) 0) = load64 c.mem c.rsp := by
    have hslot : slot (c.rsp + 8) 0 = c.rsp := by
      unfold slot
      bv_omega
    rw [hslot]
    refine load64_eq_of_eqOn (fun p hp => pushAll_apart hws (fun hc => ?_))
    unfold below Range.Has at *
    dsimp only [List.length_cons, List.length_nil] at *
    bv_omega
  rw [hkeep]
  unfold frameAt Processor.afterReturn
  rw [hreturn, hword 0 (by decide), hword 1 (by decide), hword 2 (by decide),
    hword 3 (by decide), hword 4 (by decide), hword 5 (by decide)]
  rfl

end Frame

/-! ## Threads -/

/-- Where the threads and their stacks lie: a `thread_state` is apart from
    every stack and from the others, and so are the stacks. -/
structure Layout where
  thread : Addr → Prop
  stack : Addr → Range
  statesApart : ∀ t u, thread t → thread u → t ≠ u →
    Range.Apart ⟨t, threadStateBytes⟩ ⟨u, threadStateBytes⟩
  stacksApart : ∀ t u, thread t → thread u → t ≠ u → (stack t).Apart (stack u)
  stateStackApart : ∀ t u, thread t → thread u → Range.Apart ⟨t, threadStateBytes⟩ (stack u)

/-- The processor, the running thread and all threads.  No code reads the
    last field: what each thread is to be resumed with. -/
structure Threads where
  cpu : Processor
  current : Addr
  live : List Addr
  due : Addr → Context

/-- The running thread computes, a thread is created, or the running thread
    calls `thread_context_switch(current, new)`. -/
inductive ThreadAct where
  | work (cpu : Processor)
  | create (thread stackRaw : Addr) (entry tid : Word)
  | switchTo (new : Addr)

def Threads.step (s : Threads) : ThreadAct → Threads
  | .work cpu => { s with cpu := cpu }
  | .create thread stackRaw entry tid =>
      { s with
        cpu := { s.cpu with mem := createThreadFrame s.cpu.mem thread stackRaw entry tid }
        live := thread :: s.live
        due := Function.update s.due thread (initialContext stackRaw entry) }
  | .switchTo new =>
      { s with
        cpu := threadContextSwitch s.cpu s.current new
        current := new
        due := Function.update s.due s.current s.cpu.afterReturn }

theorem Threads.step_switchTo (s : Threads) (new : Addr) :
    s.step (.switchTo new) =
      { cpu := threadContextSwitch s.cpu s.current new, current := new, live := s.live
        due := Function.update s.due s.current s.cpu.afterReturn } := rfl

/-- A thread that runs leaves the stacks of the others alone and the words
    that their `rsp` is in; a new thread has its own block and stack; and a
    switch is to another thread, with its frame on the stack of the old
    one. -/
def Threads.Allowed (L : Layout) (s : Threads) : ThreadAct → Prop
  | .work cpu => ∀ t ∈ s.live, t ≠ s.current →
      ∀ p, (L.stack t).Has p ∨ Range.Has ⟨t, 8⟩ p → cpu.mem p = s.cpu.mem p
  | .create thread stackRaw _ _ =>
      L.thread thread ∧ thread ∉ s.live ∧ L.stack thread = ⟨stackRaw, threadStackBytes⟩
  | .switchTo new =>
      new ∈ s.live ∧ new ≠ s.current ∧ (below (s.cpu.rsp + 8) 56).Sub (L.stack s.current)

/-- A thread that is switched to has what it is due. -/
def Threads.Restores (s : Threads) : ThreadAct → Prop
  | .switchTo new => (threadContextSwitch s.cpu s.current new).toContext = s.due new
  | _ => True

/-! ## Parked threads -/

/-- The `thread_state` leads to a frame on the stack of the thread. -/
structure Parked (L : Layout) (m : Mem) (t : Addr) (c : Context) : Prop where
  rsp : load64 m t = c.rsp - 56
  inside : (below c.rsp 56).Sub (L.stack t)
  frame : frameAt m c.rsp = c

structure ThreadsOk (L : Layout) (s : Threads) : Prop where
  threads : ∀ t ∈ s.live, L.thread t
  current : s.current ∈ s.live
  parked : ∀ t ∈ s.live, t ≠ s.current → Parked L s.cpu.mem t (s.due t)

section Park

variable {L : Layout} {m m' : Mem} {t u : Addr} {c : Context} {s : Threads}

/-- A thread stays parked while its stack and its `rsp` are left alone. -/
theorem Parked.kept (h : Parked L m t c)
    (hmem : ∀ p, (L.stack t).Has p ∨ Range.Has ⟨t, 8⟩ p → m' p = m p) : Parked L m' t c := by
  refine ⟨?_, h.inside, ?_⟩
  · rw [load64_eq_of_eqOn (fun p hp => hmem p (Or.inr hp))]
    exact h.rsp
  · rw [frameAt_congr (fun p hp => hmem p (Or.inl (h.inside p hp)))]
    exact h.frame

/-- The field `rsp` is a part of the `thread_state`. -/
theorem rsp_sub (t : Addr) : Range.Sub ⟨t, 8⟩ ⟨t, threadStateBytes⟩ := by
  intro p hp
  unfold Range.Has at *
  exact Nat.lt_of_lt_of_le hp (show 8 ≤ threadStateBytes by decide)

/-! ### Creating -/

/-- Behind the frame only the fields are stored. -/
theorem createThreadFrame_fields {stackRaw : Addr} {entry tid : Word} {p : Addr}
    (hp : ¬ Range.Has ⟨t, threadStateBytes⟩ p) :
    createThreadFrame m t stackRaw entry tid p
      = pushAll m (stackRaw + BitVec.ofNat 64 threadStackBytes) [entry, 0, 0, 0, 0, 0, 0] p := by
  have hfield : ∀ (o : Addr) (n : Nat), o.toNat + n ≤ threadStateBytes →
      ¬ Range.Has ⟨t + o, n⟩ p := by
    intro o n hle hc
    refine hp ?_
    unfold Range.Has at *
    dsimp only [threadStateBytes] at *
    bv_omega
  have hrsp : ¬ Range.Has ⟨t, 8⟩ p := fun hc => hp (rsp_sub t p hc)
  unfold createThreadFrame store64
  rw [store_apart (hfield 32 4 (by decide)), store_apart (hfield 16 8 (by decide)),
    store_apart (hfield 8 8 (by decide)), store_apart hrsp]

theorem createThreadFrame_apart {stackRaw : Addr} {entry tid : Word} {p : Addr}
    (hp : ¬ Range.Has ⟨t, threadStateBytes⟩ p)
    (hstack : ¬ Range.Has ⟨stackRaw, threadStackBytes⟩ p) :
    createThreadFrame m t stackRaw entry tid p = m p := by
  rw [createThreadFrame_fields hp]
  refine pushAll_apart (show 8 * 7 ≤ 2 ^ 64 by decide) (fun hc => hstack ?_)
  unfold below Range.Has at *
  dsimp only [List.length_cons, List.length_nil, threadStackBytes] at *
  bv_omega

/-- A new thread is parked. -/
theorem Parked.created {stackRaw : Addr} (hthread : L.thread t)
    (hstack : L.stack t = ⟨stackRaw, threadStackBytes⟩) (m : Mem) (entry tid : Word) :
    Parked L (createThreadFrame m t stackRaw entry tid) t (initialContext stackRaw entry) := by
  have hinside : (below (stackRaw + BitVec.ofNat 64 threadStackBytes) 56).Sub (L.stack t) := by
    rw [hstack]
    intro p hp
    unfold below Range.Has at *
    dsimp only [threadStackBytes] at *
    bv_omega
  refine ⟨?_, hinside, ?_⟩
  · -- the fields behind `rsp` do not overlap it
    have hlater : ∀ (m : Mem) (o : Addr) (n v : Nat), 8 ≤ o.toNat → o.toNat + n ≤ threadStateBytes →
        load64 (store m (t + o) n v) t = load64 m t := by
      intro m o n v hlow hhigh
      refine load64_store_apart (fun p hp hp' => ?_)
      unfold Range.Has at hp hp'
      dsimp only [threadStateBytes] at *
      bv_omega
    unfold createThreadFrame
    rw [hlater _ 32 4 _ (by decide) (by decide)]
    unfold store64
    rw [hlater _ 16 8 _ (by decide) (by decide), hlater _ 8 8 _ (by decide) (by decide)]
    exact load64_store64 _
  · show frameAt _ (stackRaw + BitVec.ofNat 64 threadStackBytes) = _
    rw [frameAt_congr (fun p hp => createThreadFrame_fields
      (fun hc => L.stateStackApart t t hthread hthread p hc (hinside p hp)))]
    exact frameAt_pushAll ..

/-! ### Switching -/

/-- The first half of a switch writes the frame and the field of the old
    thread. -/
theorem saveContext_apart {cpu : Processor} {p : Addr} (hp : ¬ Range.Has ⟨t, 8⟩ p)
    (hframe : ¬ (below (cpu.rsp + 8) 56).Has p) : (saveContext cpu t).mem p = cpu.mem p := by
  rw [saveContext_mem]
  refine (store_apart hp).trans (pushAll_apart (show 8 * 6 ≤ 2 ^ 64 by decide) (fun hc => ?_))
  refine hframe ?_
  unfold below Range.Has at *
  dsimp only [List.length_cons, List.length_nil] at *
  bv_omega

/-- The old thread is parked with what its caller is to have. -/
theorem Parked.saved {cpu : Processor} (hthread : L.thread t)
    (hframe : (below (cpu.rsp + 8) 56).Sub (L.stack t)) :
    Parked L (saveContext cpu t).mem t cpu.afterReturn := by
  refine ⟨?_, hframe, ?_⟩
  · have hsp : cpu.rsp - 48 = cpu.rsp + 8 - 56 := by bv_omega
    rw [saveContext_mem, load64_store64, hsp]
    rfl
  · refine saveContext_frame cpu t (fun p hp hp' => ?_)
    exact L.stateStackApart t t hthread hthread p (rsp_sub t p hp) (hframe p hp')

/-- The others stay parked. -/
theorem Parked.switched {cpu : Processor} (h : Parked L cpu.mem u c) (ht : L.thread t)
    (hu : L.thread u) (hne : u ≠ t) (hframe : (below (cpu.rsp + 8) 56).Sub (L.stack t)) :
    Parked L (saveContext cpu t).mem u c := by
  refine h.kept (fun p hp => saveContext_apart (fun hc => ?_) (fun hc => ?_))
  · have hstate := rsp_sub t p hc
    rcases hp with hp | hp
    · exact L.stateStackApart t u ht hu p hstate hp
    · exact L.statesApart u t hu ht hne p (rsp_sub u p hp) hstate
  · have hstack := hframe p hc
    rcases hp with hp | hp
    · exact L.stacksApart u t hu ht hne p hp hstack
    · exact L.stateStackApart u t hu ht p (rsp_sub u p hp) hstack

/-- The second half of a switch gives a parked thread what it is due. -/
theorem Parked.resumed {cpu : Processor} (h : Parked L cpu.mem t c) :
    (restoreContext cpu t).toContext = c := by
  have hsp : c.rsp - 56 + 56 = c.rsp := by bv_omega
  rw [restoreContext_context, h.rsp, hsp]
  exact h.frame

/-! ### Steps -/

theorem ThreadsOk.work (h : ThreadsOk L s) {cpu : Processor} (hok : s.Allowed L (.work cpu)) :
    ThreadsOk L (s.step (.work cpu)) :=
  ⟨h.threads, h.current, fun t ht hne => (h.parked t ht hne).kept (hok t ht hne)⟩

theorem ThreadsOk.create (h : ThreadsOk L s) {stackRaw : Addr} {entry tid : Word}
    (hok : s.Allowed L (.create t stackRaw entry tid)) :
    ThreadsOk L (s.step (.create t stackRaw entry tid)) := by
  obtain ⟨hthread, hnew, hstack⟩ := hok
  refine ⟨?_, List.mem_cons_of_mem _ h.current, ?_⟩
  · intro u hu
    rcases List.mem_cons.mp hu with rfl | hu
    · exact hthread
    · exact h.threads u hu
  · intro u hu hne
    show Parked L (createThreadFrame s.cpu.mem t stackRaw entry tid) u
      (Function.update s.due t (initialContext stackRaw entry) u)
    rcases List.mem_cons.mp hu with rfl | hu
    · rw [Function.update_self]
      exact Parked.created hthread hstack _ _ _
    · -- an older thread has other blocks
      have hut : u ≠ t := fun hc => hnew (hc ▸ hu)
      have hlayout := h.threads u hu
      rw [Function.update_of_ne hut]
      refine (h.parked u hu hne).kept (fun p hp => createThreadFrame_apart (fun hc => ?_)
        (fun hc => ?_))
      · rcases hp with hp | hp
        · exact L.stateStackApart t u hthread hlayout p hc hp
        · exact L.statesApart u t hlayout hthread hut p (rsp_sub u p hp) hc
      · rw [← hstack] at hc
        rcases hp with hp | hp
        · exact L.stacksApart u t hlayout hthread hut p hp hc
        · exact L.stateStackApart u t hlayout hthread p (rsp_sub u p hp) hc

theorem ThreadsOk.switchTo (h : ThreadsOk L s) {new : Addr} (hok : s.Allowed L (.switchTo new)) :
    ThreadsOk L (s.step (.switchTo new)) := by
  have hframe : (below (s.cpu.rsp + 8) 56).Sub (L.stack s.current) := hok.2.2
  have hcurrent := h.threads s.current h.current
  rw [Threads.step_switchTo]
  refine ⟨h.threads, hok.1, ?_⟩
  intro u hu _
  dsimp only at hu ⊢
  rw [threadContextSwitch, restoreContext_mem]
  by_cases huc : u = s.current
  · rw [huc, Function.update_self]
    exact Parked.saved hcurrent hframe
  · rw [Function.update_of_ne huc]
    exact (h.parked u hu huc).switched hcurrent (h.threads u hu) huc hframe

theorem ThreadsOk.step (h : ThreadsOk L s) {a : ThreadAct} (hok : s.Allowed L a) :
    ThreadsOk L (s.step a) := by
  cases a with
  | work cpu => exact h.work hok
  | create thread stackRaw entry tid => exact h.create hok
  | switchTo new => exact h.switchTo hok

theorem ThreadsOk.restores (h : ThreadsOk L s) {a : ThreadAct} (hok : s.Allowed L a) :
    s.Restores a := by
  cases a with
  | work cpu => exact trivial
  | create thread stackRaw entry tid => exact trivial
  | switchTo new =>
      obtain ⟨hlive, hne, hframe⟩ := hok
      have hparked := (h.parked new hlive hne).switched (h.threads s.current h.current)
        (h.threads new hlive) hne hframe
      exact hparked.resumed

end Park

/-- In every run from one running thread, each switch gives the new thread what
    it is due: its initial context, or what it had at its last switch. -/
theorem context_switch_transparent {L : Layout} {s : Threads} (hthread : L.thread s.current)
    (hlive : s.live = [s.current]) {as : List ThreadAct}
    (hrun : Along Threads.step (Threads.Allowed L) s as) :
    Along Threads.step Threads.Restores s as := by
  have hstart : ThreadsOk L s := by
    refine ⟨?_, ?_, ?_⟩
    · intro t ht
      rw [hlive] at ht
      rw [List.mem_singleton.mp ht]
      exact hthread
    · rw [hlive]
      exact List.mem_cons_self
    · intro t ht hne
      rw [hlive] at ht
      exact absurd (List.mem_singleton.mp ht) hne
  exact along_of_invariant (fun s a h hok => h.restores hok) (fun s a h hok => h.step hok) hstart
    hrun

/-- The idle thread at 0x1000 and a thread at 0x2000, with their stacks. -/
def twoThreads : Layout where
  thread t := t = 0x1000 ∨ t = 0x2000
  stack t := if t = 0x1000 then ⟨0x10000, 0x4000⟩ else ⟨0x20000, threadStackBytes⟩
  statesApart := by
    rintro t u (rfl | rfl) (rfl | rfl) hne
    · exact absurd rfl hne
    · exact apart_of_le (by decide) (by decide)
    · exact (apart_of_le (by decide) (by decide)).symm
    · exact absurd rfl hne
  stacksApart := by
    rintro t u (rfl | rfl) (rfl | rfl) hne
    · exact absurd rfl hne
    · exact apart_of_le (by decide) (by decide)
    · exact (apart_of_le (by decide) (by decide)).symm
    · exact absurd rfl hne
  stateStackApart := by
    rintro t u (rfl | rfl) (rfl | rfl)
    · exact apart_of_le (by decide) (by decide)
    · exact apart_of_le (by decide) (by decide)
    · exact apart_of_le (by decide) (by decide)
    · exact apart_of_le (by decide) (by decide)

/-- The idle thread runs, with its stack pointer in its stack. -/
def idleStart : Threads where
  cpu := { rbp := 7, rbx := 0, r12 := 0, r13 := 0, r14 := 0, r15 := 0, rsp := 0x13000, rip := 0
           mem := fun _ => 0 }
  current := 0x1000
  live := [0x1000]
  due _ := { rbp := 0, rbx := 0, r12 := 0, r13 := 0, r14 := 0, r15 := 0, rsp := 0, rip := 0 }

/-- It creates a thread with entry 0x5000 and switches to it. -/
def firstSwitch : List ThreadAct := [.create 0x2000 0x20000 0x5000 1, .switchTo 0x2000]

/-- The new thread changes `rbp` and its stack pointer, and switches back. -/
def thereAndBack : List ThreadAct :=
  firstSwitch ++
    [.work { (exec Threads.step idleStart firstSwitch).cpu with rbp := 9, rsp := 0x23000 },
      .switchTo 0x1000]

theorem context_switch_there_and_back :
    Along Threads.step Threads.Restores idleStart thereAndBack := by
  have hfirst : Along Threads.step (Threads.Allowed twoThreads) idleStart firstSwitch :=
    ⟨⟨Or.inr rfl, by decide, rfl⟩,
      ⟨List.mem_cons_self, by decide, sub_of_le (by decide) (by decide)⟩, trivial⟩
  refine context_switch_transparent (L := twoThreads) (Or.inl rfl) rfl
    (along_append.mpr ⟨hfirst, ⟨fun _ _ _ _ _ => rfl, ⟨?_, ?_, ?_⟩, trivial⟩⟩)
  · exact List.mem_cons_of_mem _ List.mem_cons_self
  · show (0x1000 : Addr) ≠ 0x2000
    decide
  · show (below (0x23000 + 8) 56).Sub (twoThreads.stack 0x2000)
    exact sub_of_le (by decide) (by decide)

end Pfi
