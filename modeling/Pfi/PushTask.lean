import Pfi.Memory
import Pfi.Smp
import Pfi.Exhaustion

/-! # A push whose thread cannot be created

    `create_thread` allocates the `thread_state` and the stack, and returns
    `NULL` when either fails.  `smp_push_task` and `smp_push_task_bsp` link
    what it returns into the ready list of the core without looking at it:
    a failed creation is stored through, and the ready list becomes `NULL`
    (`pushTo_failed`).  The queued threads stay in memory and nothing leads to
    them any more; and when it was the stack that failed, nothing leads to the
    block of the `thread_state` either.

    The two functions differ in a message and in where the index of the core
    comes from.  Here the allocations are those of `avmf_alloc` on the state
    of the machine; pointers are addresses, and `NULL` is `0`. -/

namespace Pfi

open Words

/-! ## State -/

/-- `struct thread_state`, without the trap frame, which no code here uses. -/
structure ThreadState where
  rsp : Nat := 0
  tid : Nat := 0
  stackBottom : Nat := 0
  status : ThreadStatus := .ready
  next : Nat := 0
deriving Repr, DecidableEq

/-- What a push reads and writes of a `core_state`. -/
structure TargetCore where
  lapicId : Nat := 0
  status : CoreStatus := .ready
  readyList : Nat := 0
  nextTid : Nat := 0
deriving Repr, DecidableEq

/-- The machine, `cores`, the threads by their pointers, the words of their
    stacks, and the cores that were sent a wakeup interrupt.  No code reads
    the last three: the blocks that `avmf_alloc` has handed out and the number
    of stores through `NULL`. -/
structure Queues where
  m : Machine := {}
  cores : Nat → Option TargetCore := fun _ => none
  bspCoreIdx : Nat := 0
  threads : Nat → ThreadState := fun _ => {}
  words : Nat → Nat := fun _ => 0
  wakeups : List Nat := []
  blocks : List Nat := []
  nullStores : Nat := 0

/-! ## Creating a thread -/

abbrev sizeofThreadState : Nat := 44
abbrev threadStackSize : Nat := 16384

/-- `avmf_alloc` of a KERNEL block, present and writable. -/
def Queues.avmfAlloc (s : Queues) (size : Nat) : Nat × Queues :=
  let r := Pfi.avmfAlloc s.m size .kernel (pagePresent ||| pageRw)
  (r.virt, { s with m := r.m, blocks := if r.virt = 0 then s.blocks else r.virt :: s.blocks })

/-- The seven words that `create_thread` pushes on a new stack, whose end is
    `top`: the entry and six registers. -/
def initialStack (words : Nat → Nat) (top entry : Nat) : Nat → Nat := fun a =>
  if a = top - 8 then entry
  else if top - 56 ≤ a ∧ a < top - 8 ∧ a % 8 = top % 8 then 0
  else words a

/-- `create_thread`: the thread, `NULL` on failure. -/
def createThread (s : Queues) (entry tid : Nat) : Nat × Queues :=
  let r := s.avmfAlloc sizeofThreadState
  let thread := r.1
  if thread = 0 then (0, r.2)
  else
    let k := r.2.avmfAlloc threadStackSize
    -- the block of the thread is not given back
    if k.1 = 0 then (0, k.2)
    else
      let top := k.1 + threadStackSize
      (thread,
        { k.2 with
          words := initialStack k.2.words top entry
          threads := Function.update k.2.threads thread
            { k.2.threads thread with
              rsp := top - 56, tid := tid, stackBottom := k.1, status := .ready } })

/-! ## Pushing it -/

/-- `cores[core_idx] = core`, for a store into a field. -/
def Queues.setCore (s : Queues) (coreIdx : Nat) (core : TargetCore) : Queues :=
  { s with cores := Function.update s.cores coreIdx (some core) }

/-- `thread->next = next`. -/
def Queues.setNext (s : Queues) (thread next : Nat) : Queues :=
  { s with
    threads := Function.update s.threads thread { s.threads thread with next := next }
    nullStores := if thread = 0 then s.nullStores + 1 else s.nullStores }

/-- The body that the two pushes have in common. -/
def pushTo (s : Queues) (coreIdx entry : Nat) : Queues :=
  if 255 < coreIdx then s
  else
    match s.cores coreIdx with
    | none => s
    | some target =>
        let bumped := { target with nextTid := (target.nextTid + 1) % 2 ^ 64 }
        let r := createThread (s.setCore coreIdx bumped) entry target.nextTid
        -- the result is used without a test
        let s := r.2.setNext r.1 target.readyList
        let s := s.setCore coreIdx { bumped with readyList := r.1 }
        if target.status = .running then s
        else { s with wakeups := target.lapicId :: s.wakeups }

/-- `smp_push_task`. -/
def smpPushTask (s : Queues) (coreIdx entry : Nat) : Queues := pushTo s coreIdx entry

/-- `smp_push_task_bsp`. -/
def smpPushTaskBsp (s : Queues) (entry : Nat) : Queues := pushTo s s.bspCoreIdx entry

/-! ## What a failed push should leave alone -/

/-- The threads that are reached from the ready list. -/
inductive Queued (s : Queues) (core : TargetCore) : Nat → Prop where
  | head : core.readyList ≠ 0 → Queued s core core.readyList
  | next {t : Nat} : Queued s core t → (s.threads t).next ≠ 0 →
      Queued s core (s.threads t).next

/-- The ready list of the core and the threads on it are as before, nothing
    was stored through `NULL`, and no block was left behind. -/
structure LosesNothing (s s' : Queues) (coreIdx : Nat) : Prop where
  readyList : (s'.cores coreIdx).map TargetCore.readyList
    = (s.cores coreIdx).map TargetCore.readyList
  threads : ∀ core t, s.cores coreIdx = some core → Queued s core t →
    s'.threads t = s.threads t
  stores : s'.nullStores = s.nullStores
  blocks : s'.blocks = s.blocks

/-- One of the two allocations of `create_thread` fails. -/
def CreateFails (m : Machine) : Prop :=
  (avmfAlloc m sizeofThreadState .kernel (pagePresent ||| pageRw)).virt = 0 ∨
    (avmfAlloc (avmfAlloc m sizeofThreadState .kernel (pagePresent ||| pageRw)).m threadStackSize
      .kernel (pagePresent ||| pageRw)).virt = 0

instance (m : Machine) : Decidable (CreateFails m) := inferInstanceAs (Decidable (_ ∨ _))

/-! ## A failed push -/

section Failed

variable {s : Queues} {coreIdx entry tid : Nat}

theorem queues_avmfAlloc (s : Queues) (size : Nat) :
    ∃ r, avmfAlloc s.m size .kernel (pagePresent ||| pageRw) = r ∧
      s.avmfAlloc size = (r.virt, { s with
        m := r.m, blocks := if r.virt = 0 then s.blocks else r.virt :: s.blocks }) :=
  ⟨_, rfl, rfl⟩

/-- A failed creation leaves the cores, the threads and the stores as they
    are, and keeps the block of the thread when it was the stack that was
    refused. -/
theorem createThread_failed (h : CreateFails s.m) :
    (createThread s entry tid).1 = 0 ∧
      (createThread s entry tid).2.cores = s.cores ∧
      (createThread s entry tid).2.threads = s.threads ∧
      (createThread s entry tid).2.nullStores = s.nullStores ∧
      (createThread s entry tid).2.blocks
        = if (s.avmfAlloc sizeofThreadState).1 = 0 then s.blocks
          else (s.avmfAlloc sizeofThreadState).1 :: s.blocks := by
  obtain ⟨r, hr, hthread⟩ := queues_avmfAlloc s sizeofThreadState
  unfold CreateFails at h
  rw [hr] at h
  unfold createThread
  rw [hthread]
  dsimp only
  by_cases hnull : r.virt = 0
  · rw [if_pos hnull, if_pos hnull]
    exact ⟨rfl, rfl, rfl, rfl, rfl⟩
  · obtain ⟨k, hk, hstack⟩ := queues_avmfAlloc
      { s with m := r.m, blocks := r.virt :: s.blocks } threadStackSize
    dsimp only at hk
    rw [hk] at h
    have hnone : k.virt = 0 := h.resolve_left hnull
    rw [if_neg hnull, if_neg hnull, hstack]
    dsimp only
    rw [if_pos hnone, if_pos hnone]
    exact ⟨rfl, rfl, rfl, rfl, rfl⟩

/-- The push stores through `NULL` and empties the ready list. -/
theorem pushTo_failed {core : TargetCore} (hidx : ¬ 255 < coreIdx)
    (hcore : s.cores coreIdx = some core) (h : CreateFails s.m) :
    (pushTo s coreIdx entry).nullStores = s.nullStores + 1 ∧
      ((pushTo s coreIdx entry).cores coreIdx).map TargetCore.readyList = some 0 ∧
      (pushTo s coreIdx entry).blocks
        = if (s.avmfAlloc sizeofThreadState).1 = 0 then s.blocks
          else (s.avmfAlloc sizeofThreadState).1 :: s.blocks := by
  have hfailed := @createThread_failed
    (s.setCore coreIdx { core with nextTid := (core.nextTid + 1) % 2 ^ 64 }) entry core.nextTid h
  unfold pushTo
  rw [if_neg hidx]
  simp only [hcore]
  generalize createThread (s.setCore coreIdx
    { core with nextTid := (core.nextTid + 1) % 2 ^ 64 }) entry core.nextTid = r at hfailed ⊢
  obtain ⟨hnull, -, -, hstores, hblocks⟩ := hfailed
  have hlinked : ((r.2.setNext r.1 core.readyList).setCore coreIdx
      { core with nextTid := (core.nextTid + 1) % 2 ^ 64, readyList := r.1 }).nullStores
        = s.nullStores + 1 := by
    show (if r.1 = 0 then r.2.nullStores + 1 else r.2.nullStores) = s.nullStores + 1
    rw [if_pos hnull, hstores]
    rfl
  have hlist : (((r.2.setNext r.1 core.readyList).setCore coreIdx
      { core with nextTid := (core.nextTid + 1) % 2 ^ 64, readyList := r.1 }).cores coreIdx).map
        TargetCore.readyList = some 0 := by
    show (Function.update r.2.cores coreIdx _ coreIdx).map TargetCore.readyList = some 0
    rw [Function.update_self, Option.map_some, hnull]
  split
  · exact ⟨hlinked, hlist, hblocks⟩
  · exact ⟨hlinked, hlist, hblocks⟩

theorem pushTo_loses {core : TargetCore} (hidx : ¬ 255 < coreIdx)
    (hcore : s.cores coreIdx = some core) (h : CreateFails s.m) :
    ¬ LosesNothing s (pushTo s coreIdx entry) coreIdx := by
  intro hkept
  have hstores := hkept.stores
  rw [(pushTo_failed hidx hcore h).1] at hstores
  omega

end Failed

/-- No failed push loses nothing. -/
theorem failed_push_loses {s : Queues} (hfails : CreateFails s.m) (entry : Nat) :
    (∀ coreIdx core, coreIdx ≤ 255 → s.cores coreIdx = some core →
      ¬ LosesNothing s (smpPushTask s coreIdx entry) coreIdx) ∧
    (∀ core, s.bspCoreIdx ≤ 255 → s.cores s.bspCoreIdx = some core →
      ¬ LosesNothing s (smpPushTaskBsp s entry) s.bspCoreIdx) :=
  ⟨fun _ _ hidx hcore => pushTo_loses (Nat.not_lt.mpr hidx) hcore hfails,
    fun _ hidx hcore => pushTo_loses (Nat.not_lt.mpr hidx) hcore hfails⟩

/-- Core 0 with two threads queued, and no page left. -/
def twoQueued : Queues :=
  { m := exhaustedMachine
    cores := fun i => if i = 0 then some { readyList := 0x1000, nextTid := 2 } else none
    threads := fun t => if t = 0x1000 then { next := 0x2000 } else {} }

theorem failed_push_loses_queue :
    ¬ LosesNothing twoQueued (smpPushTask twoQueued 0 0x400000) 0 ∧
      ¬ LosesNothing twoQueued (smpPushTaskBsp twoQueued 0x400000) 0 := by
  obtain ⟨htask, hbsp⟩ := @failed_push_loses twoQueued (by decide +kernel) 0x400000
  exact ⟨htask 0 { readyList := 0x1000, nextTid := 2 } (by decide) rfl,
    hbsp { readyList := 0x1000, nextTid := 2 } (by decide) rfl⟩

/-- The push without a page left: the queue is empty, both threads are lost,
    and page 0 was written. -/
theorem push_drops_queue :
    CreateFails twoQueued.m ∧
      Queued twoQueued { readyList := 0x1000, nextTid := 2 } 0x2000 ∧
      ((smpPushTask twoQueued 0 0x400000).cores 0).map TargetCore.readyList = some 0 ∧
      (smpPushTask twoQueued 0 0x400000).nullStores = 1 ∧
      ¬ LosesNothing twoQueued (smpPushTask twoQueued 0 0x400000) 0 := by
  have hfails : CreateFails twoQueued.m := by decide +kernel
  have hcore : twoQueued.cores 0 = some { readyList := 0x1000, nextTid := 2 } := rfl
  obtain ⟨hstores, hlist, -⟩ := @pushTo_failed twoQueued 0 0x400000 _ (by decide) hcore hfails
  refine ⟨hfails, ?_, hlist, hstores, pushTo_loses (by decide) hcore hfails⟩
  have hfirst : Queued twoQueued { readyList := 0x1000, nextTid := 2 } 0x1000 :=
    .head (by decide)
  exact .next hfirst (by decide)

end Pfi
