import Mathlib.Algebra.Order.Group.Nat
import Pfi.LockOrder

/-! # The locks of the firmware

    The lock skeletons of the functions that the firmware offers to its
    modules, and of what they call.  A lock is nested in another only where a
    formatter prints through a smaller one, where the video console follows
    the serial one, and where an error is printed with a lock held.  All of
    it follows one order: the video locks, the locks of a core, the locks of
    the allocator, and the serial locks last.

    A branch on data is a `choice` and a loop a `loop`, so that the
    skeletons have at least the runs of the functions.  A core that switches
    threads in `smp_yield` goes on with another call, and the iterations of
    the dispatch loop are calls of their own. -/

namespace Pfi.Locks

open LockOrder Run

/-- The spin locks.  `boot_lock` and `serial_lock` are taken by `smp_init`
    and `serial_init` only. -/
inductive Lock where
  | vmemf
  | vmem
  | vmemc
  | vmemCur
  | command (core : Nat)
  | queue (core : Nat)
  | avmf
  | avmf2
  | serialf
  | serialp
  | serialc
  | acpi
  | ata
  | ps2
deriving DecidableEq

/-- The order of the locks. -/
def Lock.rank : Lock → Nat
  | .vmemf => 0
  | .vmem => 1
  | .vmemc => 2
  | .vmemCur => 3
  | .command _ => 4
  | .queue _ => 5
  | .avmf => 6
  | .avmf2 => 7
  | .serialf => 8
  | .serialp => 9
  | .serialc => 10
  | .acpi => 11
  | .ata => 12
  | .ps2 => 13

/-! ## The serial port -/

/-- The transmitter is polled and written under one lock. -/
def serialPrintc : Prog Lock :=
  .acquire .serialc >> .loop .skip >> .release .serialc

/-- The characters of a string; a line feed is sent behind a carriage return. -/
def serialPrint : Prog Lock :=
  .acquire .serialp >> .loop (.choice serialPrintc .skip >> serialPrintc) >> .release .serialp

/-- The padding, the sign and the digits of a number, with the `printc` of
    the console. -/
def printExInteger (printc : Prog Lock) : Prog Lock :=
  .choice (.choice (.choice printc .skip >> .loop printc) (.loop printc)) .skip >>
    .choice printc .skip >> .loop printc

/-- `print_ex_integer` of the serial port. -/
def serialPrintExInteger : Prog Lock := printExInteger serialPrintc

/-- The characters of a format and its conversions.  Both consoles print the
    `0x` of a pointer with `serial_print`. -/
def printFormat (printc print printExInteger : Prog Lock) : Prog Lock :=
  .loop (.choice printc (.choice print (.choice printExInteger
    (.choice serialPrint .skip >> printExInteger))))

/-- The whole format is printed under one lock. -/
def serialPrintf : Prog Lock :=
  .acquire .serialf >> printFormat serialPrintc serialPrint serialPrintExInteger >>
    .release .serialf

/-! ## The video memory -/

/-- Four writes to the display controller. -/
def vmemSetCursor : Prog Lock := .acquire .vmemCur >> .release .vmemCur

/-- Two writes to the display controller. -/
def vmemDisableCursor : Prog Lock := .acquire .vmemCur >> .release .vmemCur

/-- Every cell of the text buffer. -/
def vmemClearScreen : Prog Lock := .acquire .vmem >> .loop .skip >> .release .vmem

/-- The lock is released before the cursor is set. -/
def vmemPrintc : Prog Lock :=
  .acquire .vmemc >>
    .choice (.release .vmemc >> vmemSetCursor >> .choice serialPrintc .skip)
      (.release .vmemc >> vmemSetCursor >> .choice serialPrintc .skip)

/-- The characters of a string. -/
def vmemPrint : Prog Lock := .acquire .vmem >> .loop vmemPrintc >> .release .vmem

/-- `print_ex_integer` of the video console. -/
def vmemPrintExInteger : Prog Lock := printExInteger vmemPrintc

/-- The formatter of the video console. -/
def vmemPrintf : Prog Lock :=
  .acquire .vmemf >> printFormat vmemPrintc vmemPrint vmemPrintExInteger >> .release .vmemf

/-- Rows are copied without a lock. -/
def vmemScrollUp : Prog Lock := .loop .skip

/-! ## The allocator -/

/-- A function that looks a region up without a lock and prints when there is
    none. -/
def lookupOr (found : Prog Lock) : Prog Lock := .loop .skip >> .choice serialPrint found

/-- The list is searched without a lock. -/
def avmfFind : Prog Lock := .loop .skip

/-- An address of the direct map is not looked up. -/
def avmfVirtToPhys : Prog Lock := .choice .skip (lookupOr .skip)

/-- The list is searched for the physical address. -/
def avmfPhysToVirt : Prog Lock := lookupOr .skip

/-- The lock is held when the search fails and the failure is printed. -/
def avmfAllocPhysContiguous : Prog Lock :=
  .acquire .avmf >>
    .choice (.release .avmf)
      (.loop .skip >> .choice (.release .avmf) (serialPrintf >> .release .avmf))

/-- An unknown type and an exhausted heap are reported before the lock is taken. -/
def avmfAllocVirt : Prog Lock :=
  .choice serialPrint (.choice serialPrintf (.acquire .avmf >> .release .avmf))

/-- The last header is found without a lock; a full table takes none. -/
def avmfAllocRegion : Prog Lock :=
  .loop .skip >> .choice .skip (.acquire .avmf2 >> .release .avmf2)

/-- A page, an address, a header, and the page is cleared. -/
def allocPageTable : Prog Lock :=
  avmfAllocPhysContiguous >> avmfAllocVirt >>
    .choice serialPrint (avmfAllocRegion >> .choice serialPrint (.loop .skip))

/-- The three levels, each of which may miss. -/
def pagerMap : Prog Lock :=
  .choice serialPrintf
    (.choice allocPageTable .skip >> .choice allocPageTable .skip >>
      .choice allocPageTable .skip)

/-- A call for each page of the range. -/
def pagerMapRange : Prog Lock := .loop pagerMap

/-- The tables are followed, and none is taken. -/
def pagerUnmap : Prog Lock := .skip

/-- An address, pages, a header and the mapping, each with its own locks. -/
def avmfAlloc : Prog Lock :=
  avmfAllocVirt >>
    .choice .skip
      (avmfAllocPhysContiguous >>
        .choice serialPrintf
          (avmfAllocRegion >> .choice serialPrint pagerMapRange))

/-- The block is unmapped with the lock held. -/
def avmfFree : Prog Lock :=
  avmfFind >>
    .choice .skip (.acquire .avmf >> .loop .skip >> pagerUnmap >> .release .avmf)

/-- The pages are given back with the lock held. -/
def avmfFreePhys : Prog Lock :=
  avmfFind >> .choice .skip (.acquire .avmf >> .loop .skip >> .release .avmf)

/-- A region is rewritten under the lock. -/
def avmfMap : Prog Lock := lookupOr (.acquire .avmf >> .release .avmf)

/-- A region is rewritten under the lock. -/
def avmfMapIdentityVirt : Prog Lock := lookupOr (.acquire .avmf >> .release .avmf)

/-- A line for each region. -/
def avmfDebugPrintMap : Prog Lock := .loop serialPrintf

/-! ## The cores -/

/-- The thread and its stack. -/
def createThread : Prog Lock :=
  avmfAlloc >> .choice .skip avmfAlloc

/-- A task queue is changed by one core at a time. -/
def queue (core : Nat) : Prog Lock := .acquire (.queue core) >> .release (.queue core)

/-- The idle thread takes no lock. -/
def smpYield (core : Nat) : Prog Lock := .choice .skip (queue core)

/-- The thread is created before the queue is locked, and reported behind it. -/
def smpPushTask (core : Nat) : Prog Lock :=
  .choice .skip
    (createThread >> queue core >> serialPrintf >> .choice serialPrintf .skip)

/-- As `smpPushTask`, without a report. -/
def smpPushTaskBsp (core : Nat) : Prog Lock :=
  .choice .skip (createThread >> queue core)

/-- The wake-up is reported with the command lock held. -/
def smpReserveCore (core : Nat) : Prog Lock :=
  .choice .skip
    (.acquire (.command core) >> .choice serialPrintf .skip >> .release (.command core))

/-- The same section. -/
def smpUnreserveCore (core : Nat) : Prog Lock := smpReserveCore core

/-- The statuses are read without a lock. -/
def smpGetFirstFreeCore : Prog Lock := .loop .skip

/-- One status is read. -/
def smpGetCoreStatus : Prog Lock := .skip

/-- Every core is told to stop. -/
def smpShutdown : Prog Lock := .loop .skip

/-- The start of `ap_kernel_entry`. -/
def apKernelEntry : Prog Lock :=
  avmfAlloc >> avmfAlloc >> .choice .skip serialPrintf >> .choice .skip serialPrintf >>
    serialPrintf

/-- An iteration of its loop. -/
def dispatch (core : Nat) : Prog Lock :=
  .choice avmfFree (.choice (queue core >> serialPrintf) .skip)

/-! ## The devices -/

/-- A refused command releases the lock as a finished one does. -/
def ataReadSectors : Prog Lock :=
  .acquire .ata >> .loop .skip >> .choice (.release .ata) (.release .ata)

/-- As for reading, with a flush at the end. -/
def ataWriteSectors : Prog Lock :=
  .acquire .ata >> .loop .skip >> .choice (.release .ata) (.loop .skip >> .release .ata)

/-- The controller answers, or the wait for it ends. -/
def isPs2Present : Prog Lock := .acquire .ps2 >> .loop .skip >> .release .ps2

/-- The controller is polled with the lock held. -/
def ps2ReadScan : Prog Lock := .acquire .ps2 >> .loop .skip >> .release .ps2

/-- A scan code, or none. -/
def ps2TryReadScan : Prog Lock :=
  .acquire .ps2 >> .choice (.release .ps2) (.release .ps2)

/-- Each key is echoed after the scan code has been read. -/
def ps2ReadLine : Prog Lock :=
  .loop (ps2ReadScan >>
    .choice .skip (.choice vmemPrintc (vmemSetCursor >> vmemPrintc >> vmemSetCursor)))

/-- An `acpi` getter. -/
def acpiGet : Prog Lock := .acquire .acpi >> .loop .skip >> .release .acpi

/-- The timer, or zero where there is none. -/
def acpiReadTimer : Prog Lock :=
  .acquire .acpi >> .choice (.release .acpi) (.release .acpi)

/-- The timer is read until the time has passed.  The loop may be left after any
    number of turns here; with a timer that stands still the function never
    leaves it, and keeps the lock. -/
def acpiMdelay : Prog Lock := .acquire .acpi >> .loop .skip >> .release .acpi

/-! ## The calls -/

/-- The functions a core calls; `core` is the core whose lock is taken. -/
inductive FirmwareCall where
  | serialIsTransmitEmpty | serialPrintc | serialPrint | serialPrintf
  | vmemSetCursor | vmemDisableCursor | vmemClearScreen | vmemPrintc | vmemPrint | vmemPrintf
  | vmemScrollUp
  | avmfVirtToPhys | avmfPhysToVirt | avmfAllocPhysContiguous | avmfAllocVirt | avmfAlloc
  | avmfAllocRegion | avmfFree | avmfFreePhys | avmfMap | avmfMapIdentityVirt | avmfFind
  | avmfDebugPrintMap
  | ataReadSectors | ataWriteSectors
  | isPs2Present | ps2ReadScan | ps2TryReadScan | ps2ReadLine
  | smpPushTask (core : Nat) | smpPushTaskBsp (core : Nat) | smpYield (core : Nat)
  | smpGetFirstFreeCore | smpGetCoreStatus | smpReserveCore (core : Nat)
  | smpUnreserveCore (core : Nat) | smpTimerHandler | smpIpiHandler | smpShutdown
  | acpiGetMcfg | acpiGetMadt | acpiGetLapicBase | acpiGetApicInfo | acpiReadTimer | acpiMdelay
  | apKernelEntry | dispatch (core : Nat)

/-- The skeleton of each function. -/
def FirmwareCall.locks : FirmwareCall → Prog Lock
  | .serialIsTransmitEmpty => .skip
  | .serialPrintc => Locks.serialPrintc
  | .serialPrint => Locks.serialPrint
  | .serialPrintf => Locks.serialPrintf
  | .vmemSetCursor => Locks.vmemSetCursor
  | .vmemDisableCursor => Locks.vmemDisableCursor
  | .vmemClearScreen => Locks.vmemClearScreen
  | .vmemPrintc => Locks.vmemPrintc
  | .vmemPrint => Locks.vmemPrint
  | .vmemPrintf => Locks.vmemPrintf
  | .vmemScrollUp => Locks.vmemScrollUp
  | .avmfVirtToPhys => Locks.avmfVirtToPhys
  | .avmfPhysToVirt => Locks.avmfPhysToVirt
  | .avmfAllocPhysContiguous => Locks.avmfAllocPhysContiguous
  | .avmfAllocVirt => Locks.avmfAllocVirt
  | .avmfAlloc => Locks.avmfAlloc
  | .avmfAllocRegion => Locks.avmfAllocRegion
  | .avmfFree => Locks.avmfFree
  | .avmfFreePhys => Locks.avmfFreePhys
  | .avmfMap => Locks.avmfMap
  | .avmfMapIdentityVirt => Locks.avmfMapIdentityVirt
  | .avmfFind => Locks.avmfFind
  | .avmfDebugPrintMap => Locks.avmfDebugPrintMap
  | .ataReadSectors => Locks.ataReadSectors
  | .ataWriteSectors => Locks.ataWriteSectors
  | .isPs2Present => Locks.isPs2Present
  | .ps2ReadScan => Locks.ps2ReadScan
  | .ps2TryReadScan => Locks.ps2TryReadScan
  | .ps2ReadLine => Locks.ps2ReadLine
  | .smpPushTask core => Locks.smpPushTask core
  | .smpPushTaskBsp core => Locks.smpPushTaskBsp core
  | .smpYield core => Locks.smpYield core
  | .smpGetFirstFreeCore => Locks.smpGetFirstFreeCore
  | .smpGetCoreStatus => Locks.smpGetCoreStatus
  | .smpReserveCore core => Locks.smpReserveCore core
  | .smpUnreserveCore core => Locks.smpUnreserveCore core
  | .smpTimerHandler => .skip
  | .smpIpiHandler => .skip
  | .smpShutdown => Locks.smpShutdown
  | .acpiGetMcfg => Locks.acpiGet
  | .acpiGetMadt => Locks.acpiGet
  | .acpiGetLapicBase => Locks.acpiGet
  | .acpiGetApicInfo => Locks.acpiGet
  | .acpiReadTimer => Locks.acpiReadTimer
  | .acpiMdelay => Locks.acpiMdelay
  | .apKernelEntry => Locks.apKernelEntry
  | .dispatch core => Locks.dispatch core

/-! ## Every call keeps the order -/

variable {r : Nat}

/-- It takes `serialc_lock` alone. -/
theorem serialPrintc_above : Above Lock.rank 10 serialPrintc :=
  Above.guarded 11 (by decide) (by decide) Above.skip.loop

/-- It takes the lock of a character under its own. -/
theorem serialPrint_above : Above Lock.rank 9 serialPrint :=
  Above.guarded 10 (by decide) (by decide)
    ((serialPrintc_above.choice .skip).seq serialPrintc_above).loop

/-- A number takes what its characters take. -/
theorem printExInteger_above {printc : Prog Lock} (h : Above Lock.rank r printc) :
    Above Lock.rank r (printExInteger printc) :=
  ((((h.choice .skip).seq h.loop).choice h.loop).choice .skip).seq
    ((h.choice .skip).seq h.loop)

/-- A format acquires what the console's own printing acquires, and the lock
    of `serial_print`. -/
theorem printFormat_above {printc print integer : Prog Lock} (hr : r ≤ 9)
    (hc : Above Lock.rank r printc) (hp : Above Lock.rank r print)
    (hi : Above Lock.rank r integer) : Above Lock.rank r (printFormat printc print integer) := by
  have hpointer : Above Lock.rank r (.choice serialPrint .skip >> integer) :=
    ((serialPrint_above.mono hr).choice .skip).seq hi
  exact (hc.choice (hp.choice (hi.choice hpointer))).loop

/-- It takes the locks of `serial_print` and of a character under its own. -/
theorem serialPrintf_above : Above Lock.rank 8 serialPrintf := by
  have hc : Above Lock.rank 9 serialPrintc := serialPrintc_above.mono (by decide)
  exact Above.guarded 9 (by decide) (by decide)
    (printFormat_above (by decide) hc serialPrint_above (printExInteger_above hc))

/-- It takes the cursor's lock alone. -/
theorem vmemSetCursor_above : Above Lock.rank 3 vmemSetCursor :=
  Above.bare (by decide)

/-- The cursor's lock and the serial port's come behind its own. -/
theorem vmemPrintc_above : Above Lock.rank 2 vmemPrintc := by
  have hafter : Above Lock.rank 2 (vmemSetCursor >> .choice serialPrintc .skip) :=
    (vmemSetCursor_above.mono (by decide)).seq
      ((serialPrintc_above.mono (by decide)).choice .skip)
  exact ((Exits.release.andThen hafter).choice (Exits.release.andThen hafter)).enter (by decide)

/-- It takes the lock of a character under its own. -/
theorem vmemPrint_above : Above Lock.rank 1 vmemPrint :=
  Above.guarded 2 (by decide) (by decide) vmemPrintc_above.loop

/-- It takes every lock of the two consoles under its own. -/
theorem vmemPrintf_above : Above Lock.rank 0 vmemPrintf := by
  have hc : Above Lock.rank 1 vmemPrintc := vmemPrintc_above.mono (by decide)
  exact Above.guarded 1 (by decide) (by decide)
    (printFormat_above (by decide) hc vmemPrint_above (printExInteger_above hc))

/-- An error message from the allocator. -/
theorem serialPrintf_above_avmf : Above Lock.rank 6 serialPrintf :=
  serialPrintf_above.mono (by decide)

/-- A message without conversions. -/
theorem serialPrint_above_avmf : Above Lock.rank 6 serialPrint :=
  serialPrint_above.mono (by decide)

/-- The lookup itself takes no lock. -/
theorem lookupOr_above {found : Prog Lock} (h : Above Lock.rank 6 found) :
    Above Lock.rank 6 (lookupOr found) :=
  Above.skip.loop.seq (serialPrint_above_avmf.choice h)

/-- A failure is printed with `avmf_lock` held, and the serial locks come behind
    it. -/
theorem avmfAllocPhysContiguous_above : Above Lock.rank 6 avmfAllocPhysContiguous := by
  have hfail : Exits Lock.rank 6 .avmf (serialPrintf >> .release .avmf) :=
    Exits.release.under 8 (by decide) (by decide) serialPrintf_above
  have hsearch : Exits Lock.rank 6 .avmf
      (.loop .skip >> .choice (.release .avmf) (serialPrintf >> .release .avmf)) :=
    (Exits.release.choice hfail).under 7 (by decide) (by decide) Above.skip.loop
  exact (Exits.release.choice hsearch).enter (by decide)

/-- Nothing is printed with the lock held. -/
theorem avmfAllocVirt_above : Above Lock.rank 6 avmfAllocVirt :=
  serialPrint_above_avmf.choice (serialPrintf_above_avmf.choice (Above.bare (by decide)))

/-- It takes `avmf_lock2` alone. -/
theorem avmfAllocRegion_above : Above Lock.rank 6 avmfAllocRegion :=
  Above.skip.loop.seq (Above.skip.choice (Above.bare (by decide)))

/-- The allocator's locks follow each other. -/
theorem allocPageTable_above : Above Lock.rank 6 allocPageTable :=
  avmfAllocPhysContiguous_above.seq (avmfAllocVirt_above.seq
    (serialPrint_above_avmf.choice
      (avmfAllocRegion_above.seq (serialPrint_above_avmf.choice Above.skip.loop))))

/-- At most three tables, one after the other. -/
theorem pagerMap_above : Above Lock.rank 6 pagerMap := by
  have hlevel : Above Lock.rank 6 (.choice allocPageTable .skip) :=
    allocPageTable_above.choice .skip
  exact serialPrintf_above_avmf.choice (hlevel.seq (hlevel.seq hlevel))

/-- The allocator's locks follow each other. -/
theorem avmfAlloc_above : Above Lock.rank 6 avmfAlloc := by
  have hmap : Above Lock.rank 6 (avmfAllocRegion >> .choice serialPrint pagerMapRange) :=
    avmfAllocRegion_above.seq (serialPrint_above_avmf.choice pagerMap_above.loop)
  exact avmfAllocVirt_above.seq (Above.skip.choice
    (avmfAllocPhysContiguous_above.seq (serialPrintf_above_avmf.choice hmap)))

/-- The block is unmapped without a lock of its own. -/
theorem avmfFree_above : Above Lock.rank 6 avmfFree :=
  Above.skip.loop.seq (Above.skip.choice
    (((Exits.release.under 7 (by decide) (by decide) .skip).under 7 (by decide) (by decide)
      Above.skip.loop).enter (by decide)))

/-- It takes the lock of one queue. -/
theorem queue_above (core : Nat) : Above Lock.rank 5 (queue core) :=
  Above.bare (le_refl _)

/-- The thread is created before the queue is locked. -/
theorem createThread_above : Above Lock.rank 5 createThread := by
  have halloc : Above Lock.rank 5 avmfAlloc := avmfAlloc_above.mono (by decide)
  exact halloc.seq (Above.skip.choice halloc)

/-- The allocator's locks are free again when the queue is locked. -/
theorem smpPushTask_above (core : Nat) : Above Lock.rank 5 (smpPushTask core) := by
  have hprint : Above Lock.rank 5 serialPrintf := serialPrintf_above.mono (by decide)
  exact Above.skip.choice (createThread_above.seq ((queue_above core).seq
    (hprint.seq (hprint.choice .skip))))

/-- The allocator's locks are free again when the queue is locked. -/
theorem smpPushTaskBsp_above (core : Nat) : Above Lock.rank 5 (smpPushTaskBsp core) :=
  Above.skip.choice (createThread_above.seq (queue_above core))

/-- The serial locks come behind the lock of a core. -/
theorem smpReserveCore_above (core : Nat) : Above Lock.rank 4 (smpReserveCore core) :=
  Above.skip.choice (Above.guarded 8 (le_refl _) (by simp [Lock.rank])
    (serialPrintf_above.choice .skip))

/-- Two blocks and three messages, one after the other. -/
theorem apKernelEntry_above : Above Lock.rank 6 apKernelEntry :=
  avmfAlloc_above.seq (avmfAlloc_above.seq
    ((Above.skip.choice serialPrintf_above_avmf).seq
      ((Above.skip.choice serialPrintf_above_avmf).seq serialPrintf_above_avmf)))

/-- A stack is freed, or a task is taken and reported. -/
theorem dispatch_above (core : Nat) : Above Lock.rank 5 (dispatch core) :=
  (avmfFree_above.mono (by decide)).choice
    (((queue_above core).seq (serialPrintf_above.mono (by decide))).choice .skip)

/-- It takes `ps2_lock` alone. -/
theorem ps2ReadScan_above : Above Lock.rank 13 ps2ReadScan :=
  Above.guarded 14 (by decide) (by decide) Above.skip.loop

/-- A key is echoed with `ps2_lock` free. -/
theorem ps2ReadLine_above : Above Lock.rank 2 ps2ReadLine := by
  have hcursor : Above Lock.rank 2 vmemSetCursor := vmemSetCursor_above.mono (by decide)
  exact ((ps2ReadScan_above.mono (by decide)).seq (Above.skip.choice
    (vmemPrintc_above.choice (hcursor.seq (vmemPrintc_above.seq hcursor))))).loop

/-- The calls that take one lock. -/
theorem single_above {l : Lock} {p : Prog Lock} (h : Exits Lock.rank 0 l p) :
    Above Lock.rank 0 (.acquire l >> p) :=
  h.enter (Nat.zero_le _)

/-- Every function keeps the order of the locks. -/
theorem FirmwareCall.locks_above (f : FirmwareCall) : Above Lock.rank 0 f.locks := by
  have hskip : Above Lock.rank 14 (.loop .skip) := Above.skip.loop
  -- a section under `ata`, `ps2` or `acpi`, in which no lock is taken
  have hloop : ∀ l : Lock, l.rank < 14 → ∀ p, Exits Lock.rank 0 l p →
      Above Lock.rank 0 (.acquire l >> .loop .skip >> p) :=
    fun l hl p hp => single_above (hp.under 14 (Nat.zero_le _) hl hskip)
  cases f with
  | serialIsTransmitEmpty => exact .skip
  | serialPrintc => exact serialPrintc_above.mono (by decide)
  | serialPrint => exact serialPrint_above.mono (by decide)
  | serialPrintf => exact serialPrintf_above.mono (by decide)
  | vmemSetCursor => exact vmemSetCursor_above.mono (by decide)
  | vmemDisableCursor => exact Above.bare (by decide)
  | vmemClearScreen => exact hloop .vmem (by decide) _ .release
  | vmemPrintc => exact vmemPrintc_above.mono (by decide)
  | vmemPrint => exact vmemPrint_above.mono (by decide)
  | vmemPrintf => exact vmemPrintf_above
  | vmemScrollUp => exact Above.skip.loop
  | avmfVirtToPhys => exact Above.skip.choice ((lookupOr_above .skip).mono (by decide))
  | avmfPhysToVirt => exact (lookupOr_above .skip).mono (by decide)
  | avmfAllocPhysContiguous => exact avmfAllocPhysContiguous_above.mono (by decide)
  | avmfAllocVirt => exact avmfAllocVirt_above.mono (by decide)
  | avmfAlloc => exact avmfAlloc_above.mono (by decide)
  | avmfAllocRegion => exact avmfAllocRegion_above.mono (by decide)
  | avmfFree => exact avmfFree_above.mono (by decide)
  | avmfFreePhys =>
      exact Above.skip.loop.seq (Above.skip.choice (hloop .avmf (by decide) _ .release))
  | avmfMap => exact (lookupOr_above (Above.bare (by decide))).mono (by decide)
  | avmfMapIdentityVirt => exact (lookupOr_above (Above.bare (by decide))).mono (by decide)
  | avmfFind => exact Above.skip.loop
  | avmfDebugPrintMap => exact (serialPrintf_above.mono (by decide)).loop
  | ataReadSectors => exact hloop .ata (by decide) _ (Exits.release.choice .release)
  | ataWriteSectors =>
      exact hloop .ata (by decide) _
        (Exits.release.choice (Exits.release.under 14 (by decide) (by decide) hskip))
  | isPs2Present => exact hloop .ps2 (by decide) _ .release
  | ps2ReadScan => exact ps2ReadScan_above.mono (by decide)
  | ps2TryReadScan => exact single_above (Exits.release.choice .release)
  | ps2ReadLine => exact ps2ReadLine_above.mono (by decide)
  | smpPushTask core => exact (smpPushTask_above core).mono (by decide)
  | smpPushTaskBsp core => exact (smpPushTaskBsp_above core).mono (by decide)
  | smpYield core => exact Above.skip.choice ((queue_above core).mono (by decide))
  | smpGetFirstFreeCore => exact Above.skip.loop
  | smpGetCoreStatus => exact .skip
  | smpReserveCore core => exact (smpReserveCore_above core).mono (by decide)
  | smpUnreserveCore core => exact (smpReserveCore_above core).mono (by decide)
  | smpTimerHandler => exact .skip
  | smpIpiHandler => exact .skip
  | smpShutdown => exact Above.skip.loop
  | acpiGetMcfg => exact hloop .acpi (by decide) _ .release
  | acpiGetMadt => exact hloop .acpi (by decide) _ .release
  | acpiGetLapicBase => exact hloop .acpi (by decide) _ .release
  | acpiGetApicInfo => exact hloop .acpi (by decide) _ .release
  | acpiReadTimer => exact single_above (Exits.release.choice .release)
  | acpiMdelay => exact hloop .acpi (by decide) _ .release
  | apKernelEntry => exact apKernelEntry_above.mono (by decide)
  | dispatch core => exact (dispatch_above core).mono (by decide)

/-- The programs that the cores run: those of the functions above, the `*_init`
    functions excepted, which run before the other cores do and of which
    `acpi_init` can end with `acpi_lock` held. -/
def IsCall (p : Prog Lock) : Prop := ∃ f : FirmwareCall, p = f.locks

section Cores

variable {C : Type} [DecidableEq C]

/-- Whatever the cores call, in any number and however they are interleaved:
    no core waits for itself or in a cycle, and every lock that a core
    acquires is above all that it holds. -/
theorem no_deadlock {s : State Lock C} (h : Runs IsCall s) (c : C) :
    ¬ Relation.TransGen s.WaitsFor c c ∧
      ∀ l m, s.Wants c l → s.held m = some c → m.rank < l.rank := by
  have hcalls : ∀ p, IsCall p → Above Lock.rank 0 p := by
    rintro p ⟨f, rfl⟩
    exact f.locks_above
  have hs := h.disciplined hcalls
  exact ⟨hs.not_waits_cycle c, fun _ _ hl hm => hs.held_lt hl hm⟩

end Cores

/-- Core 1 waits for the transmitter that core 0 holds. -/
theorem no_deadlock_serial :
    ∃ s : State Lock (Fin 2), Runs IsCall s ∧ s.WaitsFor 1 0 ∧
      ¬ Relation.TransGen s.WaitsFor 1 1 := by
  have hprint : IsCall serialPrintc := ⟨.serialPrintc, rfl⟩
  have h1 : Runs IsCall (({} : State Lock (Fin 2)).goOn 0 [serialPrintc]) :=
    Reachable.step (.start rfl) (.call rfl hprint)
  have h2 := Reachable.step h1 (Step.seq (c := 0) rfl)
  have h3 := Reachable.step h2 (Step.acquire (c := 0) rfl rfl)
  have h4 := Reachable.step h3 (Step.call (c := 1) rfl hprint)
  have h5 := Reachable.step h4 (Step.seq (c := 1) rfl)
  exact ⟨_, h5, ⟨.serialc, ⟨_, rfl⟩, rfl⟩, (no_deadlock h5 1).1⟩

end Pfi.Locks
