import Pfi.Words
import Pfi.Run
import Pfi.Linked
import Pfi.LockOrder
import Pfi.RadixTable
import Pfi.FirstFit
import Pfi.Walk
import Pfi.Avmf
import Pfi.AvmfProofs
import Pfi.Pager
import Pfi.PagerTables
import Pfi.Memory
import Pfi.PagerMap
import Pfi.PagerHistory
import Pfi.PagerRange
import Pfi.PagerSafety
import Pfi.Regions
import Pfi.VirtSpaces
import Pfi.RegionRaces
import Pfi.VirtRaces
import Pfi.Ownership
import Pfi.MemoryRuns
import Pfi.AvmfRuns
import Pfi.BitmapBounds
import Pfi.Reinit
import Pfi.StaleRegions
import Pfi.RoundTrip
import Pfi.PhysSearch
import Pfi.FailedAllocs
import Pfi.PagerInit
import Pfi.Supply
import Pfi.Exhaustion
import Pfi.FirmwareReach
import Pfi.DirectMap
import Pfi.Agreement
import Pfi.AgreementRuns
import Pfi.TableAccess
import Pfi.Served
import Pfi.Cycles
import Pfi.KernelBlocks
import Pfi.Usable
import Pfi.StaleMappings
import Pfi.Heap
import Pfi.FirmwareWindows
import Pfi.MemoryBytes
import Pfi.HeapLinks
import Pfi.HeapLinkRuns
import Pfi.HeapBlocks
import Pfi.LinkStates
import Pfi.Realloc
import Pfi.BlockStore
import Pfi.HeapStore
import Pfi.HeapClients
import Pfi.ConcurrentMaps
import Pfi.Smp
import Pfi.SmpProofs
import Pfi.Wakeup
import Pfi.Reservation
import Pfi.ApBoot
import Pfi.FirmwareLocks
import Pfi.SpinLock
import Pfi.FirmwareSpins
import Pfi.Acpi
import Pfi.Madt
import Pfi.Ecam
import Pfi.FirstMatch
import Pfi.RegionCache
import Pfi.Remap
import Pfi.Rights
import Pfi.HugePages
import Pfi.EffectiveRights
import Pfi.Unmapping
import Pfi.DestroyTable
import Pfi.PushTask
import Pfi.YieldOrder
import Pfi.ThreadIds
import Pfi.CoreTable
import Pfi.Rsdp
import Pfi.MadtIds
import Pfi.RootTables
import Pfi.PmTimer
import Pfi.Mcfg
import Pfi.ByteStore
import Pfi.ContextSwitch
import Pfi.Idt
import Pfi.Interrupts
import Pfi.InterruptedThreads
import Pfi.Leftover
import Pfi.CalmBoot
import Pfi.LiveCores
import Pfi.ConfigSpace
import Pfi.DeviceSearch
import Pfi.StringOps
import Pfi.Builtins
import Pfi.ModuleTable
import Pfi.DriverBinding
import Pfi.E820Table
import Pfi.ByteStrings
import Pfi.Ata
import Pfi.AtaStatus
import Pfi.AtaDisk
import Pfi.BootTables
import Pfi.Serial
import Pfi.Vmem
import Pfi.Ps2
import Pfi.Numerals
import Pfi.IntegerText
import Pfi.Format
import Pfi.TextPaths
import Pfi.Sections
import Pfi.SerialCores
import Pfi.LockedObject
import Pfi.ScreenCores
import Pfi.StrToUint
