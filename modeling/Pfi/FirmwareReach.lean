import Pfi.Supply

/-! # What the firmware can reach after `pager_init`

    `pager_init` loads tables that map the direct map and three windows and
    nothing else.  The page below the boot stack pointer of `entry.asm`,
    0x08000000, is in none of them, on no memory map
    (`firmware_unreachable`): the window for the stack is 0x80000 bytes long.
    The PML4 is reached through `firmware_pml4` just when the allocator
    happened to place it in a window (`pml4_reached_iff`). -/

namespace Pfi

open Words RadixTable Run

/-- `rsp` as `init_pm64` sets it. -/
abbrev bootStack : Nat := 0x08000000

/-- What the firmware uses after `CR3` is loaded: `firmware_pml4`, which
    `pager_map` dereferences unconverted, and the stack it runs on. -/
structure FirmwareReachable (m : Machine) : Prop where
  pml4 : (m.translate m.firmwarePml4).map Prod.fst = some m.cr3
  stack : ∀ a, bootStack - pageSize ≤ a → a < bootStack →
    (m.translate a).map Prod.fst = some a

section Reach

variable {top bits : Nat} {m : Machine}

/-- A low address outside the windows is not mapped. -/
theorem InitDone.unmapped (h : InitDone top bits m) {a : Nat} (hlow : a < 2 ^ 47)
    (hout : ¬ InWindow (4096 * (a / 4096))) : m.translate a = none := by
  have hnone : walkPage m.mem m.root (a / pageSize) = none := by
    by_contra hc
    simp only [pageSize] at hc
    rcases h.tables.pages _ hc with hd | hw
    · unfold DirectPage at hd
      omega
    · rw [Nat.mod_eq_of_lt (by omega)] at hw
      exact hout hw
  unfold Machine.translate hwWalk
  rw [h.root, hnone]
  rfl

/-- The page below the boot stack pointer is not mapped. -/
theorem InitDone.stack_unmapped (h : InitDone top bits m) {a : Nat}
    (hlo : bootStack - pageSize ≤ a) (hhi : a < bootStack) : m.translate a = none := by
  simp only [bootStack, pageSize] at hlo hhi
  refine h.unmapped (by omega) ?_
  unfold InWindow
  omega

/-- The PML4 is reached if and only if it lies in a window. -/
theorem pml4_reached_iff (h : InitDone top bits m) :
    (m.translate m.firmwarePml4).map Prod.fst = some m.cr3 ↔ InWindow m.firmwarePml4 := by
  have hbitmap := (h.tables.ok.owned [] m.root (tableAt_nil 3 m.root)).1
  have hptr := h.pml4
  simp only [bitmapSize] at hbitmap
  constructor
  · intro hreach
    by_contra hout
    have hnone := h.unmapped (a := m.firmwarePml4) (by omega)
      (by rw [show 4096 * (m.firmwarePml4 / 4096) = m.firmwarePml4 by omega]; exact hout)
    rw [hnone] at hreach
    cases hreach
  · intro hin
    have hid := h.tables.identity _ hin
    unfold Machine.translate
    rw [h.root, h.loaded]
    exact hid

end Reach

/-- On no memory map can the firmware reach what it uses. -/
theorem firmware_unreachable {mem : Nat → Fin 512 → Nat} {e820 : List E820Entry}
    {bits retries : Nat} {m : Machine} (hmap : E820Ok e820 bits (2 ^ 47))
    (hbits : 32 ≤ bits ∧ bits ≤ 52)
    (hres : pagerInit (bootMachine mem) e820 bits retries = some m)
    (hlog : TablesGranted m) : ¬ FirmwareReachable m := by
  have hdone := pagerInit_done hmap (Nat.le_refl _) hbits hres hlog
  intro h
  have hstack := h.stack (bootStack - pageSize) (Nat.le_refl _) (by decide)
  rw [hdone.stack_unmapped (Nat.le_refl _) (by decide)] at hstack
  cases hstack

/-- Three megabytes reserved and five megabytes of RAM. -/
def smallE820 : List E820Entry :=
  [⟨0x0, 0x300000, e820TypeReserved⟩, ⟨0x300000, 0x500000, e820TypeRam⟩]

theorem smallE820_ok : E820Ok smallE820 36 (2 ^ 45) := ⟨by decide, by decide, by decide⟩

/-- On the small map `pager_init` succeeds, with pages to spare. -/
theorem smallE820_init (mem : Nat → Fin 512 → Nat) :
    ∃ m, pagerInit (bootMachine mem) smallE820 36 1 = some m ∧ m.tableLog.length ≤ 49 ∧
      Stocked 1000 m.avmf m.tableLog := by
  have hneeded : tablesNeeded smallE820 = 49 := by decide
  obtain ⟨m, hres, hlen, hstock⟩ := pagerInit_succeeds mem 1 smallE820_ok
    (by decide) (by decide) Nat.one_pos
    (supply_init (g := 0x300) (e := 0x800) (N := 1000) (by decide) (by decide) (by decide)
      (by decide) (by decide)) (by rw [hneeded]; decide)
  exact ⟨m, hres, by omega, hstock⟩

theorem firmware_unreachable_small :
    ∃ m, pagerInit (bootMachine (fun _ _ => 0)) smallE820 36 1 = some m ∧
      ¬ FirmwareReachable m := by
  obtain ⟨m, hres, hlen, hstock⟩ := smallE820_init (fun _ _ => 0)
  exact ⟨m, hres, firmware_unreachable ⟨by decide, by decide, by decide⟩ (by decide) hres
    (hstock (by omega)).1⟩

/-- On the map that the firmware builds, neither the word below the stack
    pointer nor any other of its page is mapped. -/
theorem boot_stack_unmapped :
    ∃ m, pagerInit (bootMachine (fun _ _ => 0)) basicE820 36 1 = some m ∧
      m.translate 0x07FFFFF8 = none ∧ ¬ FirmwareReachable m := by
  obtain ⟨m, hres, hlen, hstock⟩ := pagerInit_succeeds (fun _ _ => 0) 1
    basicE820_ok (by decide) (by decide) Nat.one_pos
    (supply_init (g := 0x300) (e := 0x10000) (N := 64000) (by decide) (by decide) (by decide)
      (by decide) (by decide)) (by decide)
  have hneeded : tablesNeeded basicE820 ≤ 64000 := by decide
  have hdone := pagerInit_done basicE820_ok (by decide) (by decide) hres
    (hstock (by omega)).1
  have hnone := hdone.stack_unmapped (a := 0x07FFFFF8) (by decide) (by decide)
  refine ⟨m, hres, hnone, fun h => ?_⟩
  have hstack := h.stack 0x07FFFFF8 (by decide) (by decide)
  rw [hnone] at hstack
  cases hstack

end Pfi
