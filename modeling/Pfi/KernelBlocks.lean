import Pfi.Served

/-! # The two maps of kernel memory

    Blocks of the system types, allocated and freed after `pager_init`: what
    the processor's walk gives for an address is what `avmf_virt_to_phys`
    gives (`walk_eq_virtToPhys`). -/

namespace Pfi

open Words RadixTable Run

/-- `PAGE_PRESENT` with any of `PAGE_RW`, `PAGE_PWT`, `PAGE_PCD` and
    `PAGE_GLOBAL`. -/
def DataFlags (flags : Nat) : Prop :=
  flags &&& pagePresent ≠ 0 ∧
    flags &&& (pagePresent ||| pageRw ||| pagePwt ||| pagePcd ||| pageGlobal) = flags

instance (flags : Nat) : Decidable (DataFlags flags) := inferInstanceAs (Decidable (_ ∧ _))

/-- Pages of data are no large pages. -/
theorem DataFlags.not_huge {flags : Nat} (h : DataFlags flags) : flags &&& pageHuge = 0 := by
  rw [← h.2, Nat.and_assoc,
    show (pagePresent ||| pageRw ||| pagePwt ||| pagePcd ||| pageGlobal) &&& pageHuge = 0 from
      by decide, Nat.and_zero]

/-- An allocation of a system type with data flags, or a free. -/
def MemOp.Kernel : MemOp → Prop
  | .alloc _ type flags =>
      (type = .kernel ∨ type = .driver ∨ type = .sensitive) ∧ DataFlags flags
  | .free _ => True

instance : (op : MemOp) → Decidable op.Kernel
  | .alloc _ _ _ => inferInstanceAs (Decidable (_ ∧ _))
  | .free _ => isTrue trivial

/-- A call of the kernel's is regular in any state. -/
theorem MemOp.Kernel.regular {op : MemOp} (h : op.Kernel) (s : Sys) : s.Regular op := by
  cases op with
  | alloc size type flags =>
      obtain ⟨htype, hflags⟩ := h
      refine ⟨hflags.not_huge, fun hu => ?_⟩
      rw [hu] at htype
      rcases htype with hc | hc | hc
      · cases hc
      · cases hc
      · cases hc
  | free virt => exact trivial

/-- In every run of allocations of the system types and frees of live blocks
    after `pager_init` in which no heap wraps and every page table is granted,
    the processor's walk of each address of a live block is what
    `avmf_virt_to_phys` gives, the block's physical base plus the offset. -/
theorem walk_eq_virtToPhys {mem : Nat → Fin 512 → Nat} {e820 : List E820Entry}
    {bits retries : Nat} {m : Machine} {ops : List MemOp}
    (hmap : E820Ok e820 bits (2 ^ 45)) (hbits : 32 ≤ bits ∧ bits ≤ 52)
    (hram : RamBelow e820 (2 ^ bits))
    (hres : pagerInit (bootMachine mem) e820 bits retries = some m)
    (hkernel : ∀ op ∈ ops, op.Kernel)
    (hvalid : Along Sys.step Sys.Valid { m := m } ops)
    (hgranted : (exec Sys.step { m := m } ops).Granted) :
    ∀ b ∈ (exec Sys.step { m := m } ops).live, ∀ o, o < b.size →
      ((exec Sys.step { m := m } ops).m.translate (b.virt + o)).map Prod.fst
          = some (avmfVirtToPhys (exec Sys.step { m := m } ops).m.avmf (b.virt + o)).1 ∧
        (avmfVirtToPhys (exec Sys.step { m := m } ops).m.avmf (b.virt + o)).1 = b.phys + o := by
  have hstart := (along_of_final granted_back hgranted).1
  have hregular : Along Sys.step Sys.Regular { m := m } ops :=
    along_of_forall (fun op hop s => (hkernel op hop).regular s)
  have hok := ok_exec (pagerInit_ok hmap hbits hram hres hstart) hvalid hregular hgranted
  intro b hb o ho
  have hphys := hok.virtToPhys hb ho
  exact ⟨by rw [hphys]; exact hok.agrees.translate hb ho, hphys⟩

/-- One page of kernel memory on the small map. -/
theorem walk_eq_virtToPhys_page :
    ∃ m, pagerInit (bootMachine (fun _ _ => 0)) lowE820 36 1 = some m ∧
      (exec Sys.step { m := m } [.alloc 4096 .kernel 3]).live.map Block.virt
        = [aosKernelSpaceBase] ∧
      ∀ b ∈ (exec Sys.step { m := m } [.alloc 4096 .kernel 3]).live, ∀ o, o < b.size →
        ((exec Sys.step { m := m } [.alloc 4096 .kernel 3]).m.translate (b.virt + o)).map Prod.fst
            = some (avmfVirtToPhys (exec Sys.step { m := m } [.alloc 4096 .kernel 3]).m.avmf
                (b.virt + o)).1 ∧
          (avmfVirtToPhys (exec Sys.step { m := m } [.alloc 4096 .kernel 3]).m.avmf
              (b.virt + o)).1 = b.phys + o := by
  obtain ⟨m, g, hres, h⟩ := lowE820_fresh (fun _ _ => 0)
  obtain ⟨hlive, hfinal⟩ := h.allocated (k := 1) Nat.one_pos (by decide) (by decide)
    .kernel 3 (by decide)
  rw [Nat.mul_one] at hlive hfinal
  refine ⟨m, hres, ?_, walk_eq_virtToPhys lowE820_ok (by decide) (by decide) hres ?_ ?_ hfinal⟩
  · rw [exec_cons, exec_nil, hlive]
    rfl
  · intro op hop
    rw [List.mem_singleton.mp hop]
    decide
  · exact ⟨⟨by decide, by decide⟩, trivial⟩

end Pfi
