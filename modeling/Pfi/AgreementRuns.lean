import Pfi.Agreement
import Pfi.FirmwareReach

/-! # Runs from the state that `pager_init` leaves

    `Sys.Ok` joins ownership and agreement.  A run of allocations and frees of
    live blocks keeps it as long as no heap wraps and every page table is
    granted (`ok_exec`), and `pager_init` leaves it (`pagerInit_ok`).  So the
    two maps of a live block agree in every state of such a run
    (`walk_eq_virtToPhys`). -/

namespace Pfi

open Words RadixTable Run

/-! ## Runs -/

/-- An allocation that does not itself ask for 2 MiB leaves, and of a clear
    range if it is a user one. -/
def Sys.Regular (s : Sys) : MemOp → Prop
  | .alloc size type flags =>
      flags &&& pageHuge = 0 ∧ (type = .user → UserClear s.m.avmf size)
  | .free _ => True

instance (s : Sys) : (op : MemOp) → Decidable (s.Regular op)
  | .alloc _ _ _ => inferInstanceAs (Decidable (_ ∧ _))
  | .free _ => isTrue trivial

/-- No sum of `avmf_alloc_virt` has wrapped and every page table was
    granted. -/
def Sys.Granted (s : Sys) : Prop := s.m.avmf.wrapped = false ∧ TablesGranted s.m

instance (s : Sys) : Decidable s.Granted := inferInstanceAs (Decidable (_ ∧ _))

theorem granted_back (s : Sys) (op : MemOp) (h : (s.step op).Granted) : s.Granted := by
  refine ⟨wrapped_back s op h.1, ?_⟩
  cases op with
  | alloc size type flags => exact h.2.of_mono (fun x hx => avmfAlloc_log_mono hx)
  | free virt =>
      have hlog := h.2
      simp only [Sys.step] at hlog
      unfold TablesGranted at hlog
      rw [(avmfFree_allocator s.m virt).2.2.2.2] at hlog
      exact hlog

/-- The joint invariant of a system. -/
structure Sys.Ok (s : Sys) : Prop where
  owned : Owned s.m.avmf s.m.tableLog s.live
  agrees : Agrees s.m s.live

/-- An allocation of any size, whether it succeeds or not. -/
theorem Sys.Ok.alloc {s : Sys} {size flags : Nat} {type : MemoryAllocType} (h : s.Ok)
    (ht : type ≠ .unknown) (hflags : flags &&& pageHuge = 0)
    (hclear : (avmfAlloc s.m size type flags).virt ≠ 0 → type = .user → UserClear s.m.avmf size)
    (hgranted : (s.step (.alloc size type flags)).Granted) :
    (s.step (.alloc size type flags)).Ok := by
  rw [and_huge] at hflags
  exact ⟨avmfAlloc_owned ht (fun _ => h.owned) hgranted.1,
    agrees_alloc ht (by omega) hclear h.owned h.agrees hgranted.1 hgranted.2⟩

theorem ok_step {s : Sys} {op : MemOp} (h : s.Ok) (hvalid : s.Valid op)
    (hregular : s.Regular op) (hgranted : (s.step op).Granted) : (s.step op).Ok := by
  cases op with
  | alloc size type flags => exact h.alloc hvalid.2 hregular.1 (fun _ => hregular.2) hgranted
  | free virt =>
      have hlog := (granted_back s (.free virt) hgranted).2
      refine ⟨owned_step (fun _ => h.owned) hvalid hgranted.1, ?_⟩
      obtain ⟨b, hb, rfl⟩ := hvalid
      simp only [Sys.step]
      exact agrees_free h.owned h.agrees hlog hb

theorem ok_exec {s : Sys} {ops : List MemOp} (h : s.Ok)
    (hvalid : Along Sys.step Sys.Valid s ops) (hregular : Along Sys.step Sys.Regular s ops)
    (hgranted : (exec Sys.step s ops).Granted) : (exec Sys.step s ops).Ok := by
  have hall := (along_of_final granted_back hgranted).2
  exact invariant (I := Sys.Ok) (fun s op hok hc => ok_step hok hc.1.1 hc.1.2 hc.2) h
    ((hvalid.and hregular).and hall)

/-! ## From the state that `pager_init` leaves -/

/-- The RAM of a memory map lies below a bound. -/
def RamBelow (e820 : List E820Entry) (bound : Nat) : Prop :=
  ∀ e ∈ e820, e.type = e820TypeRam → e.base + e.len ≤ bound

instance (e820 : List E820Entry) (bound : Nat) : Decidable (RamBelow e820 bound) :=
  inferInstanceAs (Decidable (∀ e ∈ e820, _))

theorem ramRanges_limit {e820 : List E820Entry} {bound : Nat} (h : RamBelow e820 bound)
    (i : Nat) : ((ramRanges e820).getD i (0, 0)).2 ≤ bound := by
  rcases Nat.lt_or_ge i (ramRanges e820).length with hi | hi
  · rw [List.getD_eq_getElem _ _ hi]
    have hmem := List.getElem_mem hi
    generalize (ramRanges e820)[i] = r at hmem ⊢
    unfold ramRanges at hmem
    obtain ⟨e, he, rfl⟩ := List.mem_map.mp hmem
    obtain ⟨hmem', hram⟩ := List.mem_filter.mp he
    rw [decide_eq_true_eq] at hram
    exact Nat.le_trans (Nat.mod_le _ _) (h e hmem' hram.2)
  · rw [List.getD_eq_default _ _ hi]
    exact Nat.zero_le _

section Init

variable {mem : Nat → Fin 512 → Nat} {e820 : List E820Entry} {bits retries : Nat} {m : Machine}

/-- The ranges that `pager_init` configures lie below the bound of the RAM. -/
theorem pagerInit_limits {bound : Nat} (hram : RamBelow e820 bound)
    (hres : pagerInit (bootMachine mem) e820 bits retries = some m) (i : Nat) :
    m.avmf.avmfLimit i ≤ bound := by
  rw [(started_ranges (pagerInit_started hres)).limit]
  unfold avmfInit
  dsimp only
  generalize (if (ramRanges e820).length % 256 ≤ 128 then (ramRanges e820).length % 256
    else 128) = ent
  split
  · exact ramRanges_limit hram i
  · exact Nat.zero_le _

/-- What `pager_init` leaves is the start of a run. -/
theorem pagerInit_ok (hmap : E820Ok e820 bits (2 ^ 45)) (hbits : 32 ≤ bits ∧ bits ≤ 52)
    (hram : RamBelow e820 (2 ^ bits))
    (hres : pagerInit (bootMachine mem) e820 bits retries = some m)
    (hgranted : Sys.Granted { m := m }) : Sys.Ok { m := m } := by
  have hdone := pagerInit_done hmap (by decide) hbits hres hgranted.2
  refine ⟨(pagerInit_started hres).avmf_wrapped_owned hgranted.1, hdone.tables.ok, ?_,
    hdone.mapped, hdone.root, ?_, ?_, ?_, ?_⟩
  · exact hdone.tables.bits.2
  · intro i
    show m.avmf.avmfLimit i ≤ 2 ^ m.cpuPhysBits
    rw [hdone.cpuBits]
    exact pagerInit_limits hram hres i
  · intro n hn
    rcases hdone.tables.huge n hn with hd | hd
    · exact Or.inl hd
    · exact Or.inr (Or.inl hd)
  · exact fun b hb => nomatch hb
  · exact fun b hb => nomatch hb

end Init

/-! ## The two maps -/

section Maps

variable {m : Machine} {live : List Block} {b : Block}

/-- The processor finds every address of a live block at its offset in the
    physical block. -/
theorem Agrees.translate (h : Agrees m live) (hb : b ∈ live) {o : Nat} (ho : o < b.size) :
    (m.translate (b.virt + o)).map Prod.fst = some (b.phys + o) := by
  obtain ⟨flags, hargs, hleaves⟩ := h.blocks b hb
  have hplaced := h.placed b hb
  have hvirt := hplaced.virtPage
  have hphys := hplaced.physPage
  have hleaf := @leafAddress_rangeLeaf b.virt _ _ (o / 4096) (b.virt + o) flags
    hargs.physWord (by omega) (by omega)
  rw [show 4096 * (b.phys / 4096 + o / 4096) + (b.virt + o) % 4096 = b.phys + o by omega]
    at hleaf
  have hpage : (b.virt + o) / pageSize = b.virt / 4096 + o / 4096 := by
    simp only [pageSize]
    omega
  unfold Machine.translate hwWalk
  rw [h.root, hpage, hleaves _ (by omega)]
  exact congrArg some hleaf

/-- So does `avmf_virt_to_phys`. -/
theorem Sys.Ok.virtToPhys {s : Sys} (h : s.Ok) (hb : b ∈ s.live) {o : Nat} (ho : o < b.size) :
    (avmfVirtToPhys s.m.avmf (b.virt + o)).1 = b.phys + o := by
  obtain ⟨flags, hargs, -⟩ := h.agrees.blocks b hb
  have hword := hargs.physWord
  have hspace := (h.agrees.placed b hb).space
  obtain ⟨hd, hmem, hvirt, hphys, hsize⟩ := h.owned.recorded b hb
  obtain ⟨j, -, hheader, hfind⟩ := avmfFind_of_mem h.owned.regions hmem (v := b.virt + o)
    ⟨by omega, by omega⟩
  unfold avmfVirtToPhys
  rw [if_neg (by simp only [aosDirectMapBase, aosKernelSpaceBase] at hspace ⊢; omega), hfind]
  have hsame : Avmf.header { s.m.avmf with lastFound := some j } j = hd := hheader
  show add64 (Avmf.header { s.m.avmf with lastFound := some j } j).physAddr
      (b.virt + o - (Avmf.header { s.m.avmf with lastFound := some j } j).virtAddr) = b.phys + o
  rw [hsame, hvirt, hphys, Nat.add_sub_cancel_left, add64_of_lt (by omega)]

end Maps

end Pfi
