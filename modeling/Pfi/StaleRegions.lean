import Pfi.MemoryRuns

/-! # Freed regions stay on the list

    `avmf_free` clears pages and unmaps the address, but the header of the
    region keeps its place on the list and in the cache.  A lookup right after
    the free therefore finds it again (`avmfFind_after_free`), so the only
    runs that forget every freed block are those in which no free finds a
    region (`forgotten_iff`). -/

namespace Pfi

open Words Run

/-! ## Runs with arbitrary arguments -/

def memStep (m : Machine) : MemOp → Machine
  | .alloc size type flags => (avmfAlloc m size type flags).m
  | .free virt => avmfFree m virt

/-- `avmf_free` of `virt` releases the block of header `h`. -/
def Releases (m : Machine) (virt : Nat) (h : AvmfHeader) : Prop :=
  ∃ j, (avmfFind m.avmf virt).1 = some j ∧ m.avmf.header j = h

/-- The operation allocates addresses of the block again. -/
def HandsOut (h : AvmfHeader) (m : Machine) : MemOp → Prop
  | .alloc size type flags =>
      let virt := (avmfAlloc m size type flags).virt
      virt ≠ 0 ∧ virt < h.virtAddr + h.size ∧ h.virtAddr < virt + align4k size
  | .free _ => False

instance (h : AvmfHeader) (m : Machine) : (op : MemOp) → Decidable (HandsOut h m op)
  | .alloc _ _ _ => inferInstanceAs (Decidable (_ ∧ _ ∧ _))
  | .free _ => isFalse not_false

/-- No address of the block is found, and freeing one changes neither the
    bitmap nor the page tables. -/
def Forgets (m : Machine) (h : AvmfHeader) : Prop :=
  ∀ x, h.contains x = true → (avmfFind m.avmf x).1 = none ∧
    (avmfFree m x).avmf.avmfBitmap = m.avmf.avmfBitmap ∧ (avmfFree m x).mem = m.mem

/-- Every block that the run releases is forgotten until it is allocated
    again. -/
def Forgotten (m : Machine) (ops : List MemOp) : Prop :=
  ∀ pre virt mid post, ops = pre ++ .free virt :: (mid ++ post) →
    ∀ h, Releases (exec memStep m pre) virt h →
      Along memStep (fun m op => ¬ HandsOut h m op) (exec memStep m (pre ++ [.free virt])) mid →
      Forgets (exec memStep m (pre ++ .free virt :: mid)) h

/-- A free finds no region. -/
def MissesRegions (m : Machine) : MemOp → Prop
  | .alloc _ _ _ => True
  | .free virt => (avmfFind m.avmf virt).1 = none

/-! ## A free leaves the region to be found -/

theorem avmfFind_after_free {m : Machine} {virt j : Nat}
    (hj : (avmfFind m.avmf virt).1 = some j) :
    (avmfFind (avmfFree m virt).avmf virt).1 = some j ∧
      (avmfFree m virt).avmf.header j = m.avmf.header j ∧
      (m.avmf.header j).contains virt = true := by
  rcases avmfFind_cases m.avmf virt with ⟨i, hfind, hc, -⟩ | ⟨hfind, -⟩
  · rw [hfind] at hj
    have hij : i = j := Option.some.inj hj
    subst hij
    have havmf : (avmfFree m virt).avmf = { m.avmf with
        lastFound := some i
        avmfBitmap := bitmapClearRun m.avmf.avmfBitmap
          ((m.avmf.header i).physAddr / pageSize) ((m.avmf.header i).size / pageSize) } := by
      unfold avmfFree
      rw [hfind]
      dsimp only
      rw [(pagerUnmap_allocator _ _).1]
      rfl
    rw [havmf]
    refine ⟨?_, rfl, hc⟩
    unfold avmfFind
    dsimp only
    have hsame : ∀ b, (Avmf.header { m.avmf with lastFound := some i, avmfBitmap := b } i)
        = m.avmf.header i := fun b => rfl
    rw [hsame, if_pos hc]
  · rw [hfind] at hj
    cases hj

/-- A run forgets every block it releases exactly when it releases none. -/
theorem forgotten_iff (m : Machine) (ops : List MemOp) :
    Forgotten m ops ↔ Along memStep MissesRegions m ops := by
  constructor
  · intro hforgot
    suffices hall : ∀ pre rest, ops = pre ++ rest →
        Along memStep MissesRegions (exec memStep m pre) rest from hall [] ops rfl
    intro pre rest
    induction rest generalizing pre with
    | nil => exact fun _ => trivial
    | cons op rest ih =>
        intro hops
        refine ⟨?_, ?_⟩
        · cases op with
          | alloc size type flags => trivial
          | free virt =>
              show (avmfFind (exec memStep m pre).avmf virt).1 = none
              cases hfind : (avmfFind (exec memStep m pre).avmf virt).1 with
              | none => rfl
              | some j =>
                  obtain ⟨hagain, -, hc⟩ := avmfFind_after_free hfind
                  have hfree := hforgot pre virt [] rest hops _ ⟨j, hfind, rfl⟩ trivial virt hc
                  have hnone := hfree.1
                  rw [exec_append] at hnone
                  exact nomatch hagain.symm.trans hnone
        · have hrest := ih (pre ++ [op]) (by rw [hops, List.append_assoc]; rfl)
          rw [exec_append] at hrest
          exact hrest
  · intro hmiss pre virt mid post hops h hrel _
    rw [hops] at hmiss
    have hnone : (avmfFind (exec memStep m pre).avmf virt).1 = none :=
      (along_append.mp hmiss).2.1
    obtain ⟨j, hj, -⟩ := hrel
    rw [hnone] at hj
    cases hj

/-- Four pages of RAM from 0x10000, when `avmf_init` returns. -/
def fourPages : Machine :=
  { avmf := avmfInit Avmf.boot (fun _ => 0x10000) (fun _ => 0x14000) 1
    firmwarePml4 := 0x5000
    mappedPml4 := 0x5000
    cpuPhysBits := 36 }

/-- A block is freed, its page goes to a second block, and freeing the old
    address again takes the page from the second block, which is live. -/
theorem freed_block_found_again :
    ¬ Forgotten fourPages
        [.alloc 4096 .user 3, .free 0x1000, .alloc 4096 .user 3, .free 0x1000] ∧
      (let s := exec Sys.step { m := fourPages }
        [.alloc 4096 .user 3, .free 0x1000, .alloc 4096 .user 3, .free 0x1000]
      s.live = [⟨0x2000, 0x10000, 0x1000⟩] ∧ bitmapTest s.m.avmf.avmfBitmap 16 = 0) := by
  refine ⟨?_, by decide +kernel⟩
  intro hforgot
  have hfree := hforgot [.alloc 4096 .user 3] 0x1000 [.alloc 4096 .user 3] [.free 0x1000] rfl
    ((exec memStep fourPages [.alloc 4096 .user 3]).avmf.header 0) ⟨0, by decide +kernel, rfl⟩
    (by decide +kernel) 0x1000 (by decide +kernel)
  have hbefore : bitmapTest (exec memStep fourPages
      [.alloc 4096 .user 3, .free 0x1000, .alloc 4096 .user 3]).avmf.avmfBitmap 16 = 1 := by
    decide +kernel
  have hafter : bitmapTest (avmfFree (exec memStep fourPages
      [.alloc 4096 .user 3, .free 0x1000, .alloc 4096 .user 3]) 0x1000).avmf.avmfBitmap 16
      = 0 := by
    decide +kernel
  have hsame := hfree.2.1
  change (avmfFree (exec memStep fourPages
    [.alloc 4096 .user 3, .free 0x1000, .alloc 4096 .user 3]) 0x1000).avmf.avmfBitmap
    = (exec memStep fourPages
      [.alloc 4096 .user 3, .free 0x1000, .alloc 4096 .user 3]).avmf.avmfBitmap at hsame
  rw [hsame, hbefore] at hafter
  cases hafter

end Pfi
