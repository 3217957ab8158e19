import Pfi.MemoryBytes
import Pfi.Walk

/-! # Linked blocks of the firmware heap

    `flink` writes the header of one block into the `nxt` field of another and
    back into `prev`; `ffree` walks along `nxt` and frees each block that it
    comes to.  A free unmaps the header, so a walk that comes back to a block
    faults on it; and a free looks at no link that leads into the chain from
    elsewhere.

    What a free should do is `LinkSys.Frees`, and `LinkSys.Detached` is the
    condition on the links before it.  The loop is followed with the links as
    they were at its start (`LoopOk`): of the blocks that are still live the
    headers stay, and what was freed cannot be read.  So a loop that returns has
    walked a chain that ends (`LoopOk.returned`), and such a chain is walked to
    its end (`LoopOk.runs`). -/

namespace Pfi

open Words RadixTable Run

/-! ## The functions of `core.c` -/

/-- `ptr - sizeof(struct alloc_hdr)`. -/
def hdrOf (ptr : Nat) : Nat := add64 ptr (2 ^ 64 - sizeofAllocHdr)

/-- The places of `nxt` and `prev` in `struct alloc_hdr`. -/
abbrev offsetNxt : Nat := 18
abbrev offsetPrev : Nat := 26

def readWord (m : Machine) (a : Nat) : Option Nat := (loadBytes m a 8).map word64

def nxtOf (m : Machine) (hdr : Nat) : Option Nat := readWord m (add64 hdr offsetNxt)
def prevOf (m : Machine) (hdr : Nat) : Option Nat := readWord m (add64 hdr offsetPrev)

/-- `flink`; `none` if a write faults. -/
def flink (m : Machine) (ptr1 ptr2 : Nat) : Option Machine :=
  let hdr1 := hdrOf ptr1
  let hdr2 := hdrOf ptr2
  (writeBytes m (add64 hdr1 offsetNxt) (bytes64 hdr2)).bind
    (fun m => writeBytes m (add64 hdr2 offsetPrev) (bytes64 hdr1))

/-- The loop of `ffree`: the arguments of its calls of `avmf_free`, in order,
    and the machine; `none` if an access faults or the fuel runs out. -/
def ffreeLoop : (fuel : Nat) → Machine → (hdr : Nat) → Option (List Nat × Machine)
  | 0, _, _ => none
  | fuel + 1, m, hdr =>
      if hdr = 0 then some ([], m)
      else
        (loadBytes m hdr allocHdrSig.length).bind (fun sig =>
          if sig ≠ allocHdrSig then some ([], m)
          else
            (nxtOf m hdr).bind (fun nxt =>
              (returned m (avmfFree m hdr)).bind (fun m' =>
                (ffreeLoop fuel m' nxt).map (fun r => (hdr :: r.1, r.2)))))

/-! ## Runs -/

/-- The memory system with the headers that were freed so far. -/
structure LinkSys where
  sys : Sys
  freed : List Nat := []

inductive LinkOp where
  | fmalloc (size : Nat)
  | flink (ptr1 ptr2 : Nat)
  | ffree (ptr : Nat)
deriving Repr, DecidableEq

/-- A call; `none` if it faults or does not return.  A turn of the loop of
    `ffree` that does not end it frees a live block, so that one more turn than
    there are live blocks is enough (`ffreeLoop_fuel`). -/
def LinkSys.call (s : LinkSys) : LinkOp → Option LinkSys
  | .fmalloc size =>
      (fmalloc s.sys.m size).map
        (fun r => { s with sys := { s.sys.step (fmallocOp size) with m := r.2 } })
  | .flink ptr1 ptr2 =>
      (flink s.sys.m ptr1 ptr2).map (fun m => { s with sys := { s.sys with m := m } })
  | .ffree ptr =>
      (ffreeLoop (s.sys.live.length + 1) s.sys.m (hdrOf ptr)).map (fun r =>
        { sys := { exec Sys.step s.sys (r.1.map MemOp.free) with m := r.2 }
          freed := r.1 ++ s.freed })

def linkStep (s : Option LinkSys) (op : LinkOp) : Option LinkSys := s.bind (fun s => s.call op)

@[simp] theorem linkStep_some (s : LinkSys) (op : LinkOp) : linkStep (some s) op = s.call op := rfl

/-- A condition on a call in a run that has not stopped. -/
def WhenRunning (P : LinkSys → LinkOp → Prop) (s : Option LinkSys) (op : LinkOp) : Prop :=
  ∀ t, s = some t → P t op

/-- `ptr` was returned by `fmalloc` and is not freed. -/
def LinkSys.Live (s : LinkSys) (ptr : Nat) : Prop :=
  ∃ b ∈ s.sys.live, ptr = b.virt + sizeofAllocHdr

/-- `flink` and `ffree` are called on live pointers. -/
def LinkSys.Valid (s : LinkSys) : LinkOp → Prop
  | .fmalloc _ => True
  | .flink ptr1 ptr2 => s.Live ptr1 ∧ s.Live ptr2
  | .ffree ptr => s.Live ptr

/-- The allocation of `fmalloc`. -/
abbrev fmallocAlloc (m : Machine) (size : Nat) : AllocResult :=
  avmfAlloc m (add64 size sizeofAllocHdr) .user (pagePresent ||| pageRw)

/-- An `fmalloc` that succeeds takes a clear range, without the page at which
    the PML4 is reached, and each gets the page tables that it needs. -/
def LinkSys.Serves (s : LinkSys) : LinkOp → Prop
  | .fmalloc size =>
      (s.sys.step (fmallocOp size)).Granted ∧
        ((fmallocAlloc s.sys.m size).virt ≠ 0 →
          UserClear s.sys.m.avmf (add64 size sizeofAllocHdr)) ∧
        SparesPml4 s.sys.m (add64 size sizeofAllocHdr) .user (pagePresent ||| pageRw)
  | _ => True

/-! ## What a free should do -/

/-- The headers that `nxt` leads to. -/
inductive NxtReach (m : Machine) (hdr : Nat) : Nat → Prop where
  | start : hdr ≠ 0 → NxtReach m hdr hdr
  | step {b c : Nat} : NxtReach m hdr b → nxtOf m b = some c → c ≠ 0 → NxtReach m hdr c

/-- No header of a live block links to a freed one. -/
def NoDangling (m : Machine) (live : List Block) (freed : List Nat) : Prop :=
  ∀ b ∈ live, ∀ p ∈ freed, nxtOf m b.virt ≠ some p ∧ prevOf m b.virt ≠ some p

/-- The call returns, frees what `nxt` leads to, each block once, and leaves no
    link to a freed block. -/
def LinkSys.Frees (s : LinkSys) : LinkOp → Prop
  | .ffree ptr =>
      ∃ fuel freed m', ffreeLoop fuel s.sys.m (hdrOf ptr) = some (freed, m') ∧ freed.Nodup ∧
        (∀ b, b ∈ freed ↔ NxtReach s.sys.m (hdrOf ptr) b) ∧
        NoDangling m' (s.sys.live.filter (fun b => decide (b.virt ∉ freed))) (freed ++ s.freed)
  | _ => True

/-- `nxt` from a header on, null where it cannot be read. -/
def nxtAt (m : Machine) (hdr : Nat) : Nat := (nxtOf m hdr).getD 0
def prevAt (m : Machine) (hdr : Nat) : Nat := (prevOf m hdr).getD 0

/-- The chain along `nxt` ends, and no link of a live block beside it leads into
    it. -/
def LinkSys.Detached (s : LinkSys) : LinkOp → Prop
  | .ffree ptr =>
      (∃ n, Walk.EndsAfter (· ≠ 0) (nxtAt s.sys.m) (hdrOf ptr) n) ∧
        ∀ b ∈ s.sys.live, ¬ NxtReach s.sys.m (hdrOf ptr) b.virt →
          ∀ p, NxtReach s.sys.m (hdrOf ptr) p →
            nxtOf s.sys.m b.virt ≠ some p ∧ prevOf s.sys.m b.virt ≠ some p
  | _ => True

/-! ## Headers -/

/-- What is in the header of a block, beside its size. -/
structure HeaderAt (m : Machine) (hdr nxt prev : Nat) : Prop where
  sig : loadBytes m hdr allocHdrSig.length = some allocHdrSig
  nxt : nxtOf m hdr = some nxt
  prev : prevOf m hdr = some prev

/-- The same in physical memory. -/
structure HeaderBytes (m : Machine) (p nxt prev : Nat) : Prop where
  sig : m.bytesAt p allocHdrSig.length = allocHdrSig
  nxt : word64 (m.bytesAt (p + offsetNxt) 8) = nxt
  prev : word64 (m.bytesAt (p + offsetPrev) 8) = prev

section Bytes

variable {m m' : Machine} {p nxt prev : Nat}

/-- A header that is not written to stays. -/
theorem HeaderBytes.kept (h : HeaderBytes m p nxt prev)
    (hsame : ∀ q, p ≤ q → q < p + sizeofAllocHdr → m'.loadByte q = m.loadByte q) :
    HeaderBytes m' p nxt prev := by
  have hfield : ∀ o n, o + n ≤ sizeofAllocHdr → m'.bytesAt (p + o) n = m.bytesAt (p + o) n :=
    fun o n hin => bytesAt_congr (fun q hlo hhi => hsame q (by omega) (by omega))
  refine ⟨?_, ?_, ?_⟩
  · exact (hfield 0 allocHdrSig.length (by decide)).trans h.sig
  · rw [hfield offsetNxt 8 (by decide)]
    exact h.nxt
  · rw [hfield offsetPrev 8 (by decide)]
    exact h.prev

theorem HeaderBytes.setNxt (h : HeaderBytes m p nxt prev) {v : Nat} (hv : v < 2 ^ 64)
    (hw : Written m (p + offsetNxt) (bytes64 v) m') : HeaderBytes m' p v prev := by
  have hlen := length_bytes64 v
  refine ⟨?_, ?_, ?_⟩
  · rw [hw.bytesAt_apart (Or.inl (Nat.add_le_add_left (by decide) p))]
    exact h.sig
  · have hread := @Written.bytesAt m _ m' [] (bytes64 v) [] (by simpa using hw)
    rw [hlen] at hread
    exact (congrArg word64 hread).trans (word64_bytes64 hv)
  · rw [hw.bytesAt_apart (Or.inr (by rw [hlen]; simp only [offsetNxt, offsetPrev]; omega))]
    exact h.prev

theorem HeaderBytes.setPrev (h : HeaderBytes m p nxt prev) {v : Nat} (hv : v < 2 ^ 64)
    (hw : Written m (p + offsetPrev) (bytes64 v) m') : HeaderBytes m' p nxt v := by
  have hlen := length_bytes64 v
  refine ⟨?_, ?_, ?_⟩
  · rw [hw.bytesAt_apart (Or.inl (Nat.add_le_add_left (by decide) p))]
    exact h.sig
  · rw [hw.bytesAt_apart (Or.inl (by simp only [offsetNxt, offsetPrev]; omega))]
    exact h.nxt
  · have hread := @Written.bytesAt m _ m' [] (bytes64 v) [] (by simpa using hw)
    rw [hlen] at hread
    exact (congrArg word64 hread).trans (word64_bytes64 hv)

theorem allocHdr_lt (size : Nat) : ∀ v ∈ allocHdr size, v < 256 := by
  intro v hv
  unfold allocHdr at hv
  rcases List.mem_append.mp hv with hv | hv
  · rcases List.mem_append.mp hv with hv | hv
    · rcases List.mem_append.mp hv with hv | hv
      · have hsig : ∀ v ∈ allocHdrSig, v < 256 := by decide
        exact hsig v hv
      · exact bytes64_lt _ v hv
    · exact bytes64_lt _ v hv
  · exact bytes64_lt _ v hv

/-- The header that `fmalloc` writes. -/
theorem headerBytes_allocHdr {size : Nat} (hw : Written m p (allocHdr size) m') :
    HeaderBytes m' p 0 0 := by
  have hzero : word64 (bytes64 0) = 0 := word64_bytes64 (by decide)
  refine ⟨?_, ?_, ?_⟩
  · exact @Written.bytesAt m p m' [] allocHdrSig (bytes64 size ++ bytes64 0 ++ bytes64 0)
      (by simpa [allocHdr] using hw)
  · have hread := @Written.bytesAt m p m' (allocHdrSig ++ bytes64 size) (bytes64 0) (bytes64 0) hw
    rw [List.length_append, length_bytes64, length_bytes64] at hread
    exact (congrArg word64 hread).trans hzero
  · have hread := @Written.bytesAt m p m' (allocHdrSig ++ bytes64 size ++ bytes64 0) (bytes64 0) []
      (by simpa [allocHdr] using hw)
    rw [List.length_append, List.length_append, length_bytes64, length_bytes64] at hread
    exact (congrArg word64 hread).trans hzero

end Bytes

section Blocks

variable {s s' : Sys} {b : Block}

/-- A live block has at least a page, and is not at the null pointer. -/
theorem Sys.Ok.block (h : s.Ok) (hb : b ∈ s.live) :
    4096 ≤ b.size ∧ b.virt + b.size ≤ 2 ^ 64 ∧ b.virt ≠ 0 ∧ b.phys % 4096 = 0 := by
  have hplaced := h.agrees.placed b hb
  have hpos := hplaced.pos
  have hround := hplaced.sizePage
  have hspace := hplaced.space
  obtain ⟨hd, hmem, hvirt, -, -⟩ := h.owned.recorded b hb
  obtain ⟨t, ht, hbase, -⟩ := h.owned.regions.placed hd hmem
  have hbasepos := spaceBase_pos ht
  exact ⟨by omega, by omega, by omega, hplaced.physPage⟩

theorem Sys.Ok.mapped (h : s.Ok) (hb : b ∈ s.live) : MappedTo s.m b.virt b.phys b.size :=
  fun _ hi => h.agrees.translate hb hi

/-- No page table lies in a live block. -/
theorem Sys.Ok.outside (h : s.Ok) (hlog : TablesGranted s.m) (hb : b ∈ s.live) {q : Nat}
    (hlo : b.phys ≤ q) (hhi : q < b.phys + b.size) :
    ∀ x ∈ s.m.tableLog, x / pageSize ≠ q / pageSize := by
  intro x hx heq
  have haligned := h.owned.pages.aligned b hb
  refine h.owned.pages.fresh b hb x hx (hlog x hx).1 ?_
  unfold Block.Page
  simp only [pageSize] at heq
  omega

/-- A call of the memory system leaves what a live block holds. -/
theorem Sys.Ok.loadByte_kept (h : s'.Ok) (hlog : TablesGranted s'.m)
    (hstores : StoresTouched s.m s'.m) (hb : b ∈ s'.live) {q : Nat} (hlo : b.phys ≤ q)
    (hhi : q < b.phys + b.size) : s'.m.loadByte q = s.m.loadByte q := by
  unfold Machine.loadByte
  rw [h.agrees.tables.kept hstores]
  intro hmem
  refine h.outside hlog hb hlo hhi _ hmem ?_
  exact Nat.mul_div_cancel _ (by decide)

theorem Sys.Ok.header_kept (h : s'.Ok) (hlog : TablesGranted s'.m)
    (hstores : StoresTouched s.m s'.m) (hb : b ∈ s'.live) {nxt prev : Nat}
    (hd : HeaderBytes s.m b.phys nxt prev) : HeaderBytes s'.m b.phys nxt prev := by
  have hsize := (h.block hb).1
  refine hd.kept (fun q hlo hhi => ?_)
  simp only [sizeofAllocHdr] at hhi
  exact h.loadByte_kept hlog hstores hb hlo (by omega)

/-- A block ends below the end of the address space. -/
theorem Sys.Ok.block_end (h : s.Ok) (hb : b ∈ s.live) : b.virt + b.size < 2 ^ 64 := by
  obtain ⟨hd, hmem, hvirt, -, hsize⟩ := h.owned.recorded b hb
  obtain ⟨t, ht, -, hheap⟩ := h.owned.regions.placed hd hmem
  have hword := (h.owned.regions.heap t ht).2.2.1
  omega

/-- Bytes of a block. -/
theorem Sys.Ok.loadBlock (h : s.Ok) (hb : b ∈ s.live) {o n : Nat} (hin : o + n ≤ b.size) :
    Pfi.loadBytes s.m (b.virt + o) n = some (s.m.bytesAt (b.phys + o) n) := by
  have hend := h.block_end hb
  exact loadBytes_mapped ((h.mapped hb).part hin) (by omega)

/-- The bytes of a field. -/
theorem Sys.Ok.loadBytes (h : s.Ok) (hb : b ∈ s.live) {o n : Nat} (hin : o + n < 4096) :
    Pfi.loadBytes s.m (b.virt + o) n = some (s.m.bytesAt (b.phys + o) n) := by
  have hsize := (h.block hb).1
  exact h.loadBlock hb (by omega)

theorem Sys.Ok.field (h : s.Ok) (hb : b ∈ s.live) {o : Nat} (ho : o < 4096) :
    add64 b.virt o = b.virt + o := by
  obtain ⟨hsize, hend, -, -⟩ := h.block hb
  exact add64_of_lt (by omega)

theorem Sys.Ok.headerAt (h : s.Ok) (hb : b ∈ s.live) {nxt prev : Nat}
    (hd : HeaderBytes s.m b.phys nxt prev) : HeaderAt s.m b.virt nxt prev := by
  have hsig := h.loadBytes hb (o := 0) (n := allocHdrSig.length) (by decide)
  have hnxt := h.loadBytes hb (o := offsetNxt) (n := 8) (by decide)
  have hprev := h.loadBytes hb (o := offsetPrev) (n := 8) (by decide)
  refine ⟨?_, ?_, ?_⟩
  · rw [Nat.add_zero, Nat.add_zero, hd.sig] at hsig
    exact hsig
  · unfold nxtOf readWord
    rw [h.field hb (by decide), hnxt]
    exact congrArg some hd.nxt
  · unfold prevOf readWord
    rw [h.field hb (by decide), hprev]
    exact congrArg some hd.prev

/-- Another live block holds other memory. -/
theorem Sys.Ok.live_apart (h : s.Ok) {c : Block} (hb : b ∈ s.live) (hc : c ∈ s.live)
    (hne : c ≠ b) : c.phys + c.size ≤ b.phys ∨ b.phys + b.size ≤ c.phys := by
  have hapart := h.owned.pages.apart.forall hb hc hne.symm
  have hb1 := h.owned.pages.aligned b hb
  have hc1 := h.owned.pages.aligned c hc
  have hbpos := (h.block hb).1
  have hcpos := (h.block hc).1
  by_contra hmeet
  by_cases hle : b.phys ≤ c.phys
  · refine hapart (c.phys / 4096) ?_ ?_
    · unfold Block.Page
      omega
    · unfold Block.Page
      omega
  · refine hapart (b.phys / 4096) ?_ ?_
    · unfold Block.Page
      omega
    · unfold Block.Page
      omega

/-- Bytes written to a live block. -/
theorem Sys.Ok.writeBlock (h : s.Ok) (hlog : TablesGranted s.m) (hb : b ∈ s.live) {o : Nat}
    {vs : List Nat} (hin : o + vs.length ≤ b.size) (hbytes : ∀ v ∈ vs, v < 256) :
    ∃ m', Pfi.writeBytes s.m (b.virt + o) vs = some m' ∧ SameTables s.m m' ∧
      Written s.m (b.phys + o) vs m' := by
  have hend := h.block_end hb
  refine writeBytes_mapped h.agrees.tables h.agrees.root ((h.mapped hb).part hin) (by omega)
    hbytes (fun i hi => ?_)
  rw [Nat.add_assoc]
  exact h.outside hlog hb (by omega) (by omega)

theorem Sys.Ok.writeBytes (h : s.Ok) (hlog : TablesGranted s.m) (hb : b ∈ s.live) {o : Nat}
    {vs : List Nat} (hin : o + vs.length < 4096) (hbytes : ∀ v ∈ vs, v < 256) :
    ∃ m', Pfi.writeBytes s.m (b.virt + o) vs = some m' ∧ SameTables s.m m' ∧
      Written s.m (b.phys + o) vs m' := by
  have hsize := (h.block hb).1
  exact h.writeBlock hlog hb (by omega) hbytes

/-- Writing to blocks keeps the system. -/
theorem Sys.Ok.sameTables (h : s.Ok) {m' : Machine} (hsame : SameTables s.m m') :
    Sys.Ok { s with m := m' } := by
  have hregs := hsame.regs
  have hwalk := hsame.walkPage h.agrees.tables
  have hroot : m'.root = s.m.root := hregs.root
  constructor
  · show Owned m'.avmf m'.tableLog s.live
    rw [hsame.avmf, hsame.tableLog]
    exact h.owned
  · show Agrees m' s.live
    refine ⟨hsame.tablesOk h.agrees.tables, ?_, ?_, ?_, ?_, ?_, h.agrees.placed, ?_⟩
    · rw [hregs.cpuPhysBits]
      exact h.agrees.bits
    · rw [hregs.mappedPml4, hregs.firmwarePml4]
      exact h.agrees.mapped
    · rw [hregs.cr3, hroot]
      exact h.agrees.root
    · rw [hsame.avmf, hregs.cpuPhysBits]
      exact h.agrees.limits
    · intro n hn
      rw [hroot, hugeAt_congr (hwalk n)] at hn
      rw [hsame.avmf]
      exact h.agrees.huge n hn
    · intro c hc
      obtain ⟨flags, hargs, hleaves⟩ := h.agrees.blocks c hc
      refine ⟨flags, hargs.of_sameRegs hregs, fun k hk => ?_⟩
      rw [hroot, hwalk]
      exact hleaves k hk

end Blocks

/-! ## A served `fmalloc`, and a free of a live block -/

/-- A free changes nothing that `Granted` looks at. -/
theorem granted_free (s : Sys) (virt : Nat) : (s.step (.free virt)).Granted ↔ s.Granted := by
  obtain ⟨hw, -, -, -, hlog⟩ := avmfFree_allocator s.m virt
  unfold Sys.Granted TablesGranted
  show (avmfFree s.m virt).avmf.wrapped = false ∧ (∀ x ∈ (avmfFree s.m virt).tableLog, _) ↔ _
  rw [hw, hlog]

theorem mem_free_live {s : Sys} {virt : Nat} {c : Block} :
    c ∈ (s.step (.free virt)).live ↔ c ∈ s.live ∧ c.virt ≠ virt := by
  simp only [Sys.step, List.mem_filter, decide_eq_true_eq]

section Served

variable {s : Sys} {size : Nat}

/-- A served `fmalloc`. -/
theorem Sys.Ok.served (h : s.Ok) (hwithin : s.Within)
    (hserves : LinkSys.Serves { sys := s } (.fmalloc size)) :
    (s.step (fmallocOp size)).Ok ∧ (s.step (fmallocOp size)).Within ∧
      (fmallocAlloc s.m size).m.faults = s.m.faults := by
  obtain ⟨hgranted, hclear, hspares⟩ := hserves
  have halloc := hwithin.alloc h (by decide) (by decide) (fun h0 _ => hclear h0) hspares hgranted
  exact ⟨h.alloc (by decide) (by decide) (fun h0 _ => hclear h0) hgranted, halloc.2, halloc.1⟩

end Served

section Free

variable {s : Sys} {b : Block}

theorem Sys.Ok.free (h : s.Ok) (hgranted : s.Granted) (hb : b ∈ s.live) :
    (s.step (.free b.virt)).Ok :=
  ok_step h ⟨b, hb, rfl⟩ trivial ((granted_free s b.virt).mpr hgranted)

/-- The freed header can no longer be read, nor can what could not before. -/
theorem Sys.Ok.free_translate (h : s.Ok) (hlog : TablesGranted s.m) (hb : b ∈ s.live) {a : Nat}
    (ha : a = b.virt ∨ s.m.translate a = none) : (avmfFree s.m b.virt).translate a = none := by
  obtain ⟨a', ha', -, hun⟩ := avmfFree_unmapped h.owned h.agrees hlog hb
  refine (hun.translate_iff ha'.root a).mpr ?_
  rcases ha with rfl | hnone
  · exact Or.inr (sameLeaf_self _ _)
  · exact Or.inl hnone

/-- The headers of the other blocks stay. -/
theorem Sys.Ok.free_header (h : s.Ok) (hgranted : s.Granted) (hb : b ∈ s.live) {c : Block}
    (hc : c ∈ (s.step (.free b.virt)).live) {nxt prev : Nat}
    (hd : HeaderBytes s.m c.phys nxt prev) :
    HeaderBytes (avmfFree s.m b.virt) c.phys nxt prev :=
  (h.free hgranted hb).header_kept ((granted_free s b.virt).mpr hgranted).2
    (storesTouched_avmfFree _ _) hc hd

end Free

/-! ## The loop of `ffree` -/

/-- A pointer that the loop may come to: null, live, or to what cannot be
    read. -/
def Follows (s : Sys) (hdr : Nat) : Prop :=
  hdr = 0 ∨ (∃ b ∈ s.live, b.virt = hdr) ∨ s.m.translate hdr = none

/-- The state at a turn of the loop: the links of the live blocks are those of
    its start. -/
structure LoopOk (nxt prev : Nat → Nat) (s : Sys) : Prop where
  ok : s.Ok
  granted : s.Granted
  within : s.Within
  headers : ∀ b ∈ s.live, HeaderBytes s.m b.phys (nxt b.virt) (prev b.virt) ∧
    Follows s (nxt b.virt)

section Loop

variable {nxt prev : Nat → Nat} {s : Sys} {b : Block} {hdr fuel n : Nat}

/-- What may be followed, may be followed when a block is freed. -/
theorem Follows.free (hfollows : Follows s hdr) (h : s.Ok) (hlog : TablesGranted s.m)
    (hb : b ∈ s.live) : Follows (s.step (.free b.virt)) hdr := by
  rcases hfollows with h0 | ⟨c, hc, rfl⟩ | hnone
  · exact Or.inl h0
  · by_cases hsame : c.virt = b.virt
    · exact Or.inr (Or.inr (h.free_translate hlog hb (Or.inl hsame)))
    · exact Or.inr (Or.inl ⟨c, mem_free_live.mpr ⟨hc, hsame⟩, rfl⟩)
  · exact Or.inr (Or.inr (h.free_translate hlog hb (Or.inr hnone)))

theorem LoopOk.free (h : LoopOk nxt prev s) (hb : b ∈ s.live) :
    LoopOk nxt prev (s.step (.free b.virt)) := by
  refine ⟨h.ok.free h.granted hb, (granted_free s b.virt).mpr h.granted,
    (h.within.free h.ok h.granted.2 hb).2, fun c hc => ?_⟩
  obtain ⟨hd, hfollows⟩ := h.headers c (mem_free_live.mp hc).1
  exact ⟨h.ok.free_header h.granted hb hc hd, hfollows.free h.ok h.granted.2 hb⟩

/-- One turn at a live header. -/
theorem LoopOk.turn (h : LoopOk nxt prev s) (hb : b ∈ s.live) :
    ffreeLoop (fuel + 1) s.m b.virt
      = (ffreeLoop fuel (s.step (.free b.virt)).m (nxt b.virt)).map
          (fun r => (b.virt :: r.1, r.2)) := by
  have hd := h.ok.headerAt hb (h.headers b hb).1
  have hne := (h.ok.block hb).2.2.1
  have hfaults := (h.within.free h.ok h.granted.2 hb).1
  simp only [ffreeLoop]
  rw [if_neg hne, hd.sig, Option.bind_some, if_neg (fun hc => hc rfl), hd.nxt, Option.bind_some,
    returned_some hfaults]
  rfl

/-- A header that cannot be read ends the loop in a fault. -/
theorem ffreeLoop_fault {m : Machine} (hne : hdr ≠ 0) (hnone : m.translate hdr = none) :
    ffreeLoop fuel m hdr = none := by
  cases fuel with
  | zero => rfl
  | succ fuel =>
      have hread : loadBytes m hdr allocHdrSig.length = none := by
        show (m.readByte hdr).bind _ = none
        unfold Machine.readByte
        rw [hnone]
        rfl
      simp only [ffreeLoop]
      rw [if_neg hne, hread]
      rfl

/-- A loop that returns has walked the whole chain, through live blocks. -/
theorem LoopOk.returned (h : LoopOk nxt prev s) (hfollows : Follows s hdr)
    {freed : List Nat} {m' : Machine} (hres : ffreeLoop fuel s.m hdr = some (freed, m')) :
    ∃ n, n < fuel ∧ Walk.EndsAfter (· ≠ 0) nxt hdr n ∧ freed = Walk.positions nxt hdr n := by
  induction fuel generalizing s hdr freed m' with
  | zero => cases hres
  | succ fuel ih =>
      by_cases h0 : hdr = 0
      · simp only [ffreeLoop] at hres
        rw [if_pos h0] at hres
        have hfreed := (Prod.mk.inj (Option.some.inj hres)).1
        exact ⟨0, Nat.succ_pos fuel, Walk.endsAfter_zero.mpr (fun hc => hc h0), hfreed.symm⟩
      · rcases hfollows with hc | ⟨b, hb, rfl⟩ | hnone
        · exact absurd hc h0
        · rw [h.turn hb, Option.map_eq_some_iff] at hres
          obtain ⟨⟨rest, m₁⟩, hrest, heq⟩ := hres
          obtain ⟨hfreed, rfl⟩ := Prod.mk.inj heq
          obtain ⟨n, hn, hends, hpos⟩ :=
            ih (h.free hb) ((h.headers b hb).2.free h.ok h.granted.2 hb) hrest
          refine ⟨n + 1, Nat.succ_lt_succ hn, Walk.endsAfter_succ.mpr ⟨h0, hends⟩, ?_⟩
          rw [← hfreed, Walk.positions_succ, ← hpos]
        · rw [ffreeLoop_fault h0 hnone] at hres
          cases hres

/-- A chain through live blocks that ends is freed.  The induction is on its
    length; a block that was freed is not on the rest of it. -/
theorem LoopOk.runs (h : LoopOk nxt prev s) (hends : Walk.EndsAfter (· ≠ 0) nxt hdr n)
    (hlive : ∀ p ∈ Walk.positions nxt hdr n, ∃ b ∈ s.live, b.virt = p) (hfuel : n < fuel) :
    ffreeLoop fuel s.m hdr = some (Walk.positions nxt hdr n,
        (exec Sys.step s ((Walk.positions nxt hdr n).map MemOp.free)).m) ∧
      LoopOk nxt prev (exec Sys.step s ((Walk.positions nxt hdr n).map MemOp.free)) ∧
      ∀ c, c ∈ (exec Sys.step s ((Walk.positions nxt hdr n).map MemOp.free)).live ↔
        c ∈ s.live ∧ c.virt ∉ Walk.positions nxt hdr n := by
  induction n generalizing s hdr fuel with
  | zero =>
      obtain ⟨fuel, rfl⟩ : ∃ k, fuel = k + 1 := ⟨fuel - 1, by omega⟩
      have h0 : hdr = 0 := not_not.mp hends.ends
      refine ⟨?_, h, fun c => ⟨fun hc => ⟨hc, List.not_mem_nil⟩, And.left⟩⟩
      simp only [ffreeLoop]
      rw [if_pos h0]
      rfl
  | succ n ih =>
      obtain ⟨fuel, rfl⟩ : ∃ k, fuel = k + 1 := ⟨fuel - 1, by omega⟩
      have hnodup := hends.nodup
      obtain ⟨h0, hrest⟩ := Walk.endsAfter_succ.mp hends
      rw [Walk.positions_succ] at hlive hnodup ⊢
      obtain ⟨b, hb, rfl⟩ := hlive hdr List.mem_cons_self
      obtain ⟨hfirst, -⟩ := List.nodup_cons.mp hnodup
      obtain ⟨hloop, hok, hcs⟩ := @ih _ _ fuel (h.free hb) hrest (fun p hp => by
        obtain ⟨c, hc, rfl⟩ := hlive p (List.mem_cons_of_mem _ hp)
        exact ⟨c, mem_free_live.mpr ⟨hc, fun heq => hfirst (heq ▸ hp)⟩, rfl⟩) (by omega)
      rw [List.map_cons, exec_cons]
      refine ⟨?_, hok, fun c => ?_⟩
      · rw [h.turn hb, hloop]
        rfl
      · rw [hcs, mem_free_live, List.mem_cons, not_or, and_assoc]

end Loop

end Pfi
