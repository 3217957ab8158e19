import Pfi.Usable

/-! # The firmware heap

    `fmalloc` asks `avmf_alloc` for user memory with 34 bytes more than wanted
    and writes a header there; `fcalloc` hands what `fmalloc` gives to `memset`.
    Both write through the page tables in force, so they change whatever memory
    the block is translated to, and fault where it is not translated at all; and
    they do not return when `avmf_alloc` faults on a page table.

    A write to memory that holds no page table changes no translation
    (`SameTables`).  The pages of a block that `avmf_alloc` takes are held by
    no table, and stay so while the block is mapped (`Held`), so writing to a
    usable block neither faults nor changes a translation
    (`Standing.written`). -/

namespace Pfi

open Words RadixTable Run

/-! ## Bytes of the mapped memory -/

/-- A word with one of its eight bytes replaced. -/
def setByte (w k v : Nat) : Nat := w - w / 2 ^ (8 * k) % 256 * 2 ^ (8 * k) + v * 2 ^ (8 * k)

/-- A byte of physical memory.  The nine bits above the lowest three of
    the address are the index of its word in the page, as in a table. -/
def Machine.storeByte (m : Machine) (p v : Nat) : Machine :=
  let f := p / pageSize
  let i := tableIndex p 3
  { m with mem := store m.mem f i (setByte (m.mem f i) (p % 8) v) }

/-- A byte at a virtual address; without a translation the write faults. -/
def Machine.writeByte (m : Machine) (a v : Nat) : Option Machine :=
  (m.translate a).map (fun t => m.storeByte t.1 v)

/-- Bytes at successive addresses. -/
def writeBytes : Machine → Nat → List Nat → Option Machine
  | m, _, [] => some m
  | m, a, v :: vs => (m.writeByte a v).bind (fun m' => writeBytes m' (add64 a 1) vs)

/-! ## The functions of `core.c` -/

/-- `ALLOC_HDR_SIG`. -/
def allocHdrSig : List Nat := [0x50, 0x46, 0x49, 0x5F, 0x41, 0x4C, 0x4C, 0x4F, 0x43, 0x00]

/-- A 64-bit number in bytes, the lowest first. -/
def bytes64 (v : Nat) : List Nat := (List.range 8).map (fun k => v / 2 ^ (8 * k) % 256)

/-- `struct alloc_hdr` as `fmalloc` fills it: the signature, the size, and no
    links. -/
def allocHdr (size : Nat) : List Nat := allocHdrSig ++ bytes64 size ++ bytes64 0 ++ bytes64 0

/-- `sizeof(struct alloc_hdr)`; the structure is packed. -/
def sizeofAllocHdr : Nat := 34

/-- The header fills the structure. -/
theorem length_allocHdr (size : Nat) : (allocHdr size).length = sizeofAllocHdr := by
  simp [allocHdr, allocHdrSig, bytes64, sizeofAllocHdr]

/-- What a call leaves; `none` if an access to a page table has faulted. -/
def returned (m m' : Machine) : Option Machine :=
  if m'.faults = m.faults then some m' else none

/-- Without a fault the call comes back. -/
theorem returned_some {m m' : Machine} (h : m'.faults = m.faults) : returned m m' = some m' :=
  if_pos h

/-- The pointer, null if `avmf_alloc` fails. -/
def fmalloc (m : Machine) (size : Nat) : Option (Nat × Machine) :=
  let r := avmfAlloc m (add64 size sizeofAllocHdr) .user (pagePresent ||| pageRw)
  (returned m r.m).bind (fun m₁ =>
    if r.virt = 0 then some (0, m₁)
    else
      (writeBytes m₁ r.virt (allocHdr size)).map (fun m' => (add64 r.virt sizeofAllocHdr, m')))

/-- `fmalloc` when its `avmf_alloc` comes back. -/
theorem fmalloc_of_returned {m : Machine} {size : Nat}
    (h : (avmfAlloc m (add64 size sizeofAllocHdr) .user (pagePresent ||| pageRw)).m.faults
      = m.faults) :
    fmalloc m size
      = if (avmfAlloc m (add64 size sizeofAllocHdr) .user (pagePresent ||| pageRw)).virt = 0
        then some (0, (avmfAlloc m (add64 size sizeofAllocHdr) .user (pagePresent ||| pageRw)).m)
        else
          (writeBytes (avmfAlloc m (add64 size sizeofAllocHdr) .user (pagePresent ||| pageRw)).m
            (avmfAlloc m (add64 size sizeofAllocHdr) .user (pagePresent ||| pageRw)).virt
            (allocHdr size)).map (fun m' =>
              (add64 (avmfAlloc m (add64 size sizeofAllocHdr) .user
                (pagePresent ||| pageRw)).virt sizeofAllocHdr, m')) := by
  unfold fmalloc
  dsimp only
  rw [returned_some h]
  rfl

/-- `memset(dst, c, n)`, as far as memory goes; `none` if it faults. -/
abbrev Memset := Machine → (dst c n : Nat) → Option Machine

/-- What the C library says of it. -/
def memsetBytes : Memset := fun m dst c n => writeBytes m dst (List.replicate n (c % 256))

/-- The one in `builtints.S`, which has the fill pattern in `rcx` where the
    count should be: so many quadwords it stores, and of each the lower half is
    filled.  For `c = 0` that is none. -/
def memsetQuads : Memset := fun m dst c n =>
  if n = 0 then some m
  else
    writeBytes m dst ((List.range (8 * (c % 256 * 0x0101010101010101))).map
      (fun i => if i % 8 < 4 then c % 256 else 0))

/-- `fcalloc`, over the `memset` that it is linked with. -/
def fcalloc (memset : Memset) (m : Machine) (nmemb size : Nat) : Option (Nat × Machine) :=
  (fmalloc m (mul64 nmemb size)).bind (fun r =>
    if r.1 = 0 then some r
    else (memset r.2 r.1 0 (mul64 size nmemb)).map (fun m' => (r.1, m')))

/-- With zero for the byte, the `memset` of the repository stores nothing. -/
theorem memsetQuads_zero (m : Machine) (dst n : Nat) : memsetQuads m dst 0 n = some m := by
  unfold memsetQuads
  split
  · rfl
  · rfl

/-- A call that allocates or frees memory. -/
inductive HeapOp where
  | avmfAlloc (size : Nat) (type : MemoryAllocType) (flags : Nat)
  | fmalloc (size : Nat)
  | fcalloc (nmemb size : Nat)
  | avmfFree (virt : Nat)
deriving Repr, DecidableEq

/-- The machine after a call, unless it faults. -/
def heapCall (m : Machine) : HeapOp → Option Machine
  | .avmfAlloc size type flags => returned m (avmfAlloc m size type flags).m
  | .fmalloc size => (fmalloc m size).map Prod.snd
  | .fcalloc nmemb size => (fcalloc memsetQuads m nmemb size).map Prod.snd
  | .avmfFree virt => returned m (avmfFree m virt)

/-- A call, if those before it came back. -/
def heapStep (s : Option Machine) (op : HeapOp) : Option Machine :=
  s.bind (fun m => heapCall m op)

/-- A call from a machine. -/
@[simp] theorem heapStep_some (m : Machine) (op : HeapOp) :
    heapStep (some m) op = heapCall m op := rfl

/-- What a call of `fmalloc` leaves. -/
theorem heapCall_fmalloc {m m' : Machine} {size ret : Nat}
    (h : fmalloc m size = some (ret, m')) : heapCall m (.fmalloc size) = some m' := by
  show (fmalloc m size).map Prod.snd = some m'
  rw [h]
  rfl

/-- What a call of `fcalloc` leaves. -/
theorem heapCall_fcalloc {m m' : Machine} {nmemb size ret : Nat}
    (h : fcalloc memsetQuads m nmemb size = some (ret, m')) :
    heapCall m (.fcalloc nmemb size) = some m' := by
  show (fcalloc memsetQuads m nmemb size).map Prod.snd = some m'
  rw [h]
  rfl

/-! ## Writes beside the page tables -/

/-- The machines differ only in memory that holds no page table. -/
structure SameTables (m m' : Machine) : Prop where
  rest : m' = { m with mem := m'.mem }
  tables : ∀ f, f * 4096 ∈ m.tableLog → ∀ i, m'.mem f i = m.mem f i

section SameTables

variable {m m' : Machine}

/-- A machine differs nowhere from itself. -/
theorem SameTables.refl (m : Machine) : SameTables m m := ⟨rfl, fun _ _ _ => rfl⟩

/-- The log of the tables is the same. -/
theorem SameTables.tableLog (h : SameTables m m') : m'.tableLog = m.tableLog := by
  rw [h.rest]

/-- The allocator is the same. -/
theorem SameTables.avmf (h : SameTables m m') : m'.avmf = m.avmf := by
  rw [h.rest]

/-- The registers are the same. -/
theorem SameTables.regs (h : SameTables m m') : SameRegs m m' := by
  rw [h.rest]
  exact sameRegs_with m _ _ _ _ _

/-- Differences in such memory add up. -/
theorem SameTables.trans {m'' : Machine} (h : SameTables m m') (h' : SameTables m' m'') :
    SameTables m m'' := by
  refine ⟨?_, fun f hf i => ?_⟩
  · rw [h'.rest, h.rest]
  · rw [h'.tables f (by rw [h.tableLog]; exact hf), h.tables f hf]

/-- The tables on every path are the same. -/
theorem SameTables.agreeAlong (h : SameTables m m') (hok : TablesOk m) (q : List (Fin 512)) :
    AgreeAlong x86Kind m.mem m'.mem 3 m.root q :=
  agreeAlong_of_outside (fun p g hp i => h.tables g (hok.owned p g hp).2.2 i)

/-- So every page is translated the same. -/
theorem SameTables.walkPage (h : SameTables m m') (hok : TablesOk m) (n : Nat) :
    walkPage m'.mem m.root n = walkPage m.mem m.root n := by
  unfold Pfi.walkPage
  exact walk_congr (h.agreeAlong hok _)

/-- The tables stay well formed. -/
theorem SameTables.tablesOk (h : SameTables m m') (hok : TablesOk m) : TablesOk m' := by
  have hroot : m'.root = m.root := h.regs.root
  have htable : ∀ p, tableAt x86Kind m'.mem 3 m'.root p = tableAt x86Kind m.mem 3 m.root p := by
    intro p
    rw [hroot]
    exact tableAt_congr (h.agreeAlong hok p)
  refine ⟨?_, ?_, ?_, ?_⟩
  · intro p q g hp hq
    rw [htable] at hp hq
    exact hok.unshared p q g hp hq
  · intro p f hp
    rw [htable] at hp
    rw [h.avmf, h.tableLog]
    exact hok.owned p f hp
  · intro p f i hp hlen
    rw [htable] at hp
    rw [h.tables f (hok.owned p f hp).2.2]
    exact hok.entries p f i hp hlen
  · rw [h.rest]
    exact hok.touched

/-- The pager works as before. -/
theorem SameTables.standing (h : SameTables m m') (hs : Standing m) : Standing m' := by
  have hregs := h.regs
  refine ⟨hs.pager.of_sameRegs hregs (h.tablesOk hs.pager.tables), ?_, ?_, ?_, ?_⟩
  · rw [hregs.mappedPml4, hregs.firmwarePml4]
    exact hs.mapped
  · unfold TablesGranted
    rw [h.tableLog]
    exact hs.granted
  · rw [hregs.cr3, hregs.root]
    exact hs.root
  · rw [h.avmf]
    exact hs.worded

/-- Every address is translated the same. -/
theorem SameTables.translate (h : SameTables m m') (hok : TablesOk m)
    (hroot : m.cr3 / pageSize = m.root) (a : Nat) : m'.translate a = m.translate a := by
  unfold Machine.translate hwWalk
  rw [h.regs.cr3, hroot, h.walkPage hok]

/-- What is within reach stays so. -/
theorem WithinReach.sameTables (h : WithinReach m) (hsame : SameTables m m') (hok : TablesOk m) :
    WithinReach m' := by
  refine h.of_walk hsame.regs ?_ ?_ (fun n _ => hsame.walkPage hok n)
  · rw [hsame.avmf]
    exact ⟨rfl, rfl⟩
  · rw [hsame.avmf, hsame.tableLog]
    exact h.logged

/-- The tables stay within reach. -/
theorem Sys.Within.sameTables {s : Sys} (h : s.Within) {m' : Machine} (hsame : SameTables s.m m')
    (hok : TablesOk s.m) : Sys.Within { s with m := m' } :=
  ⟨h.reach.sameTables hsame hok, fun b hb => (h.spared b hb).of_sameRegs hsame.regs⟩

/-- A byte stored outside the page tables. -/
theorem storeByte_sameTables {p : Nat} (hout : ∀ x ∈ m.tableLog, x / pageSize ≠ p / pageSize)
    (v : Nat) : SameTables m (m.storeByte p v) := by
  refine ⟨rfl, fun f hf i => store_of_ne_table ?_⟩
  rintro rfl
  refine hout _ hf ?_
  simp only [pageSize]
  omega

end SameTables

/-- The address is translated to memory that holds no page table. -/
def DataAt (m : Machine) (a : Nat) : Prop :=
  ∃ t, m.translate a = some t ∧ ∀ x ∈ m.tableLog, x / pageSize ≠ t.1 / pageSize

/-- A byte may be written there, and no page table changes. -/
theorem DataAt.writeByte {m : Machine} {a : Nat} (h : DataAt m a) (v : Nat) :
    ∃ m', m.writeByte a v = some m' ∧ SameTables m m' := by
  obtain ⟨t, ht, hout⟩ := h
  refine ⟨m.storeByte t.1 v, ?_, storeByte_sameTables hout v⟩
  unfold Machine.writeByte
  rw [ht]
  rfl

/-- Bytes written to data neither fault nor change a translation.  The
    induction is on the bytes: what is data stays data. -/
theorem Standing.written {m : Machine} (h : Standing m) {a : Nat} {vs : List Nat}
    (hdata : ∀ i, i < vs.length → DataAt m (add64 a i)) (ha : a < 2 ^ 64) :
    ∃ m', writeBytes m a vs = some m' ∧ SameTables m m' := by
  induction vs generalizing m a with
  | nil => exact ⟨m, rfl, SameTables.refl m⟩
  | cons v vs ih =>
      have hfirst := hdata 0 (Nat.succ_pos _)
      rw [add64_of_lt (by omega), Nat.add_zero] at hfirst
      obtain ⟨m₁, hbyte, hsame⟩ := hfirst.writeByte v
      have hrest : ∀ i, i < vs.length → DataAt m₁ (add64 (add64 a 1) i) := by
        intro i hi
        obtain ⟨t, ht, hout⟩ := hdata (i + 1) (Nat.succ_lt_succ hi)
        refine ⟨t, ?_, ?_⟩
        · rw [hsame.translate h.pager.tables h.root, ← ht]
          congr 1
          unfold add64
          omega
        · rw [hsame.tableLog]
          exact hout
      obtain ⟨m', hwrite, hsame'⟩ := ih (hsame.standing h) hrest (add64_lt a 1)
      refine ⟨m', ?_, hsame.trans hsame'⟩
      unfold writeBytes
      rw [hbyte]
      exact hwrite

/-! ## The pages of a block -/

/-- Every page table of the log is marked in the bitmap. -/
def Marked (a : Avmf) (log : List Nat) : Prop :=
  ∀ x ∈ log, x ≠ 0 → bitmapTest a.avmfBitmap (x / pageSize) = 1

/-- The `n` pages from page `q` on are marked, and none is a page table. -/
structure Held (q n : Nat) (a : Avmf) (log : List Nat) : Prop where
  marked : ∀ f, q ≤ f → f < q + n → bitmapTest a.avmfBitmap f = 1
  fresh : ∀ x ∈ log, ¬ (q ≤ x / pageSize ∧ x / pageSize < q + n)

/-- Pages that are marked besides do no harm. -/
theorem Marked.mono {a a' : Avmf} {log : List Nat} (h : Marked a log)
    (hbits : ∀ f, bitmapTest a.avmfBitmap f = 1 → bitmapTest a'.avmfBitmap f = 1) :
    Marked a' log :=
  fun x hx h0 => hbits _ (h x hx h0)

/-- What `alloc_page_table` does to bitmap and log: it marks more, and the new
    entry is null or a page that was free and is marked. -/
theorem allocPageTable_entry (m : Machine) :
    (∀ f, bitmapTest m.avmf.avmfBitmap f = 1 →
        bitmapTest (allocPageTable m).m.avmf.avmfBitmap f = 1) ∧
      ∃ x, (allocPageTable m).m.tableLog = m.tableLog ++ [x] ∧
        (x = 0 ∨ (bitmapTest m.avmf.avmfBitmap (x / pageSize) = 0 ∧
          bitmapTest (allocPageTable m).m.avmf.avmfBitmap (x / pageSize) = 1)) := by
  have hmarks := fun f => allocPhys_marks m.avmf pageSize (f := f)
  have hpage : (avmfAllocPhysContiguous m.avmf pageSize).1 = 0 ∨
      (bitmapTest m.avmf.avmfBitmap ((avmfAllocPhysContiguous m.avmf pageSize).1 / pageSize) = 0 ∧
        bitmapTest (avmfAllocPhysContiguous m.avmf pageSize).2.avmfBitmap
          ((avmfAllocPhysContiguous m.avmf pageSize).1 / pageSize) = 1) := by
    rcases avmfAllocPhysContiguous_cases m.avmf pageSize with hp | ⟨i, s, n, -, hn, -, -, hfree, hp⟩
    · rw [hp]
      exact Or.inl rfl
    · right
      rw [hp]
      dsimp only
      rw [show s * 4096 / pageSize = s from Nat.mul_div_cancel s (by decide), bitmapTest_setRun,
        if_pos (by omega)]
      exact ⟨hfree 0 hn, rfl⟩
  rcases allocPageTable_allocator (m := m) rfl rfl with ⟨-, havmf, hlog⟩ | ⟨-, havmf, hlog | hlog⟩
  · rw [havmf, hlog, (avmfAllocVirt_bitmap _ pageSize .sensitive).1]
    exact ⟨hmarks, 0, rfl, Or.inl rfl⟩
  · rw [havmf, hlog, (tableAvmf_bitmap m.avmf).1]
    exact ⟨hmarks, 0, rfl, Or.inl rfl⟩
  · rw [havmf, hlog, (tableAvmf_bitmap m.avmf).1]
    exact ⟨hmarks, _, rfl, hpage⟩

/-- A new page table is marked. -/
theorem Marked.table (m : Machine) (h : Marked m.avmf m.tableLog) :
    Marked (allocPageTable m).m.avmf (allocPageTable m).m.tableLog := by
  obtain ⟨hmarks, x, hlog, hx⟩ := allocPageTable_entry m
  rw [hlog]
  intro y hy h0
  rcases List.mem_append.mp hy with hy | hy
  · exact hmarks _ (h y hy h0)
  · rw [List.mem_singleton.mp hy] at h0 ⊢
    exact (hx.resolve_left h0).2

/-- The pages of a block stay without page table while tables are allocated. -/
theorem Held.table {q n : Nat} (hq : 0 < q) (m : Machine) (h : Held q n m.avmf m.tableLog) :
    Held q n (allocPageTable m).m.avmf (allocPageTable m).m.tableLog := by
  obtain ⟨hmarks, x, hlog, hx⟩ := allocPageTable_entry m
  refine ⟨fun f hlo hhi => hmarks f (h.marked f hlo hhi), ?_⟩
  rw [hlog]
  rintro y hy ⟨hlo, hhi⟩
  rcases List.mem_append.mp hy with hy | hy
  · exact h.fresh y hy ⟨hlo, hhi⟩
  · rw [List.mem_singleton.mp hy] at hlo hhi
    rcases hx with rfl | ⟨hfree, -⟩
    · simp only [Nat.zero_div] at hlo
      omega
    · have := h.marked _ hlo hhi
      omega

/-! ## States of the heap -/

/-- The tables stand, and all of them are marked. -/
structure HeapOk (m : Machine) : Prop where
  standing : Standing m
  marked : Marked m.avmf m.tableLog

section Calls

variable {m : Machine} {size flags : Nat} {type : MemoryAllocType}

/-- The heap's states depend on the tables only. -/
theorem SameTables.heapOk {m' : Machine} (h : SameTables m m') (hm : HeapOk m) : HeapOk m' := by
  refine ⟨h.standing hm.standing, ?_⟩
  rw [h.avmf, h.tableLog]
  exact hm.marked

/-- The pages that a recorded block takes were free, so no table is there. -/
theorem HeapOk.recorded (h : HeapOk m) {virt phys : Nat} {m' : Machine}
    (hrec : allocRecorded m size type flags = some (virt, phys, m')) :
    HeapOk m' ∧ 0 < phys / pageSize ∧
      Held (phys / pageSize) (align4k size / pageSize) m'.avmf m'.tableLog := by
  obtain ⟨hstanding, -, -, hphys, -⟩ := h.standing.recorded hrec
  obtain ⟨v, p, r, hv, hp, hr, -, hphys0, -, rfl⟩ := allocRecorded_some hrec
  have hmarks : ∀ f, bitmapTest m.avmf.avmfBitmap f = 1 → bitmapTest r.2.avmfBitmap f = 1 :=
    fun f hf => (alloc_marks m.avmf size type flags hf hv hp hr).2.2
  have hvbits : v.avmfBitmap = m.avmf.avmfBitmap := by
    have := (avmfAllocVirt_bitmap m.avmf size type).1
    rw [hv] at this
    exact this
  have hrbits : r.2.avmfBitmap = p.avmfBitmap := by
    rw [← hr]
    exact (avmfAllocRegion_bitmap p virt phys (align4k size) flags).1
  refine ⟨⟨hstanding, h.marked.mono hmarks⟩, by simp only [pageSize]; omega, ?_⟩
  rcases avmfAllocPhysContiguous_cases v (align4k size) with hc | ⟨i, s, n, hn, -, -, -, hfree, hc⟩
  · rw [hc] at hp
    exact absurd (congrArg Prod.fst hp).symm hphys0
  · rw [hc] at hp
    obtain ⟨hps, hpa⟩ := Prod.mk.inj hp
    rw [align4k_align4k] at hn
    have hs : phys / pageSize = s := by
      rw [← hps]
      exact Nat.mul_div_cancel s (by decide)
    rw [hs, show align4k size / pageSize = n from hn.symm]
    constructor
    · intro f hlo hhi
      show bitmapTest r.2.avmfBitmap f = 1
      rw [hrbits, ← hpa]
      show bitmapTest (bitmapSetRun v.avmfBitmap s n) f = 1
      rw [bitmapTest_setRun, if_pos ⟨hlo, hhi⟩]
    · rintro x hx ⟨hlo, hhi⟩
      have hset := h.marked x hx (h.standing.granted x hx).1
      have hclear := hfree (x / pageSize - s) (by omega)
      rw [show s + (x / pageSize - s) = x / pageSize by omega, hvbits] at hclear
      omega

/-- An `avmf_alloc` whose calls are sound. -/
theorem HeapOk.alloc (h : HeapOk m) (hsound : StepSound { m := m } (.alloc size type flags)) :
    HeapOk (avmfAlloc m size type flags).m ∧
      (avmfAlloc m size type flags).m.faults = m.faults := by
  obtain ⟨hstanding, hfaults⟩ := h.standing.step hsound
  refine ⟨⟨hstanding, ?_⟩, hfaults⟩
  rcases hrec : allocRecorded m size type flags with _ | ⟨virt, phys, m'⟩
  · obtain ⟨v, p, r, hv, hp, hr, hres⟩ := avmfAlloc_of_failed hrec
    have hmarks := fun f (hf : bitmapTest m.avmf.avmfBitmap f = 1) =>
      alloc_marks m.avmf size type flags hf hv hp hr
    rcases hres with hres | hres | hres
    · rw [hres]
      exact h.marked.mono (fun f hf => (hmarks f hf).1)
    · rw [hres]
      exact h.marked.mono (fun f hf => (hmarks f hf).2.1)
    · rw [hres]
      exact h.marked.mono (fun f hf => (hmarks f hf).2.2)
  · rw [avmfAlloc_of_recorded hrec]
    exact pagerMapRange_keeps Marked.table (h.recorded hrec).1.marked

/-- A sound free. -/
theorem HeapOk.free (h : HeapOk m) {virt : Nat} (hsound : FreeSound m virt) :
    HeapOk (avmfFree m virt) ∧ (avmfFree m virt).faults = m.faults := by
  obtain ⟨hstanding, hfaults⟩ := h.standing.free hsound
  refine ⟨⟨hstanding, ?_⟩, hfaults⟩
  have hfree := hsound.keeps
  unfold FreesNoTable at hfree
  unfold avmfFree
  rcases avmfFind_cases m.avmf virt with ⟨j, hfind, -, -⟩ | ⟨hfind, -⟩
  · rw [hfind] at hfree ⊢
    have hkeeps := hfree j rfl
    dsimp only
    have hheader : Avmf.header { m.avmf with lastFound := some j } j = m.avmf.header j := rfl
    rw [hheader]
    generalize m.avmf.header j = hdr at hkeeps ⊢
    obtain ⟨havmf, hlog⟩ := pagerUnmap_allocator
      { m with avmf := { m.avmf with
        lastFound := some j
        avmfBitmap := bitmapClearRun m.avmf.avmfBitmap (hdr.physAddr / pageSize)
          (hdr.size / pageSize) } } virt
    rw [havmf, hlog]
    intro x hx h0
    show bitmapTest (bitmapClearRun _ _ _) _ = 1
    rw [bitmapTest_clearRun, if_neg (hkeeps x hx)]
    exact h.marked x hx h0
  · rw [hfind]
    exact h.marked

/-- A usable block is data from its base to its rounded end. -/
theorem HeapOk.blockData (h : HeapOk m) {virt phys : Nat} {m' : Machine}
    (hrec : allocRecorded m size type flags = some (virt, phys, m'))
    (hworks : RangeWorks m' virt phys (align4k size) flags) {i : Nat} (hi : i < align4k size) :
    DataAt (avmfAlloc m size type flags).m (virt + i) := by
  obtain ⟨hm', hpos, hheld⟩ := h.recorded hrec
  obtain ⟨-, -, hvirt, hphys, hend⟩ := h.standing.recorded hrec
  have husable := hworks.usable hm'.standing hvirt hphys (align4k_mod size) hend i hi
  have hround := align4k_mod size
  have hafter : Held (phys / pageSize) (align4k size / pageSize)
      (pagerMapRange m' virt phys (align4k size) flags).avmf
      (pagerMapRange m' virt phys (align4k size) flags).tableLog :=
    pagerMapRange_keeps (Held.table hpos) hheld
  rw [avmfAlloc_of_recorded hrec]
  obtain ⟨t, ht, hphysOf⟩ := Option.map_eq_some_iff.mp husable.2
  refine ⟨t, ht, fun x hx hpage => hafter.fresh x hx ?_⟩
  rw [hpage, hphysOf]
  simp only [pageSize]
  omega

end Calls

/-! ## The calls -/

/-- So does where data may be written. -/
theorem SameTables.dataAt {m m' : Machine} (h : SameTables m m') (hs : Standing m) {a : Nat}
    (hdata : DataAt m a) : DataAt m' a := by
  obtain ⟨t, ht, hout⟩ := hdata
  refine ⟨t, (h.translate hs.pager.tables hs.root a).trans ht, ?_⟩
  rw [h.tableLog]
  exact hout

/-- The bytes that are asked for, and the header, fit in the rounded size
    unless the sum has wrapped. -/
theorem align4k_covers {v : Nat} (hword : v < 2 ^ 64) (hpos : 0 < align4k v) :
    4096 ≤ align4k v ∧ v ≤ align4k v := by
  have hround := align4k_eq v
  omega

/-- The block of `fmalloc`. -/
def fmallocOp (size : Nat) : MemOp :=
  .alloc (add64 size sizeofAllocHdr) .user (pagePresent ||| pageRw)

section Fmalloc

variable {m : Machine}

/-- A recorded block has at least a page. -/
theorem allocRecorded_pos {size flags virt phys : Nat} {type : MemoryAllocType} {m' : Machine}
    (hrec : allocRecorded m size type flags = some (virt, phys, m')) : 0 < align4k size := by
  obtain ⟨v, p, r, -, hp, -, -, hp0, -, -⟩ := allocRecorded_some hrec
  exact @allocPhys_size size v (by rw [hp]; exact hp0)

/-- `fmalloc` writes its header into the block that it gets. -/
theorem HeapOk.fmalloc (h : HeapOk m) {size : Nat}
    (hworks : StepWorks { m := m } (fmallocOp size)) :
    ∃ ret m', Pfi.fmalloc m size = some (ret, m') ∧ ret < 2 ^ 64 ∧
      SameTables (avmfAlloc m (add64 size sizeofAllocHdr) .user (pagePresent ||| pageRw)).m m' ∧
      (ret ≠ 0 → (∃ virt phys m₁, allocRecorded m (add64 size sizeofAllocHdr) .user
          (pagePresent ||| pageRw) = some (virt, phys, m₁)) ∧
        ∀ i, i + sizeofAllocHdr < align4k (add64 size sizeofAllocHdr) →
          DataAt m' (add64 ret i)) := by
  unfold fmallocOp at hworks
  obtain ⟨hsound, hfaults⟩ := h.alloc hworks.sound
  rw [fmalloc_of_returned hfaults]
  rcases hrec : allocRecorded m (add64 size sizeofAllocHdr) .user (pagePresent ||| pageRw)
    with _ | ⟨virt, phys, m₁⟩
  · rw [if_pos (h.standing.failed hrec).2.1]
    exact ⟨0, _, rfl, by decide, SameTables.refl _, fun h0 => absurd rfl h0⟩
  · have hrange := hworks virt phys m₁ hrec
    have hdata := fun {i : Nat} => h.blockData (i := i) hrec hrange
    have hpos := (align4k_covers (add64_lt size _) (allocRecorded_pos hrec)).1
    have hbase : (avmfAlloc m (add64 size sizeofAllocHdr) .user (pagePresent ||| pageRw)).virt
        = virt := by
      rw [avmfAlloc_of_recorded hrec]
    have hcan := hrange.canonical
    rw [hbase, if_neg (h.standing.recorded hrec).2.1]
    generalize (avmfAlloc m (add64 size sizeofAllocHdr) .user (pagePresent ||| pageRw)).m = m₂
      at hsound hdata ⊢
    generalize align4k (add64 size sizeofAllocHdr) = n at hpos hcan hdata ⊢
    obtain ⟨m', hwrite, hsame⟩ := @Standing.written _ hsound.standing virt (allocHdr size)
      (fun i hi => by
        rw [length_allocHdr] at hi
        simp only [sizeofAllocHdr] at hi hpos
        rw [add64_of_lt (by omega)]
        exact hdata (by omega)) (by omega)
    refine ⟨_, m', by rw [hwrite]; rfl, add64_lt _ _, hsame,
      fun _ => ⟨⟨virt, phys, m₁, rfl⟩, fun i hi => ?_⟩⟩
    have haddr : add64 (add64 virt sizeofAllocHdr) i = virt + (i + sizeofAllocHdr) := by
      unfold add64
      simp only [sizeofAllocHdr] at hi ⊢
      omega
    rw [haddr]
    exact hsame.dataAt hsound.standing (hdata hi)

/-- `fcalloc` does to memory what its `fmalloc` does. -/
theorem HeapOk.fcalloc (h : HeapOk m) {nmemb size : Nat}
    (hworks : StepWorks { m := m } (fmallocOp (mul64 nmemb size))) :
    ∃ ret m', Pfi.fcalloc memsetQuads m nmemb size = some (ret, m') ∧
      SameTables (avmfAlloc m (add64 (mul64 nmemb size) sizeofAllocHdr) .user
        (pagePresent ||| pageRw)).m m' := by
  obtain ⟨ret, m₁, hmalloc, -, hsame, -⟩ := h.fmalloc hworks
  refine ⟨ret, m₁, ?_, hsame⟩
  unfold Pfi.fcalloc
  rw [hmalloc, Option.bind_some, memsetQuads_zero]
  split
  · rfl
  · rfl

end Fmalloc

end Pfi
