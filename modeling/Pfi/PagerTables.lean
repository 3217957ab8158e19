import Pfi.Pager
import Pfi.AvmfProofs

/-! # The page tables as a radix tree

    `TablesOk` is the invariant of the tables under `firmware_pml4`: they form
    an unshared radix tree, each of them was obtained from `alloc_page_table`
    and is still marked in the bitmap, and every entry that links to a table
    is exactly the entry the pager stores.  As long as no allocation of a
    table fails and no 4 KiB page is mapped in a slot that holds a 2 MiB
    leaf, the pager keeps it, and each operation has one effect on
    translations:

    * `pagerMap_page`, `pagerMap_huge` — the pages of the call get its leaf;
    * `pagerUnmap_walk` — the pages of the leaf that held the address get
      none. -/

namespace Pfi

open Words RadixTable

/-! ## Entries -/

/-- An entry that links to the table in frame `g`. -/
def linkEntry (g : Nat) : Nat := g * 4096 + 3

/-- The entry that links a table, as the code puts it together. -/
theorem link_or (g : Nat) : g * 4096 ||| pagePresent ||| pageRw = linkEntry g := by
  rw [Nat.or_assoc]
  exact mul_or_of_lt (k := 12) (by decide)

/-- The entry of a page: the frame, and the flags with the present bit; the bits
    below twelve are the flags' own. -/
theorem pageEntry_eq {phys : Nat} (flags : Nat) (h : phys < 2 ^ 64) :
    pageEntry phys flags = phys / 4096 * 4096 + (flags % 4096 / 2 * 2 + 1) := by
  unfold pageEntry
  rw [show (0xFFF : Nat) = 2 ^ 12 - 1 from rfl, and_not64_mask (by decide) h, and_mask,
    Nat.or_assoc, show flags % 2 ^ 12 ||| pagePresent = _ from or_one _]
  exact mul_or_of_lt (k := 12) (by omega)

/-- The entry of a large page: the frame is cut to 2 MiB. -/
theorem hugeEntry_eq {phys : Nat} (flags : Nat) (h : phys < 2 ^ 64) :
    hugeEntry phys flags = phys / 2097152 * 2097152 + (flags % 4096 / 2 * 2 + 1) := by
  unfold hugeEntry
  rw [show (0x1FFFFF : Nat) = 2 ^ 21 - 1 from rfl, and_not64_mask (by decide) h,
    show (0xFFF : Nat) = 2 ^ 12 - 1 from rfl, and_mask,
    Nat.or_assoc, show flags % 2 ^ 12 ||| pagePresent = _ from or_one _]
  exact mul_or_of_lt (k := 21) (by omega)

/-- The present bit is the lowest one. -/
theorem and_present (e : Nat) : e &&& pagePresent = e % 2 := and_one e

/-- The bit of a large page. -/
theorem and_huge (e : Nat) : e &&& pageHuge = e / 128 % 2 * 128 := and_bit e 7

/-- The test of a large page. -/
theorem and_huge_ne (e : Nat) : e &&& pageHuge ≠ 0 ↔ e / 128 % 2 = 1 := and_bit_ne e 7

/-- The flag sets the bit. -/
theorem or_huge_bit (flags : Nat) : (flags ||| pageHuge) / 128 % 2 = 1 := by
  have h : (flags ||| pageHuge).testBit 7 = true := by
    have h7 : pageHuge.testBit 7 = true := by decide
    rw [Nat.testBit_or, h7, Bool.or_true]
  rw [Nat.testBit_eq_decide_div_mod_eq, decide_eq_true_eq] at h
  exact h

/-- A cleared entry is not present. -/
theorem clearPresent_mod (e : Nat) : (e &&& not64 pagePresent) % 2 = 0 := by
  have h : (e &&& not64 pagePresent).testBit 0 = false := by
    rw [Nat.testBit_and]
    have h0 : (not64 pagePresent).testBit 0 = false := by decide
    rw [h0, Bool.and_false]
  rw [Nat.testBit_zero, decide_eq_false_iff_not] at h
  omega

/-- The processor stops at an entry without the present bit. -/
theorem x86Kind_absent {lvl e : Nat} : x86Kind lvl e = .absent ↔ e % 2 = 0 := by
  unfold x86Kind
  rw [and_present]
  by_cases h : e % 2 = 0
  · rw [if_pos h]
    exact iff_of_true rfl h
  · rw [if_neg h]
    refine iff_of_false ?_ h
    split <;> rename_i h0
    · exact fun hc => nomatch hc
    · split
      · exact fun hc => nomatch hc
      · exact fun hc => nomatch hc

/-- At the last level a present entry is a page. -/
theorem x86Kind_page {e : Nat} (h : e % 2 = 1) : x86Kind 0 e = .leaf := by
  unfold x86Kind
  rw [and_present, if_neg (by omega), if_pos rfl]

/-- One level above it is a large page if the bit is set. -/
theorem x86Kind_huge {e : Nat} (h : e % 2 = 1) (hb : e / 128 % 2 = 1) :
    x86Kind 1 e = .leaf := by
  unfold x86Kind
  rw [and_present, if_neg (by omega), if_neg (by decide),
    if_pos ⟨by decide, (and_huge_ne e).mpr hb⟩]

/-- The entry of a linked table leads to its frame. -/
theorem x86Kind_link {lvl g : Nat} (hg : g < bitmapSize) :
    x86Kind (lvl + 1) (linkEntry g) = .link g := by
  have hsize : g < 131072 := hg
  have hodd : linkEntry g % 2 = 1 := by unfold linkEntry; omega
  have hbit : linkEntry g / 128 % 2 = 0 := by unfold linkEntry; omega
  have hframe : linkEntry g % 2 ^ 52 / pageSize = g := by
    unfold linkEntry
    simp only [pageSize]
    omega
  unfold x86Kind
  rw [and_present, if_neg (by omega), if_neg (by omega), if_neg, hframe]
  intro hc
  have := (and_huge_ne _).mp hc.2
  omega

/-- The frame read back from the entry of a linked table. -/
theorem linkEntry_frame {g : Nat} (hg : g < bitmapSize) :
    linkEntry g &&& not64 0xFFF = g * 4096 := by
  have hsize : g < 131072 := hg
  have h : linkEntry g &&& not64 (2 ^ 12 - 1) = linkEntry g / 2 ^ 12 * 2 ^ 12 :=
    and_not64_mask (by decide) (by unfold linkEntry; omega)
  rw [show (0xFFF : Nat) = 2 ^ 12 - 1 from rfl, h]
  unfold linkEntry
  omega

/-- The pager reaches a table through either of its two views. -/
theorem tableFrame_physToVirt (m : Machine) {g : Nat} (hg : g < bitmapSize) :
    tableFrame (pagerPhysToVirt m (g * 4096)) = g := by
  have hsize : g < 131072 := hg
  unfold pagerPhysToVirt tableFrame
  cases m.pagerReady with
  | false =>
      simp only [Bool.false_eq_true, if_false, aosDirectMapBase, pageSize]
      rw [if_neg (by omega)]
      omega
  | true =>
      simp only [if_true, aosDirectMapBase, pageSize]
      rw [add64_of_lt (by omega), if_pos (by omega)]
      omega

/-! ## Allocation of a table -/

/-- Every call of `alloc_page_table` obtained a page, one that the bitmap
    covers. -/
def TablesGranted (m : Machine) : Prop :=
  ∀ x ∈ m.tableLog, x ≠ 0 ∧ x < bitmapSize * pageSize

instance (m : Machine) : Decidable (TablesGranted m) :=
  inferInstanceAs (Decidable (∀ x ∈ m.tableLog, _))

/-- A store to a table takes no frame. -/
theorem tablesGranted_setEntry {m : Machine} {tbl : Nat} {i : Fin 512} {e : Nat} :
    TablesGranted (m.setEntry tbl i e) ↔ TablesGranted m := Iff.rfl

/-- What was granted at the end was granted before. -/
theorem TablesGranted.of_mono {m m' : Machine} (h : TablesGranted m')
    (hmono : ∀ x, x ∈ m.tableLog → x ∈ m'.tableLog) : TablesGranted m :=
  fun x hx => h x (hmono x hx)

/-- The registers that mapping a page leaves alone. -/
structure SameRegs (m m' : Machine) : Prop where
  firmwarePml4 : m'.firmwarePml4 = m.firmwarePml4
  mappedPml4 : m'.mappedPml4 = m.mappedPml4
  pagerReady : m'.pagerReady = m.pagerReady
  cpuPhysBits : m'.cpuPhysBits = m.cpuPhysBits
  cr3 : m'.cr3 = m.cr3

/-- The registers are the same as themselves. -/
theorem SameRegs.refl (m : Machine) : SameRegs m m := ⟨rfl, rfl, rfl, rfl, rfl⟩

/-- The registers stay over two steps. -/
theorem SameRegs.trans {m m' m'' : Machine} (h : SameRegs m m') (h' : SameRegs m' m'') :
    SameRegs m m'' :=
  ⟨h'.1.trans h.1, h'.2.trans h.2, h'.3.trans h.3, h'.4.trans h.4, h'.5.trans h.5⟩

/-- The root stays. -/
theorem SameRegs.root {m m' : Machine} (h : SameRegs m m') : m'.root = m.root := by
  unfold Machine.root
  rw [h.firmwarePml4]

/-- The width of the processor's addresses stays. -/
theorem SameRegs.exceedsCpu {m m' : Machine} (h : SameRegs m m') (phys : Nat) :
    exceedsCpu m' phys = exceedsCpu m phys := by
  unfold Pfi.exceedsCpu
  rw [h.cpuPhysBits]

/-- The allocator, memory and the three logs are no registers. -/
theorem sameRegs_with (m : Machine) (a : Avmf) (mem : Nat → Fin 512 → Nat)
    (log touched faults : List Nat) :
    SameRegs m { m with
      avmf := a, mem := mem, tableLog := log, touched := touched, faults := faults } :=
  ⟨rfl, rfl, rfl, rfl, rfl⟩

/-- Touching a table leaves the registers. -/
theorem sameRegs_touch (m : Machine) (tbl : Nat) : SameRegs m (m.touch tbl) :=
  sameRegs_with m m.avmf m.mem m.tableLog _ _

/-- So does a store to one. -/
theorem sameRegs_setEntry (m : Machine) (tbl : Nat) (i : Fin 512) (e : Nat) :
    SameRegs m (m.setEntry tbl i e) :=
  sameRegs_with m m.avmf _ m.tableLog _ _

/-- The allocator state that `alloc_page_table` leaves when a virtual address
    was found for the table. -/
def tableAvmf (a : Avmf) : Avmf :=
  let p := avmfAllocPhysContiguous a pageSize
  let v := avmfAllocVirt p.2 pageSize .sensitive
  (avmfAllocRegion v.2 v.1 p.1 pageSize (avmfFlagPresent ||| avmfFlagWriteable)).2

/-- The exits of `alloc_page_table`: no virtual address, a null table
    pointer, or a zeroed table. -/
theorem allocPageTable_cases (m : Machine) :
    let p := avmfAllocPhysContiguous m.avmf pageSize
    let v := avmfAllocVirt p.2 pageSize .sensitive
    (v.1 = 0 ∧ allocPageTable m
      = ⟨0, 0, { m with avmf := v.2, tableLog := m.tableLog ++ [0] }⟩) ∨
    (v.1 ≠ 0 ∧ pagerPhysToVirt m p.1 = 0 ∧ allocPageTable m
      = ⟨0, 0, { m with avmf := tableAvmf m.avmf, tableLog := m.tableLog ++ [0] }⟩) ∨
    (v.1 ≠ 0 ∧ ∃ tbl, tbl = pagerPhysToVirt m p.1 ∧ tbl ≠ 0 ∧ allocPageTable m
      = ⟨tbl, p.1,
          { m with avmf := tableAvmf m.avmf, tableLog := m.tableLog ++ [p.1] }.zeroTable
            tbl⟩) := by
  intro p v
  have hptr : (if m.pagerReady then add64 aosDirectMapBase p.1 else p.1)
      = pagerPhysToVirt m p.1 := by
    unfold pagerPhysToVirt add64
    rw [Nat.add_comm]
  unfold allocPageTable
  by_cases hv : v.1 = 0
  · left
    refine ⟨hv, ?_⟩
    exact if_pos hv
  · right
    by_cases htbl : pagerPhysToVirt m p.1 = 0
    · left
      refine ⟨hv, htbl, (if_neg hv).trans ?_⟩
      exact if_pos (hptr.trans htbl)
    · right
      refine ⟨hv, pagerPhysToVirt m p.1, rfl, htbl, (if_neg hv).trans ?_⟩
      rw [← hptr] at htbl ⊢
      exact if_neg htbl

/-- So does taking a table's frame. -/
theorem sameRegs_allocPageTable (m : Machine) : SameRegs m (allocPageTable m).m := by
  rcases allocPageTable_cases m with ⟨-, h⟩ | ⟨-, -, h⟩ | ⟨-, tbl, -, -, h⟩
  · rw [h]; exact sameRegs_with m _ m.mem _ m.touched m.faults
  · rw [h]; exact sameRegs_with m _ m.mem _ m.touched m.faults
  · rw [h]; exact sameRegs_with m _ _ _ _ _

/-- What `alloc_page_table` leaves in the allocator and in the log. -/
theorem allocPageTable_allocator {m : Machine} {p v : Nat × Avmf}
    (hp : avmfAllocPhysContiguous m.avmf pageSize = p)
    (hv : avmfAllocVirt p.2 pageSize .sensitive = v) :
    (v.1 = 0 ∧ (allocPageTable m).m.avmf = v.2 ∧
      (allocPageTable m).m.tableLog = m.tableLog ++ [0]) ∨
    (v.1 ≠ 0 ∧ (allocPageTable m).m.avmf = tableAvmf m.avmf ∧
      ((allocPageTable m).m.tableLog = m.tableLog ++ [0] ∨
        (allocPageTable m).m.tableLog = m.tableLog ++ [p.1])) := by
  have hcases := allocPageTable_cases m
  dsimp only at hcases
  rw [hp, hv] at hcases
  generalize tableAvmf m.avmf = a at hcases ⊢
  rcases hcases with ⟨h0, h⟩ | ⟨h0, -, h⟩ | ⟨h0, tbl, -, -, h⟩
  · left
    rw [h]
    exact ⟨h0, rfl, rfl⟩
  · right
    rw [h]
    exact ⟨h0, rfl, Or.inl rfl⟩
  · right
    rw [h]
    exact ⟨h0, rfl, Or.inr rfl⟩

/-- Each call logs one result. -/
theorem allocPageTable_log (m : Machine) :
    ∃ x, (allocPageTable m).m.tableLog = m.tableLog ++ [x] := by
  rcases allocPageTable_allocator (m := m) rfl rfl with ⟨-, -, h⟩ | ⟨-, -, h | h⟩
  · exact ⟨_, h⟩
  · exact ⟨_, h⟩
  · exact ⟨_, h⟩

/-- The physical search sees neither the headers nor the heaps. -/
theorem avmfAllocVirt_bitmap (a : Avmf) (size : Nat) (type : MemoryAllocType) :
    (avmfAllocVirt a size type).2.avmfBitmap = a.avmfBitmap ∧
      (avmfAllocVirt a size type).2.avmfLimit = a.avmfLimit ∧
      (avmfAllocVirt a size type).2.avmfBase = a.avmfBase := by
  unfold avmfAllocVirt
  dsimp only
  split
  · exact ⟨rfl, rfl, rfl⟩
  · split
    · exact ⟨rfl, rfl, rfl⟩
    · exact ⟨rfl, rfl, rfl⟩

/-- Entering a region leaves the frames as they are. -/
theorem avmfAllocRegion_bitmap (a : Avmf) (virt phys size flags : Nat) :
    (avmfAllocRegion a virt phys size flags).2.avmfBitmap = a.avmfBitmap ∧
      (avmfAllocRegion a virt phys size flags).2.avmfLimit = a.avmfLimit ∧
      (avmfAllocRegion a virt phys size flags).2.avmfBase = a.avmfBase := by
  unfold avmfAllocRegion
  dsimp only
  split
  · exact ⟨rfl, rfl, rfl⟩
  · exact ⟨rfl, rfl, rfl⟩

/-- What a successful `alloc_page_table` did: it took the free frame `g`,
    marked it, zeroed it, and returned a pointer that reaches it. -/
structure Obtained (m : Machine) (r : TableAlloc) (g : Nat) : Prop where
  nonzero : g ≠ 0
  inBitmap : g < bitmapSize
  wasFree : bitmapTest m.avmf.avmfBitmap g = 0
  phys : r.phys = g * 4096
  frame : tableFrame r.tbl = g
  bitmap : ∀ q, bitmapTest r.m.avmf.avmfBitmap q
    = if q = g then 1 else bitmapTest m.avmf.avmfBitmap q
  mem : r.m.mem = fun f i => if f = g then 0 else m.mem f i
  log : r.m.tableLog = m.tableLog ++ [g * 4096]
  touched : r.m.touched = g :: m.touched

/-- A page-sized request takes one page. -/
theorem align4k_pageSize : align4k pageSize = 4096 := by decide

/-- Making a region or taking a virtual address leaves the pages alone. -/
theorem tableAvmf_bitmap (a : Avmf) :
    (tableAvmf a).avmfBitmap = (avmfAllocPhysContiguous a pageSize).2.avmfBitmap ∧
      (tableAvmf a).avmfLimit = (avmfAllocPhysContiguous a pageSize).2.avmfLimit ∧
      (tableAvmf a).avmfBase = (avmfAllocPhysContiguous a pageSize).2.avmfBase := by
  unfold tableAvmf
  dsimp only
  obtain ⟨h1, h2, h3⟩ := avmfAllocVirt_bitmap (avmfAllocPhysContiguous a pageSize).2
    pageSize .sensitive
  obtain ⟨h4, h5, h6⟩ := avmfAllocRegion_bitmap
    (avmfAllocVirt (avmfAllocPhysContiguous a pageSize).2 pageSize .sensitive).2
    (avmfAllocVirt (avmfAllocPhysContiguous a pageSize).2 pageSize .sensitive).1
    (avmfAllocPhysContiguous a pageSize).1 pageSize (avmfFlagPresent ||| avmfFlagWriteable)
  exact ⟨h4.trans h1, h5.trans h2, h6.trans h3⟩

/-- A call whose log has granted pages only obtained one. -/
theorem allocPageTable_obtained {m : Machine}
    (hlog : TablesGranted (allocPageTable m).m) :
    ∃ g, Obtained m (allocPageTable m) g := by
  have hlast : ∀ x, x ∈ m.tableLog ++ [x] :=
    fun x => List.mem_append_right _ List.mem_cons_self
  rcases allocPageTable_cases m with ⟨-, h⟩ | ⟨-, -, h⟩ | ⟨-, tbl, htbl, -, h⟩
  · rw [h] at hlog
    exact absurd rfl (hlog 0 (hlast 0)).1
  · rw [h] at hlog
    exact absurd rfl (hlog 0 (hlast 0)).1
  · rw [h] at hlog ⊢
    have htables := (tableAvmf_bitmap m.avmf).1
    rcases avmfAllocPhysContiguous_cases m.avmf pageSize with
      hp | ⟨i, g, n, hn, -, hi, hin, hfree, hp⟩
    · rw [hp] at hlog
      exact absurd rfl (hlog 0 (hlast 0)).1
    · rw [align4k_pageSize] at hn
      have hn1 : n = 1 := hn
      subst hn1
      rw [hp] at hlog htbl htables ⊢
      obtain ⟨hne, hbound⟩ := hlog (g * 4096) (hlast (g * 4096))
      have hlt : g < bitmapSize := by
        simp only [bitmapSize, pageSize] at hbound ⊢
        omega
      have hframe : tableFrame tbl = g := by
        rw [htbl]
        exact tableFrame_physToVirt m hlt
      refine ⟨g, by omega, hlt, hfree 0 (by decide), rfl, hframe, ?_, ?_, rfl, ?_⟩
      · intro q
        show bitmapTest (tableAvmf m.avmf).avmfBitmap q = _
        rw [htables]
        show bitmapTest (bitmapSetRun m.avmf.avmfBitmap g 1) q = _
        rw [bitmapTest_setRun]
        by_cases hq : q = g
        · rw [if_pos (by omega), if_pos hq]
        · rw [if_neg (by omega), if_neg hq]
      · show (fun f i => if f = tableFrame tbl then 0 else m.mem f i) = _
        rw [hframe]
      · show tableFrame tbl :: m.touched = _
        rw [hframe]

/-! ## The invariant of the tables -/

/-- An entry of a table above the last level is absent, a 2 MiB leaf of a
    page directory, or exactly a link. -/
def EntryOk (lvl e : Nat) : Prop :=
  e % 2 = 1 → (lvl = 1 ∧ e / 128 % 2 = 1) ∨ ∃ g, g < bitmapSize ∧ e = linkEntry g

/-- No table is reached in two ways, each is a granted page that the bitmap
    marks, and their entries are those that `pager_map` stores. -/
structure TablesOk (m : Machine) : Prop where
  unshared : Unshared x86Kind m.mem 3 m.root
  owned : ∀ p f, tableAt x86Kind m.mem 3 m.root p = some f →
    f < bitmapSize ∧ bitmapTest m.avmf.avmfBitmap f = 1 ∧ f * 4096 ∈ m.tableLog
  entries : ∀ p f i, tableAt x86Kind m.mem 3 m.root p = some f → p.length < 3 →
    EntryOk (3 - p.length) (m.mem f i)
  touched : ∀ f ∈ m.touched, f * 4096 ∈ m.tableLog

/-- The PML4 is a granted page, so its pointer is not null. -/
theorem TablesOk.pml4_ne {m : Machine} (hok : TablesOk m) (hlog : TablesGranted m) :
    m.firmwarePml4 ≠ 0 := by
  intro h0
  have hroot := (hok.owned [] m.root (tableAt_nil 3 m.root)).2.2
  unfold Machine.root at hroot
  rw [h0] at hroot
  exact (hlog _ hroot).1 rfl

/-- Touching a table that is reached keeps them. -/
theorem TablesOk.touch {m : Machine} (hok : TablesOk m) {p : List (Fin 512)} {tbl : Nat}
    (hp : tableAt x86Kind m.mem 3 m.root p = some (tableFrame tbl)) :
    TablesOk (m.touch tbl) := by
  refine ⟨hok.unshared, hok.owned, hok.entries, ?_⟩
  intro f hf
  rcases List.mem_cons.mp hf with h | h
  · rw [h]
    exact (hok.owned p _ hp).2.2
  · exact hok.touched f h

/-- Storing an entry that is no link keeps the tables. -/
theorem TablesOk.setEntry {m : Machine} (hok : TablesOk m) {p : List (Fin 512)}
    {tbl e : Nat} {i : Fin 512}
    (hp : tableAt x86Kind m.mem 3 m.root p = some (tableFrame tbl))
    (he : ∀ g, x86Kind (3 - p.length) e ≠ .link g)
    (hentry : p.length < 3 → EntryOk (3 - p.length) e) :
    TablesOk (m.setEntry tbl i e) := by
  have hold : ∀ q f, tableAt x86Kind (m.setEntry tbl i e).mem 3 m.root q = some f →
      tableAt x86Kind m.mem 3 m.root q = some f :=
    fun q f hq => tableAt_of_store hok.unshared hp he hq
  refine ⟨unshared_store hok.unshared hp he, ?_, ?_, ?_⟩
  · intro q f hq
    exact hok.owned q f (hold q f hq)
  · intro q f j hq hlen
    have hq' := hold q f hq
    show EntryOk (3 - q.length) (store m.mem (tableFrame tbl) i e f j)
    unfold store
    by_cases hhit : f = tableFrame tbl ∧ j = i
    · rw [if_pos hhit]
      have hqp : q = p := hok.unshared q p f hq' (by rw [hhit.1]; exact hp)
      rw [hqp] at hlen ⊢
      exact hentry hlen
    · rw [if_neg hhit]
      exact hok.entries q f j hq' hlen
  · intro f hf
    rcases List.mem_cons.mp hf with h | h
    · rw [h]
      exact (hok.owned p _ hp).2.2
    · exact hok.touched f h

/-! ## Setting aside and linking a table -/

/-- A page set aside for a table: granted and empty, and no entry links it. -/
structure Spare (m : Machine) (g : Nat) : Prop where
  inBitmap : g < bitmapSize
  marked : bitmapTest m.avmf.avmfBitmap g = 1
  logged : g * 4096 ∈ m.tableLog
  unlinked : ∀ q, tableAt x86Kind m.mem 3 m.root q ≠ some g
  empty : ∀ j, m.mem g j = 0

/-- Obtaining a table changes nothing in the tree, and sets a page aside. -/
structure SetAside (m m' : Machine) (g : Nat) : Prop where
  ok : TablesOk m'
  spare : Spare m' g
  tables : ∀ q, tableAt x86Kind m'.mem 3 m.root q = tableAt x86Kind m.mem 3 m.root q
  walk : ∀ q, walk x86Kind m'.mem 3 m.root q = walk x86Kind m.mem 3 m.root q

/-- An obtained frame is not one of the tables. -/
theorem Obtained.setAside {m : Machine} {r : TableAlloc} {g : Nat} (hg : Obtained m r g)
    (hok : TablesOk m) (hregs : SameRegs m r.m) : SetAside m r.m g := by
  have hfree : bitmapTest m.avmf.avmfBitmap g = 0 := hg.wasFree
  have hmem : r.m.mem = fun f j => if f = g then 0 else m.mem f j := hg.mem
  have hroot : r.m.root = m.root := hregs.root
  -- the frame that was free is no table of the tree
  have hunreached : ∀ q, tableAt x86Kind m.mem 3 m.root q ≠ some g := by
    intro q hq
    have := (hok.owned q g hq).2.1
    omega
  have hagree : ∀ q, AgreeAlong x86Kind m.mem r.m.mem 3 m.root q := by
    intro q
    apply agreeAlong_of_outside
    intro p' f' hp' j
    rw [hmem]
    exact if_neg (fun h => hunreached p' (by rw [← h]; exact hp'))
  have htables : ∀ q, tableAt x86Kind r.m.mem 3 m.root q = tableAt x86Kind m.mem 3 m.root q :=
    fun q => tableAt_congr (hagree q)
  refine ⟨⟨?_, ?_, ?_, ?_⟩, ⟨hg.inBitmap, ?_, ?_, ?_, ?_⟩, htables,
    fun q => walk_congr (hagree q)⟩
  · intro q q' h hq hq'
    rw [hroot, htables] at hq hq'
    exact hok.unshared q q' h hq hq'
  · intro q h hq
    rw [hroot, htables] at hq
    obtain ⟨h1, h2, h3⟩ := hok.owned q h hq
    rw [hg.bitmap, hg.log]
    refine ⟨h1, ?_, List.mem_append_left _ h3⟩
    by_cases hhg : h = g
    · rw [if_pos hhg]
    · rw [if_neg hhg]; exact h2
  · intro q h j hq hlen
    rw [hroot, htables] at hq
    have hne : h ≠ g := fun hc => hunreached q (by rw [← hc]; exact hq)
    rw [hmem]
    show EntryOk (3 - q.length) (if h = g then 0 else m.mem h j)
    rw [if_neg hne]
    exact hok.entries q h j hq hlen
  · intro f hf
    rw [hg.log]
    rw [hg.touched] at hf
    rcases List.mem_cons.mp hf with h | h
    · rw [h]
      exact List.mem_append_right _ List.mem_cons_self
    · exact List.mem_append_left _ (hok.touched f h)
  · rw [hg.bitmap, if_pos rfl]
  · rw [hg.log]
    exact List.mem_append_right _ List.mem_cons_self
  · intro q
    rw [hroot, htables]
    exact hunreached q
  · intro j
    rw [hmem]
    exact if_pos rfl

/-- Linking a page that was set aside: it is the table at the path, the tables
    that were there stay, and no translation changes. -/
structure LinkedAt (m m' : Machine) (path : List (Fin 512)) (g : Nat) : Prop where
  ok : TablesOk m'
  table : tableAt x86Kind m'.mem 3 m.root path = some g
  old : ∀ q h, tableAt x86Kind m.mem 3 m.root q = some h →
    tableAt x86Kind m'.mem 3 m.root q = some h
  only : ∀ q h, tableAt x86Kind m'.mem 3 m.root q = some h →
    (q = path ∧ h = g) ∨ tableAt x86Kind m.mem 3 m.root q = some h
  walk : ∀ q, walk x86Kind m'.mem 3 m.root q = walk x86Kind m.mem 3 m.root q

/-- A spare table that an absent entry links joins the tree there. -/
theorem Spare.linked {m : Machine} {g tbl : Nat} {p : List (Fin 512)} {i : Fin 512}
    (hg : Spare m g) (hok : TablesOk m)
    (hp : tableAt x86Kind m.mem 3 m.root p = some (tableFrame tbl)) (hlen : p.length < 3)
    (he : m.mem (tableFrame tbl) i % 2 = 0) :
    LinkedAt m (m.setEntry tbl i (linkEntry g)) (p ++ [i]) g := by
  obtain ⟨k, hk⟩ : ∃ k, 3 - p.length = k + 1 := ⟨2 - p.length, by omega⟩
  have hfresh : Fresh x86Kind m.mem 3 m.root k g :=
    ⟨hg.unlinked, fun j => by rw [x86Kind_absent, hg.empty]⟩
  have habs : x86Kind (k + 1) (m.mem (tableFrame tbl) i) = .absent := x86Kind_absent.mpr he
  have hkind : x86Kind (k + 1) (linkEntry g) = .link g := x86Kind_link hg.inBitmap
  have hun := hok.unshared
  have hcases : ∀ q h, tableAt x86Kind (store m.mem (tableFrame tbl) i (linkEntry g))
      3 m.root q = some h →
      (q = p ++ [i] ∧ h = g) ∨ tableAt x86Kind m.mem 3 m.root q = some h :=
    fun q h hq => tableAt_of_store_link hun hp hk hkind hfresh hq
  refine ⟨⟨unshared_store_link hun hp hk hkind hfresh, ?_, ?_, ?_⟩,
    tableAt_store_link_self hun hp hk hkind,
    fun q h hq => tableAt_store_link_old hun hp hk habs hq, hcases,
    fun q => walk_store_link hun hp hk hkind hfresh habs⟩
  · intro q h hq
    rcases hcases q h hq with ⟨-, hh⟩ | hold
    · rw [hh]
      exact ⟨hg.inBitmap, hg.marked, hg.logged⟩
    · exact hok.owned q h hold
  · intro q h j hq hlen'
    show EntryOk (3 - q.length) (store m.mem (tableFrame tbl) i (linkEntry g) h j)
    unfold store
    by_cases hhit : h = tableFrame tbl ∧ j = i
    · rw [if_pos hhit]
      exact fun _ => Or.inr ⟨g, hg.inBitmap, rfl⟩
    · rw [if_neg hhit]
      rcases hcases q h hq with ⟨-, hh⟩ | hold
      · rw [hh, hg.empty]
        exact fun h0 => absurd h0 (by decide)
      · exact hok.entries q h j hold hlen'
  · intro f hf
    rcases List.mem_cons.mp hf with h | h
    · rw [h]
      exact (hok.owned p _ hp).2.2
    · exact hok.touched f h

/-! ## Descending one level -/

/-- What the descent along `path` achieves: the table there exists and is
    returned, and no translation changed. -/
structure Reached (m : Machine) (path : List (Fin 512)) (r : Nat × Machine) : Prop where
  ok : TablesOk r.2
  regs : SameRegs m r.2
  table : tableAt x86Kind r.2.mem 3 m.root path = some (tableFrame r.1)
  walk : ∀ q, walk x86Kind r.2.mem 3 m.root q = walk x86Kind m.mem 3 m.root q

/-- A way down the tables after another. -/
theorem Reached.trans {m : Machine} {p q : List (Fin 512)} {r r' : Nat × Machine}
    (h : Reached m p r) (h' : Reached r.2 q r') : Reached m q r' := by
  have hroot := h.regs.root
  refine ⟨h'.ok, h.regs.trans h'.regs, ?_, ?_⟩
  · rw [← hroot]
    exact h'.table
  · intro k
    rw [← h.walk k, ← hroot]
    exact h'.walk k

/-- A step of the descent at an absent entry. -/
theorem nextTable_of_absent {m : Machine} {tbl : Nat} {i : Fin 512}
    (he : m.mem (tableFrame tbl) i % 2 = 0) :
    (nextTable m tbl i).1 = (allocPageTable (m.touch tbl)).tbl ∧
      (nextTable m tbl i).2 = (allocPageTable (m.touch tbl)).m.setEntry tbl i
        ((allocPageTable (m.touch tbl)).phys ||| pagePresent ||| pageRw) := by
  have hoff : (m.touch tbl).entry tbl i &&& pagePresent = 0 := by
    rw [and_present]
    exact he
  unfold nextTable
  dsimp only
  rw [if_pos hoff]
  generalize allocPageTable (m.touch tbl) = r
  exact ⟨rfl, rfl⟩

/-- A step of the descent at a present entry. -/
theorem nextTable_of_present {m : Machine} {tbl : Nat} {i : Fin 512}
    (he : ¬ m.mem (tableFrame tbl) i % 2 = 0) :
    (nextTable m tbl i).1 = pagerPhysToVirt m (m.mem (tableFrame tbl) i &&& not64 0xFFF) ∧
      (nextTable m tbl i).2 = m.touch tbl := by
  have hon : ¬ (m.touch tbl).entry tbl i &&& pagePresent = 0 := by
    rw [and_present]
    exact he
  unfold nextTable
  dsimp only
  rw [if_neg hon]
  exact ⟨rfl, rfl⟩

/-- The descent logs at least what was logged. -/
theorem nextTable_log_mono (m : Machine) (tbl : Nat) (i : Fin 512) {x : Nat}
    (hx : x ∈ m.tableLog) : x ∈ (nextTable m tbl i).2.tableLog := by
  by_cases he : m.mem (tableFrame tbl) i % 2 = 0
  · obtain ⟨y, hy⟩ := allocPageTable_log (m.touch tbl)
    rw [(nextTable_of_absent he).2, setEntry_tableLog, hy, touch_tableLog]
    exact List.mem_append_left _ hx
  · rw [(nextTable_of_present he).2]
    exact hx

/-- Going down a level leaves the registers. -/
theorem sameRegs_nextTable (m : Machine) (tbl : Nat) (i : Fin 512) :
    SameRegs m (nextTable m tbl i).2 := by
  by_cases he : m.mem (tableFrame tbl) i % 2 = 0
  · have hregs := sameRegs_allocPageTable (m.touch tbl)
    rw [(nextTable_of_absent he).2]
    exact ((sameRegs_touch m tbl).trans hregs).trans (sameRegs_setEntry _ _ _ _)
  · rw [(nextTable_of_present he).2]
    exact sameRegs_touch m tbl

section Descend

variable {m : Machine} {p : List (Fin 512)} {tbl : Nat} {i : Fin 512}

/-- A present entry that is no 2 MiB leaf links to the table that the pager
    reaches through it. -/
theorem follow_link (hok : TablesOk m) {f : Nat}
    (hp : tableAt x86Kind m.mem 3 m.root p = some f) (hlen : p.length < 3)
    (hodd : m.mem f i % 2 = 1) (hleaf : p.length = 2 → m.mem f i / 128 % 2 = 0) :
    tableAt x86Kind m.mem 3 m.root (p ++ [i])
      = some (tableFrame (pagerPhysToVirt m (m.mem f i &&& not64 0xFFF))) := by
  obtain ⟨k, hk⟩ : ∃ k, 3 - p.length = k + 1 := ⟨2 - p.length, by omega⟩
  rcases hok.entries p f i hp hlen hodd with ⟨hl, hb⟩ | ⟨g, hg, hlink⟩
  · have := hleaf (by omega)
    omega
  · rw [tableAt_concat hp hk, hlink, x86Kind_link hg, linkEntry_frame hg,
      tableFrame_physToVirt m hg]

/-- The entry is present: the descent follows it. -/
theorem nextTable_present (hok : TablesOk m)
    (hp : tableAt x86Kind m.mem 3 m.root p = some (tableFrame tbl)) (hlen : p.length < 3)
    (hodd : m.mem (tableFrame tbl) i % 2 = 1)
    (hleaf : p.length = 2 → m.mem (tableFrame tbl) i / 128 % 2 = 0) :
    Reached m (p ++ [i]) (nextTable m tbl i) := by
  obtain ⟨htbl, hres⟩ := nextTable_of_present (show ¬ m.mem (tableFrame tbl) i % 2 = 0 by omega)
  refine ⟨?_, ?_, ?_, ?_⟩
  · rw [hres]
    exact hok.touch hp
  · rw [hres]
    exact sameRegs_touch m tbl
  · rw [hres, htbl]
    exact follow_link hok hp hlen hodd hleaf
  · rw [hres]
    exact fun q => rfl

/-- The entry is absent: the descent obtains a table and links it. -/
theorem nextTable_absent (hok : TablesOk m)
    (hp : tableAt x86Kind m.mem 3 m.root p = some (tableFrame tbl)) (hlen : p.length < 3)
    (he : m.mem (tableFrame tbl) i % 2 = 0)
    (hlog : TablesGranted (nextTable m tbl i).2) :
    Reached m (p ++ [i]) (nextTable m tbl i) := by
  obtain ⟨htbl, hres⟩ := nextTable_of_absent he
  rw [hres, tablesGranted_setEntry] at hlog
  obtain ⟨g, hg⟩ := allocPageTable_obtained hlog
  have hregs := sameRegs_allocPageTable (m.touch tbl)
  have haside := hg.setAside (hok.touch hp) hregs
  generalize allocPageTable (m.touch tbl) = r at hg hregs haside htbl hres ⊢
  have hroot : r.m.root = m.root := hregs.root
  have hp' : tableAt x86Kind r.m.mem 3 r.m.root p = some (tableFrame tbl) := by
    rw [hroot]
    exact (haside.tables p).trans hp
  have hne : tableFrame tbl ≠ g := by
    intro hc
    rw [hc] at hp'
    exact haside.spare.unlinked p hp'
  have he' : r.m.mem (tableFrame tbl) i % 2 = 0 := by
    rw [hg.mem]
    show (if tableFrame tbl = g then 0 else m.mem (tableFrame tbl) i) % 2 = 0
    rw [if_neg hne]
    exact he
  have hlinked := haside.spare.linked haside.ok hp' hlen he'
  have hentry : r.phys ||| pagePresent ||| pageRw = linkEntry g := by
    rw [hg.phys]
    exact link_or g
  rw [hentry] at hres
  refine ⟨?_, ?_, ?_, ?_⟩
  · rw [hres]
    exact hlinked.ok
  · rw [hres]
    exact ((sameRegs_touch m tbl).trans hregs).trans (sameRegs_setEntry _ _ _ _)
  · rw [hres, htbl, hg.frame, ← hroot]
    exact hlinked.table
  · intro q
    rw [hres, ← hroot, hlinked.walk q, hroot]
    exact haside.walk q

/-- One level of the descent, if the entry is not a 2 MiB leaf. -/
theorem nextTable_reached (hok : TablesOk m)
    (hp : tableAt x86Kind m.mem 3 m.root p = some (tableFrame tbl)) (hlen : p.length < 3)
    (hleaf : p.length = 2 → m.mem (tableFrame tbl) i % 2 = 1 →
      m.mem (tableFrame tbl) i / 128 % 2 = 0)
    (hlog : TablesGranted (nextTable m tbl i).2) :
    Reached m (p ++ [i]) (nextTable m tbl i) := by
  by_cases he : m.mem (tableFrame tbl) i % 2 = 0
  · exact nextTable_absent hok hp hlen he hlog
  · have hodd : m.mem (tableFrame tbl) i % 2 = 1 := by omega
    exact nextTable_present hok hp hlen hodd (fun h => hleaf h hodd)

end Descend

end Pfi
