import Pfi.Heap
import Pfi.StaleMappings
import Mathlib.Tactic.Ring

/-! # What memory holds beside the page tables

    The pager stores into memory only where it records that it does
    (`StoresTouched`), and in well-formed tables those frames hold tables; so
    what a block holds is the same after any call of the memory system
    (`TablesOk.kept`).

    A block is read and written through its translation, byte by byte.  Bytes
    written to addresses that are mapped in one piece are the bytes of the
    physical range (`writeBytes_mapped`), and reading gives these back
    (`loadBytes_mapped`). -/

namespace Pfi

open Words RadixTable Run

/-! ## Stores of the pager -/

/-- Memory differs in touched frames at most. -/
structure StoresTouched (m m' : Machine) : Prop where
  mono : ∀ f ∈ m.touched, f ∈ m'.touched
  kept : ∀ f, f ∉ m'.touched → ∀ i, m'.mem f i = m.mem f i

section Stores

variable {m m' : Machine}

/-- Nothing is stored. -/
theorem StoresTouched.refl (m : Machine) : StoresTouched m m := ⟨fun _ hf => hf, fun _ _ _ => rfl⟩

/-- One thing after the other. -/
theorem StoresTouched.trans {m'' : Machine} (h : StoresTouched m m') (h' : StoresTouched m' m'') :
    StoresTouched m m'' :=
  ⟨fun f hf => h'.mono f (h.mono f hf), fun f hf i =>
    (h'.kept f hf i).trans (h.kept f (fun hf' => hf (h'.mono f hf')) i)⟩

/-- What changes neither memory nor the record. -/
theorem StoresTouched.of_eq (hmem : m'.mem = m.mem) (htouched : m'.touched = m.touched) :
    StoresTouched m m' :=
  ⟨fun f hf => by rw [htouched]; exact hf, fun f _ i => by rw [hmem]⟩

/-- A read puts its table on record. -/
theorem storesTouched_touch (m : Machine) (tbl : Nat) : StoresTouched m (m.touch tbl) :=
  ⟨fun _ hf => List.mem_cons_of_mem _ hf, fun _ _ _ => rfl⟩

/-- A store puts its table on record. -/
theorem storesTouched_setEntry (m : Machine) (tbl : Nat) (i : Fin 512) (e : Nat) :
    StoresTouched m (m.setEntry tbl i e) := by
  refine ⟨fun _ hf => List.mem_cons_of_mem _ hf, fun f hf j => ?_⟩
  rw [setEntry_touched] at hf
  rw [setEntry_mem]
  exact store_of_ne_table (fun heq => hf (by rw [heq]; exact List.mem_cons_self))

/-- A new table is cleared, and is on record. -/
theorem storesTouched_allocPageTable (m : Machine) : StoresTouched m (allocPageTable m).m := by
  rcases allocPageTable_cases m with ⟨-, h⟩ | ⟨-, -, h⟩ | ⟨-, tbl, -, -, h⟩
  · rw [h]
    exact StoresTouched.of_eq rfl rfl
  · rw [h]
    exact StoresTouched.of_eq rfl rfl
  · rw [h]
    refine ⟨fun _ hf => List.mem_cons_of_mem _ hf, fun f hf i => if_neg ?_⟩
    rintro rfl
    exact hf List.mem_cons_self

/-- One level of the descent. -/
theorem storesTouched_nextTable (m : Machine) (tbl : Nat) (i : Fin 512) :
    StoresTouched m (nextTable m tbl i).2 := by
  by_cases he : m.mem (tableFrame tbl) i % 2 = 0
  · rw [(nextTable_of_absent he).2]
    exact ((storesTouched_touch m tbl).trans (storesTouched_allocPageTable _)).trans
      (storesTouched_setEntry _ _ _ _)
  · rw [(nextTable_of_present he).2]
    exact storesTouched_touch m tbl

/-- `pager_map` stores to tables on record only. -/
theorem storesTouched_pagerMap (m : Machine) (virt phys flags : Nat) :
    StoresTouched m (pagerMap m virt phys flags).2 := by
  have hpd : StoresTouched m (pageDirectory m virt).2 :=
    (storesTouched_nextTable _ _ _).trans (storesTouched_nextTable _ _ _)
  unfold pagerMap
  by_cases h : exceedsCpu m phys = true
  · rw [if_pos h]
    exact StoresTouched.refl m
  · rw [if_neg h]
    dsimp only
    split
    · exact hpd.trans (storesTouched_setEntry _ _ _ _)
    · exact (hpd.trans (storesTouched_nextTable _ _ _)).trans (storesTouched_setEntry _ _ _ _)

/-- So does a range. -/
theorem storesTouched_pagerMapRange (m : Machine) (virt phys size flags : Nat) :
    StoresTouched m (pagerMapRange m virt phys size flags) := by
  rw [pagerMapRange_eq_exec]
  exact exec_mapStep_invariant
    (fun m' c h => h.trans (storesTouched_pagerMap m' c.virt c.phys c.flags))
    (StoresTouched.refl m) _

/-- So does `pager_unmap`. -/
theorem storesTouched_pagerUnmap (m : Machine) (virt : Nat) :
    StoresTouched m (pagerUnmap m virt) := by
  unfold pagerUnmap
  extract_lets pml4 m4 e4 pdpt m3 e3 pd m2 e2 pt m1
  have h4 : StoresTouched m m4 := storesTouched_touch m pml4
  have h3 : StoresTouched m m3 := h4.trans (storesTouched_touch m4 pdpt)
  have h2 : StoresTouched m m2 := h3.trans (storesTouched_touch m3 pd)
  have h1 : StoresTouched m m1 := h2.trans (storesTouched_touch m2 pt)
  split_ifs
  · exact StoresTouched.refl m
  · exact h4
  · exact h3
  · exact h2.trans (storesTouched_setEntry _ _ _ _)
  · exact h2
  · exact h1.trans (storesTouched_setEntry _ _ _ _)

/-- So does an allocation. -/
theorem storesTouched_avmfAlloc (m : Machine) (size : Nat) (type : MemoryAllocType)
    (flags : Nat) : StoresTouched m (avmfAlloc m size type flags).m := by
  rcases @avmfAlloc_cases m size flags type _ _ _ rfl rfl rfl with
    ⟨-, h⟩ | ⟨-, -, h⟩ | ⟨-, -, -, h⟩ | ⟨-, -, -, h⟩
  · rw [h]
    exact StoresTouched.of_eq rfl rfl
  · rw [h]
    exact StoresTouched.of_eq rfl rfl
  · rw [h]
    exact StoresTouched.of_eq rfl rfl
  · rw [h]
    generalize (avmfAllocRegion _ _ _ _ _).2 = a
    have hstart : StoresTouched m { m with avmf := a } := StoresTouched.of_eq rfl rfl
    exact hstart.trans (storesTouched_pagerMapRange _ _ _ _ _)

/-- So does a free. -/
theorem storesTouched_avmfFree (m : Machine) (virt : Nat) :
    StoresTouched m (avmfFree m virt) := by
  unfold avmfFree
  rcases avmfFind_cases m.avmf virt with ⟨j, hfind, -, -⟩ | ⟨hfind, -⟩
  · rw [hfind]
    dsimp only
    generalize bitmapClearRun _ _ _ = b
    have hstart : StoresTouched m { m with avmf := { m.avmf with
        lastFound := some j
        avmfBitmap := b } } := StoresTouched.of_eq rfl rfl
    exact hstart.trans (storesTouched_pagerUnmap _ _)
  · rw [hfind]
    exact StoresTouched.of_eq rfl rfl

/-- Memory that holds no page table keeps its contents. -/
theorem TablesOk.kept (hok : TablesOk m') (h : StoresTouched m m') {f : Nat}
    (hf : f * 4096 ∉ m'.tableLog) (i : Fin 512) : m'.mem f i = m.mem f i :=
  h.kept f (fun ht => hf (hok.touched f ht)) i

end Stores

/-! ## Bytes -/

/-- A byte of physical memory. -/
def Machine.loadByte (m : Machine) (p : Nat) : Nat :=
  m.mem (p / pageSize) (tableIndex p 3) / 2 ^ (8 * (p % 8)) % 256

/-- The bytes from a physical address on. -/
def Machine.bytesAt (m : Machine) (p n : Nat) : List Nat :=
  (List.range n).map (fun i => m.loadByte (p + i))

/-- A byte at a virtual address; without a translation the read faults. -/
def Machine.readByte (m : Machine) (a : Nat) : Option Nat :=
  (m.translate a).map (fun t => m.loadByte t.1)

/-- Bytes at successive addresses. -/
def loadBytes (m : Machine) : (a n : Nat) → Option (List Nat)
  | _, 0 => some []
  | a, n + 1 => (m.readByte a).bind (fun v => (loadBytes m (add64 a 1) n).map (v :: ·))

/-- A 64-bit number from its bytes, the lowest first. -/
def word64 (bytes : List Nat) : Nat := bytes.foldr (fun b v => b + 256 * v) 0

/-- A word is what its bytes stand for. -/
theorem word64_bytes64 {v : Nat} (hv : v < 2 ^ 64) : word64 (bytes64 v) = v := by
  simp only [word64, bytes64, List.range, List.range.loop, List.map, List.foldr]
  omega

/-- They are bytes. -/
theorem bytes64_lt (v : Nat) : ∀ b ∈ bytes64 v, b < 256 := by
  intro b hb
  obtain ⟨k, -, rfl⟩ := List.mem_map.mp hb
  exact Nat.mod_lt _ (by decide)

/-- There are eight of them. -/
theorem length_bytes64 (v : Nat) : (bytes64 v).length = 8 := by
  simp [bytes64]

/-- The word above the byte, the new byte, and the word below it. -/
theorem setByte_eq (w k v : Nat) :
    setByte w k v = (w / 2 ^ (8 * k) / 256 * 256 + v) * 2 ^ (8 * k) + w % 2 ^ (8 * k) := by
  unfold setByte
  generalize 2 ^ (8 * k) = b
  have hword := Nat.div_add_mod w b
  have hbyte := Nat.div_add_mod (w / b) 256
  generalize w / b = q at hword hbyte ⊢
  generalize w % b = r at hword ⊢
  generalize q / 256 = h at hbyte ⊢
  generalize q % 256 = mid at hbyte ⊢
  have hsplit : w = mid * b + (h * 256 * b + r) := by
    rw [← hword, ← hbyte]
    ring
  rw [hsplit, Nat.add_sub_cancel_left]
  ring

/-- The other bytes of a word stay. -/
theorem setByte_byte {w k j v : Nat} (hv : v < 256) :
    setByte w k v / 2 ^ (8 * j) % 256 = if j = k then v else w / 2 ^ (8 * j) % 256 := by
  rw [setByte_eq]
  have hpos : ∀ n, 0 < 2 ^ (8 * n) := fun n => Nat.two_pow_pos _
  have hlow := Nat.mod_lt w (hpos k)
  rcases Nat.lt_trichotomy j k with hlt | rfl | hlt
  · -- a byte below
    obtain ⟨d, rfl⟩ : ∃ d, k = j + d + 1 := ⟨k - j - 1, by omega⟩
    have hsplit : 2 ^ (8 * (j + d + 1)) = 2 ^ (8 * j) * (256 * 2 ^ (8 * d)) := by
      rw [show 8 * (j + d + 1) = 8 * j + (8 + 8 * d) by omega, Nat.pow_add, Nat.pow_add]
    have hbelow : ∀ y r, (y * 2 ^ (8 * (j + d + 1)) + r) / 2 ^ (8 * j) % 256
        = r / 2 ^ (8 * j) % 256 := by
      intro y r
      rw [hsplit, show y * (2 ^ (8 * j) * (256 * 2 ^ (8 * d))) + r
          = r + y * 2 ^ (8 * d) * 256 * 2 ^ (8 * j) by ring,
        Nat.add_mul_div_right _ _ (hpos j), Nat.add_mul_mod_self_right]
    rw [if_neg (by omega), hbelow]
    have hword := hbelow (w / 2 ^ (8 * (j + d + 1))) (w % 2 ^ (8 * (j + d + 1)))
    rw [Nat.mul_comm, Nat.div_add_mod] at hword
    exact hword.symm
  · rw [if_pos rfl, Nat.add_comm, Nat.add_mul_div_right _ _ (hpos j), Nat.div_eq_of_lt hlow]
    omega
  · obtain ⟨d, rfl⟩ : ∃ d, j = k + d + 1 := ⟨j - k - 1, by omega⟩
    have hsplit : 2 ^ (8 * (k + d + 1)) = 2 ^ (8 * k) * (256 * 2 ^ (8 * d)) := by
      rw [show 8 * (k + d + 1) = 8 * k + (8 + 8 * d) by omega, Nat.pow_add, Nat.pow_add]
    rw [if_neg (by omega), hsplit, ← Nat.div_div_eq_div_mul, ← Nat.div_div_eq_div_mul,
      ← Nat.div_div_eq_div_mul, ← Nat.div_div_eq_div_mul, Nat.add_comm,
      Nat.add_mul_div_right _ _ (hpos k), Nat.div_eq_of_lt hlow, Nat.zero_add,
      show (w / 2 ^ (8 * k) / 256 * 256 + v) / 256 = w / 2 ^ (8 * k) / 256 by omega]

/-- Two addresses in one place of memory are equal. -/
theorem physical_eq {p q : Nat} (hframe : p / pageSize = q / pageSize)
    (hindex : tableIndex p 3 = tableIndex q 3) (hbyte : p % 8 = q % 8) : p = q := by
  rw [tableIndex_eq, tableIndex_eq, ofNat512_inj] at hindex
  simp only [pageSize] at hframe
  omega

/-- A stored byte is loaded, and the others stay. -/
theorem loadByte_storeByte (m : Machine) (p q : Nat) {v : Nat} (hv : v < 256) :
    (m.storeByte p v).loadByte q = if q = p then v else m.loadByte q := by
  unfold Machine.storeByte Machine.loadByte
  dsimp only
  by_cases hword : q / pageSize = p / pageSize ∧ tableIndex q 3 = tableIndex p 3
  · rw [hword.1, hword.2, store_self, setByte_byte hv]
    by_cases heq : q = p
    · rw [if_pos heq, if_pos (by rw [heq])]
    · rw [if_neg heq, if_neg (fun hb => heq (physical_eq hword.1 hword.2 hb))]
  · have hne : q ≠ p := by
      rintro rfl
      exact hword ⟨rfl, rfl⟩
    rw [if_neg hne]
    congr 2
    by_cases hframe : q / pageSize = p / pageSize
    · rw [hframe]
      exact if_neg (fun hc => hword ⟨hframe, hc.2⟩)
    · exact store_of_ne_table hframe

/-! ## Addresses that are mapped in one piece -/

/-- `n` addresses from `a` on are translated to those from `p` on. -/
def MappedTo (m : Machine) (a p n : Nat) : Prop :=
  ∀ i, i < n → (m.translate (a + i)).map Prod.fst = some (p + i)

section Mapped

variable {m : Machine} {a p n : Nat}

/-- The first byte of a range. -/
theorem MappedTo.first (h : MappedTo m a p (n + 1)) :
    (m.translate a).map Prod.fst = some p :=
  h 0 (Nat.succ_pos n)

/-- The bytes behind it. -/
theorem MappedTo.rest (h : MappedTo m a p (n + 1)) : MappedTo m (a + 1) (p + 1) n := by
  intro i hi
  have hnext := h (i + 1) (Nat.succ_lt_succ hi)
  rw [show a + (i + 1) = a + 1 + i by omega, show p + (i + 1) = p + 1 + i by omega] at hnext
  exact hnext

/-- Part of the range. -/
theorem MappedTo.part {o k : Nat} (h : MappedTo m a p n) (hk : o + k ≤ n) :
    MappedTo m (a + o) (p + o) k := by
  intro i hi
  rw [Nat.add_assoc, Nat.add_assoc]
  exact h (o + i) (by omega)

/-- Only the translations matter. -/
theorem MappedTo.congr {m' : Machine} (h : MappedTo m a p n)
    (hsame : ∀ b, m'.translate b = m.translate b) : MappedTo m' a p n := by
  intro i hi
  rw [hsame]
  exact h i hi

/-- A read of a mapped byte does not fault. -/
theorem readByte_mapped (h : (m.translate a).map Prod.fst = some p) :
    m.readByte a = some (m.loadByte p) := by
  obtain ⟨t, ht, rfl⟩ := Option.map_eq_some_iff.mp h
  unfold Machine.readByte
  rw [ht]
  rfl

/-- Reading gives the bytes of the physical range. -/
theorem loadBytes_mapped (h : MappedTo m a p n) (hend : a + n < 2 ^ 64) :
    loadBytes m a n = some (m.bytesAt p n) := by
  induction n generalizing a p with
  | zero => rfl
  | succ n ih =>
      unfold loadBytes Machine.bytesAt
      rw [readByte_mapped h.first, Option.bind_some, add64_of_lt (by omega),
        ih h.rest (by omega), List.range_succ_eq_map, List.map_cons, List.map_map]
      refine congrArg some (congrArg _ (List.map_congr_left (fun i _ => ?_)))
      show m.loadByte (p + 1 + i) = m.loadByte (p + (i + 1))
      rw [show p + 1 + i = p + (i + 1) by omega]

/-- What memory holds after bytes were written from `p` on. -/
def Written (m : Machine) (p : Nat) (vs : List Nat) (m' : Machine) : Prop :=
  ∀ q, m'.loadByte q = if p ≤ q ∧ q < p + vs.length then vs.getD (q - p) 0 else m.loadByte q

/-- The bytes depend on their own addresses only. -/
theorem bytesAt_congr {m' : Machine}
    (h : ∀ q, p ≤ q → q < p + n → m'.loadByte q = m.loadByte q) :
    m'.bytesAt p n = m.bytesAt p n := by
  refine List.map_congr_left (fun i hi => ?_)
  have hi := List.mem_range.mp hi
  exact h (p + i) (by omega) (by omega)

/-- Bytes beside the ones written. -/
theorem Written.bytesAt_apart {m' : Machine} {vs : List Nat} {q : Nat} (h : Written m p vs m')
    (hapart : q + n ≤ p ∨ p + vs.length ≤ q) : m'.bytesAt q n = m.bytesAt q n := by
  refine bytesAt_congr (fun r hlo hhi => ?_)
  rw [h r, if_neg (by omega)]

/-- Bytes that were written. -/
theorem Written.bytesAt {m' : Machine} {pre vs post : List Nat}
    (h : Written m p (pre ++ vs ++ post) m') : m'.bytesAt (p + pre.length) vs.length = vs := by
  refine List.ext_getElem (by simp [Machine.bytesAt]) (fun i hi hi' => ?_)
  have hlen : (pre ++ vs ++ post).length = pre.length + vs.length + post.length := by
    rw [List.length_append, List.length_append]
  have hbyte : (m'.bytesAt (p + pre.length) vs.length)[i]
      = m'.loadByte (p + pre.length + i) := by simp [Machine.bytesAt]
  rw [hbyte, h, if_pos (by omega),
    show p + pre.length + i - p = pre.length + i by omega,
    List.getD_append _ _ _ _ (by rw [List.length_append]; omega),
    List.getD_append_right _ _ _ _ (Nat.le_add_right _ _), Nat.add_sub_cancel_left,
    List.getD_eq_getElem _ _ hi']

/-- Writing stores the bytes in the physical range, when that holds no page
    table.  The induction is on the bytes: the translations stay. -/
theorem writeBytes_mapped {vs : List Nat} (hok : TablesOk m) (hroot : m.cr3 / pageSize = m.root)
    (h : MappedTo m a p vs.length) (hend : a + vs.length < 2 ^ 64) (hbytes : ∀ v ∈ vs, v < 256)
    (hout : ∀ i, i < vs.length → ∀ x ∈ m.tableLog, x / pageSize ≠ (p + i) / pageSize) :
    ∃ m', writeBytes m a vs = some m' ∧ SameTables m m' ∧ Written m p vs m' := by
  induction vs generalizing m a p with
  | nil => exact ⟨m, rfl, SameTables.refl m, fun q => (if_neg (by simp)).symm⟩
  | cons v vs ih =>
      obtain ⟨t, ht, rfl⟩ := Option.map_eq_some_iff.mp h.first
      have hsame := storeByte_sameTables (hout 0 (Nat.succ_pos _)) v
      rw [Nat.add_zero] at hsame
      have hload := loadByte_storeByte m t.1 (v := v)
      have hbyte : m.writeByte a v = some (m.storeByte t.1 v) := by
        unfold Machine.writeByte
        rw [ht]
        rfl
      generalize m.storeByte t.1 v = m₁ at hsame hload hbyte
      have hregs := hsame.regs
      rw [List.length_cons] at hend
      obtain ⟨m', hwrite, hsame', hwritten⟩ := ih (m := m₁) (hsame.tablesOk hok)
        (by rw [hregs.cr3, hregs.root]; exact hroot)
        (h.rest.congr (hsame.translate hok hroot)) (by omega)
        (fun w hw => hbytes w (List.mem_cons_of_mem v hw)) (by
          intro i hi x hx
          rw [hsame.tableLog] at hx
          have hnext := hout (i + 1) (Nat.succ_lt_succ hi) x hx
          rw [show t.1 + 1 + i = t.1 + (i + 1) by omega]
          exact hnext)
      refine ⟨m', ?_, hsame.trans hsame', fun q => ?_⟩
      · unfold writeBytes
        rw [hbyte, Option.bind_some, add64_of_lt (by omega)]
        exact hwrite
      · rw [hwritten q, hload q (hbytes v List.mem_cons_self), List.length_cons]
        by_cases hfirst : q = t.1
        · subst hfirst
          rw [if_neg (by omega), if_pos rfl, if_pos ⟨Nat.le_refl _, by omega⟩, Nat.sub_self]
          rfl
        · rw [if_neg hfirst]
          by_cases hin : t.1 + 1 ≤ q ∧ q < t.1 + 1 + vs.length
          · obtain ⟨k, rfl⟩ : ∃ k, q = t.1 + 1 + k := ⟨q - (t.1 + 1), by omega⟩
            rw [if_pos hin, if_pos ⟨by omega, by omega⟩, Nat.add_sub_cancel_left,
              show t.1 + 1 + k - t.1 = k + 1 by omega]
            rfl
          · rw [if_neg hin, if_neg (by omega)]

end Mapped

end Pfi
