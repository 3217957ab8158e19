import Pfi.Idt
import Pfi.PagerTables

/-! # The tables of the boot code

    `init_pm` of `entry.asm` clears three pages with `rep stosd`, links the
    PML4 to a PDPT and the PDPT to a page directory, and fills the directory
    with 512 leaves of 2 MiB in a loop of doubleword stores.  In between it reads
    CR4 and CR3 back into two words for debugging.  Paging is turned on under
    these tables and they stay in force until `pager_load`.

    A run of stores is an array (`storeAll`): each of its values is found at
    its place and nothing else is changed.  Both loops of the code are such runs
    (`repStosd_eq`, `fillPdLoop_eq`), so every entry of the three pages is known
    whatever memory held before (`boot_pml4`, `boot_pdpt`, `boot_pd0`), and the
    walk over them is the identity below 1 GiB and finds nothing above
    (`boot_identity_map`).  The code itself is linked at `0xFF000000`, where the
    walk finds nothing. -/

namespace ByteStore

/-! ## Arrays of stores -/

/-- Store the values one behind the other, in `n` bytes each. -/
def storeAll (m : Mem) (a : Addr) (n : Nat) : List Nat → Mem
  | [] => m
  | v :: vs => storeAll (store m a n v) (a + BitVec.ofNat 64 n) n vs

section StoreAll

variable {m : Mem} {a : Addr} {n : Nat} {vs : List Nat}

/-- The bytes outside of the array stay. -/
theorem storeAll_apart {p : Addr} (hlen : n * vs.length ≤ 2 ^ 64)
    (hp : ¬ Range.Has ⟨a, n * vs.length⟩ p) : storeAll m a n vs p = m p := by
  induction vs generalizing m a with
  | nil => rfl
  | cons v vs ih =>
      rw [List.length_cons, Nat.mul_succ] at hlen hp
      generalize hk : n * vs.length = k at hlen hp ih
      unfold storeAll
      rw [ih (by omega) ?_]
      · refine store_apart (fun hc => hp ?_)
        unfold Range.Has at *
        dsimp only at *
        omega
      · intro hc
        refine hp ?_
        unfold Range.Has at *
        dsimp only at *
        bv_omega

/-- Each value is found at its place. -/
theorem load_storeAll {i : Nat} (hlen : n * vs.length ≤ 2 ^ 64) (hi : i < vs.length) :
    load (storeAll m a n vs) (a + BitVec.ofNat 64 (n * i)) n = vs.getD i 0 % 256 ^ n := by
  induction vs generalizing m a i with
  | nil => exact absurd hi (Nat.not_lt_zero i)
  | cons v vs ih =>
      rw [List.length_cons, Nat.mul_succ] at hlen
      rw [List.length_cons] at hi
      unfold storeAll
      cases i with
      | zero =>
          have hn : n ≤ 2 ^ 64 := by omega
          rw [Nat.mul_zero, BitVec.add_zero, List.getD_cons_zero, ← load_store hn v]
          -- the later values lie behind this one
          refine load_eq_of_eqOn hn (fun p hp => storeAll_apart (by omega) (fun hc => ?_))
          generalize n * vs.length = k at *
          unfold Range.Has at *
          dsimp only at *
          bv_omega
      | succ i =>
          have hrest := @ih (store m a n v) (a + BitVec.ofNat 64 n) i (by omega)
            (Nat.lt_of_succ_lt_succ hi)
          have hplace : a + BitVec.ofNat 64 (n * (i + 1))
              = a + BitVec.ofNat 64 n + BitVec.ofNat 64 (n * i) := by
            rw [BitVec.add_assoc, ← BitVec.ofNat_add, Nat.mul_succ, Nat.add_comm]
          rw [List.getD_cons_succ, ← hrest, hplace]

/-- An array of zeros. -/
theorem storeAll_zeros {k : Nat} {p : Addr} (hlen : n * k ≤ 2 ^ 64) :
    storeAll m a n (List.replicate k 0) p = if Range.Has ⟨a, n * k⟩ p then 0 else m p := by
  by_cases hp : Range.Has ⟨a, n * k⟩ p
  · rw [if_pos hp]
    induction k generalizing m a with
    | zero => exact absurd hp (Nat.not_lt_zero _)
    | succ k ih =>
        rw [Nat.mul_succ] at hlen hp
        rw [List.replicate_succ]
        unfold storeAll
        by_cases hrest : Range.Has ⟨a + BitVec.ofNat 64 n, n * k⟩ p
        · exact ih (by omega) hrest
        · rw [storeAll_apart (by rw [List.length_replicate]; omega)
            (by rw [List.length_replicate]; exact hrest)]
          have hfirst : (p - a).toNat < n := by
            generalize n * k = j at *
            unfold Range.Has at *
            dsimp only at *
            bv_omega
          unfold store
          dsimp only
          rw [if_pos hfirst, Nat.zero_div]
          rfl
  · rw [if_neg hp]
    exact storeAll_apart (by rw [List.length_replicate]; exact hlen)
      (by rw [List.length_replicate]; exact hp)

/-- The low half and a high half of zeros. -/
theorem store_store_zero {v : Nat} (hv : v < 2 ^ 32) :
    store (store m a 4 v) (a + 4) 4 0 = store m a 8 v := by
  funext p
  unfold store
  dsimp only
  by_cases hlow : (p - a).toNat < 4
  · have hhigh : ¬ (p - (a + 4)).toNat < 4 := by bv_omega
    rw [if_neg hhigh, if_pos hlow, if_pos (by omega)]
  · rw [if_neg hlow]
    by_cases hin : (p - a).toNat < 8
    · have hhigh : (p - (a + 4)).toNat < 4 := by bv_omega
      have hle : 256 ^ 4 ≤ 256 ^ (p - a).toNat := Nat.pow_le_pow_right (by decide) (by omega)
      rw [if_pos hhigh, if_pos hin, Nat.zero_div, Nat.div_eq_of_lt (Nat.lt_of_lt_of_le hv hle)]
    · have hhigh : ¬ (p - (a + 4)).toNat < 4 := by bv_omega
      rw [if_neg hhigh, if_neg hin]

/-- A load of zeros. -/
theorem load_zeros (h : ∀ i, i < n → m (a + BitVec.ofNat 64 i) = 0) : load m a n = 0 := by
  have hload := @load_of_bytes m a n 0 (fun i hi => by rw [h i hi, Nat.zero_div]; rfl)
  rw [hload, Nat.zero_mod]

end StoreAll

end ByteStore

namespace Pfi

open ByteStore Words

/-! ## The code -/

/-- A page of memory. -/
def pageAt (page : BitVec 32) : Range := ⟨page.setWidth 64, 4096⟩

/-- The doubleword at an address. -/
def dwordAt (a : BitVec 32) : Range := ⟨a.setWidth 64, 4⟩

/-- The three pages of `.pagetables`: aligned and apart, also from the words
    that `init_pm` reads the control registers back to. -/
structure BootPages where
  pml4 : BitVec 32
  pdpt : BitVec 32
  pd0 : BitVec 32
  cr4Rb : BitVec 32
  cr3Rb : BitVec 32
  pml4_aligned : pml4.toNat % 4096 = 0
  pdpt_aligned : pdpt.toNat % 4096 = 0
  pd0_aligned : pd0.toNat % 4096 = 0
  pml4_ne_pdpt : pml4 ≠ pdpt
  pml4_ne_pd0 : pml4 ≠ pd0
  pdpt_ne_pd0 : pdpt ≠ pd0
  debug_apart : ∀ page ∈ [pml4, pdpt, pd0],
    (dwordAt cr4Rb).Apart (pageAt page) ∧ (dwordAt (cr3Rb + 4)).Apart (pageAt page)

/-- `mov [edi], eax`. -/
def movDword (m : Mem) (edi eax : BitVec 32) : Mem := store m (edi.setWidth 64) 4 eax.toNat

/-- `rep stosd`. -/
def repStosd (m : Mem) (edi eax : BitVec 32) : (ecx : Nat) → Mem
  | 0 => m
  | ecx + 1 => repStosd (movDword m edi eax) (edi + 4) eax ecx

/-- `.fill_pd_loop`. -/
def fillPdLoop (m : Mem) (edi ebx : BitVec 32) : (ecx : Nat) → Mem
  | 0 => m
  | ecx + 1 =>
      let eax := ebx ||| 0x83
      let m := movDword m edi eax
      let edi := edi + 4
      let m := movDword m edi 0
      let edi := edi + 4
      fillPdLoop m edi (ebx + 0x200000) ecx

/-- The stores of `init_pm`, which finds the value `cr4` in CR4. -/
def initPm (m : Mem) (t : BootPages) (cr4 : BitVec 32) : Mem :=
  let m := repStosd m t.pml4 0 (4096 / 4)
  let m := repStosd m t.pdpt 0 (4096 / 4)
  let m := repStosd m t.pd0 0 (4096 / 4)
  let m := movDword m t.cr4Rb (cr4 ||| 1 <<< 5)
  let m := movDword m t.pml4 (t.pdpt ||| 3)
  let m := movDword m (t.pml4 + 4) 0
  let m := movDword m t.pdpt (t.pd0 ||| 3)
  let m := movDword m (t.pdpt + 4) 0
  let m := fillPdLoop m t.pd0 0 512
  -- CR3 has been loaded with the PML4
  movDword m (t.cr3Rb + 4) t.pml4

/-- The tables that the processor finds in the bytes of memory. -/
def tablesOf (m : Mem) (f : Nat) (i : Fin 512) : Nat :=
  load m (BitVec.ofNat 64 (4096 * f + 8 * i.val)) 8

/-- The bytes of the three pages. -/
def BootPages.Has (t : BootPages) (p : Addr) : Prop :=
  (pageAt t.pml4).Has p ∨ (pageAt t.pdpt).Has p ∨ (pageAt t.pd0).Has p

instance (t : BootPages) (p : Addr) : Decidable (t.Has p) := inferInstanceAs (Decidable (_ ∨ _))

/-- The bytes of the words for debugging: that at `cr4_rb`, and the one behind
    that at `cr3_rb`. -/
def BootPages.Debug (t : BootPages) (p : Addr) : Prop :=
  (dwordAt t.cr4Rb).Has p ∨ (dwordAt (t.cr3Rb + 4)).Has p

/-- Where the linker script puts `.text`, the code of `init_pm` included. -/
abbrev textBase : Nat := 0xFF000000

/-! ## The loops are arrays of stores -/

section Loops

variable {m : Mem} {edi eax ebx page page' : BitVec 32} {n : Nat}

theorem pages_apart (h : page.toNat % 4096 = 0) (h' : page'.toNat % 4096 = 0)
    (hne : page ≠ page') : (pageAt page).Apart (pageAt page') := by
  intro p hp hp'
  have hne' : page.toNat ≠ page'.toNat := fun hc => hne (BitVec.eq_of_toNat_eq hc)
  have hlt := page.isLt
  have hlt' := page'.isLt
  unfold pageAt Range.Has at hp hp'
  dsimp only at hp hp'
  bv_omega

theorem movDword_pair (h : edi.toNat + 4 < 2 ^ 32) :
    movDword (movDword m edi eax) (edi + 4) 0 = store m (edi.setWidth 64) 8 eax.toNat := by
  have hnext : (edi + 4).setWidth 64 = edi.setWidth 64 + 4 := by bv_omega
  unfold movDword
  rw [hnext]
  exact store_store_zero eax.isLt

theorem repStosd_eq (h : edi.toNat + 4 * n ≤ 2 ^ 32) :
    repStosd m edi eax n = storeAll m (edi.setWidth 64) 4 (List.replicate n eax.toNat) := by
  induction n generalizing m edi with
  | zero => rfl
  | succ n ih =>
      rw [List.replicate_succ]
      unfold repStosd storeAll
      cases n with
      | zero => rfl
      | succ n =>
          have hnext : (edi + 4).setWidth 64 = edi.setWidth 64 + BitVec.ofNat 64 4 := by bv_omega
          rw [ih (by bv_omega), hnext]
          rfl

/-- The entries that the loop writes. -/
def pdEntries (ebx : BitVec 32) (n : Nat) : List Nat :=
  (List.range n).map (fun i => (ebx + BitVec.ofNat 32 (0x200000 * i) ||| 0x83).toNat)

theorem pdEntries_succ :
    pdEntries ebx (n + 1) = (ebx ||| 0x83).toNat :: pdEntries (ebx + 0x200000) n := by
  unfold pdEntries
  rw [List.range_succ_eq_map, List.map_cons, List.map_map]
  refine congrArg₂ List.cons ?_ (List.map_congr_left (fun i _ => ?_))
  · rw [Nat.mul_zero, BitVec.add_zero]
  · have hnext : ebx + BitVec.ofNat 32 (0x200000 * (i + 1))
        = ebx + 0x200000 + BitVec.ofNat 32 (0x200000 * i) := by
      rw [Nat.mul_succ, BitVec.ofNat_add, BitVec.add_comm (BitVec.ofNat 32 _), BitVec.add_assoc]
      rfl
    rw [Function.comp_apply, Nat.succ_eq_add_one, hnext]

theorem fillPdLoop_eq (h : edi.toNat + 8 * n ≤ 2 ^ 32) :
    fillPdLoop m edi ebx n = storeAll m (edi.setWidth 64) 8 (pdEntries ebx n) := by
  induction n generalizing m edi ebx with
  | zero => rfl
  | succ n ih =>
      have hpair := @movDword_pair m edi (ebx ||| 0x83) (by omega)
      rw [pdEntries_succ]
      unfold fillPdLoop storeAll
      dsimp only
      rw [hpair]
      cases n with
      | zero => rfl
      | succ n =>
          have hnext : (edi + 4 + 4).setWidth 64 = edi.setWidth 64 + BitVec.ofNat 64 8 := by
            bv_omega
          rw [ih (by bv_omega), hnext]

end Loops

/-! ## The entries -/

section Entries

variable {m : Mem} {t : BootPages} {cr4 : BitVec 32} {p : Addr}

/-- The pages after they were cleared. -/
def cleared (m : Mem) (t : BootPages) : Mem :=
  repStosd (repStosd (repStosd m t.pml4 0 (4096 / 4)) t.pdpt 0 (4096 / 4)) t.pd0 0 (4096 / 4)

theorem repStosd_page {page : BitVec 32} (h : page.toNat % 4096 = 0) :
    repStosd m page 0 (4096 / 4) p = if (pageAt page).Has p then 0 else m p := by
  have hlt := page.isLt
  rw [repStosd_eq (by omega)]
  exact storeAll_zeros (by decide)

theorem cleared_byte : cleared m t p = if t.Has p then 0 else m p := by
  unfold cleared
  rw [repStosd_page t.pd0_aligned, repStosd_page t.pdpt_aligned, repStosd_page t.pml4_aligned]
  by_cases h2 : (pageAt t.pd0).Has p
  · have hin : t.Has p := Or.inr (Or.inr h2)
    rw [if_pos h2, if_pos hin]
  · rw [if_neg h2]
    by_cases h3 : (pageAt t.pdpt).Has p
    · have hin : t.Has p := Or.inr (Or.inl h3)
      rw [if_pos h3, if_pos hin]
    · rw [if_neg h3]
      by_cases h4 : (pageAt t.pml4).Has p
      · have hin : t.Has p := Or.inl h4
        rw [if_pos h4, if_pos hin]
      · have hout : ¬ t.Has p := fun hc => hc.elim h4 (fun hc => hc.elim h3 h2)
        rw [if_neg h4, if_neg hout]

/-- The cleared pages, with CR4 read back. -/
def marked (m : Mem) (t : BootPages) (cr4 : BitVec 32) : Mem :=
  movDword (cleared m t) t.cr4Rb (cr4 ||| 1 <<< 5)

/-- The words for debugging are in no page. -/
theorem debug_out (hp : t.Has p) :
    ¬ (dwordAt t.cr4Rb).Has p ∧ ¬ (dwordAt (t.cr3Rb + 4)).Has p := by
  have hpage : ∃ page ∈ [t.pml4, t.pdpt, t.pd0], (pageAt page).Has p := by
    rcases hp with hp | hp | hp
    · exact ⟨t.pml4, List.mem_cons_self, hp⟩
    · exact ⟨t.pdpt, List.mem_cons_of_mem _ List.mem_cons_self, hp⟩
    · exact ⟨t.pd0, List.mem_cons_of_mem _ (List.mem_cons_of_mem _ List.mem_cons_self), hp⟩
  obtain ⟨page, hmem, hpage⟩ := hpage
  obtain ⟨hcr4, hcr3⟩ := t.debug_apart page hmem
  exact ⟨fun hc => hcr4 p hc hpage, fun hc => hcr3 p hc hpage⟩

theorem marked_byte (hp : t.Has p) : marked m t cr4 p = 0 := by
  unfold marked movDword
  rw [store_apart (debug_out hp).1, cleared_byte, if_pos hp]

/-- The tables when they are complete, before CR3 is read back. -/
def built (m : Mem) (t : BootPages) (cr4 : BitVec 32) : Mem :=
  storeAll (store (store (marked m t cr4) (t.pml4.setWidth 64) 8 (t.pdpt ||| 3).toNat)
    (t.pdpt.setWidth 64) 8 (t.pd0 ||| 3).toNat) (t.pd0.setWidth 64) 8 (pdEntries 0 512)

/-- The boot code as three stores behind the clearing, and the word behind. -/
theorem initPm_eq : initPm m t cr4 = movDword (built m t cr4) (t.cr3Rb + 4) t.pml4 := by
  have h4 := t.pml4.isLt
  have h3 := t.pdpt.isLt
  have h2 := t.pd0.isLt
  have ha4 := t.pml4_aligned
  have ha3 := t.pdpt_aligned
  have ha2 := t.pd0_aligned
  unfold initPm built marked cleared
  dsimp only
  rw [movDword_pair (by omega), movDword_pair (by omega), fillPdLoop_eq (by omega)]

/-- Reading CR3 back leaves the pages. -/
theorem initPm_page (hp : t.Has p) : initPm m t cr4 p = built m t cr4 p := by
  rw [initPm_eq]
  exact store_apart (debug_out hp).2

/-- The place of an entry of a page. -/
def entryAt (page : BitVec 32) (i : Fin 512) : Addr :=
  page.setWidth 64 + BitVec.ofNat 64 (8 * i.val)

theorem tablesOf_page {page : BitVec 32} (h : page.toNat % 4096 = 0) (i : Fin 512) :
    tablesOf m (page.toNat / 4096) i = load m (entryAt page i) 8 := by
  have hlt := page.isLt
  have hi := i.isLt
  unfold tablesOf entryAt
  have hplace : BitVec.ofNat 64 (4096 * (page.toNat / 4096) + 8 * i.val)
      = page.setWidth 64 + BitVec.ofNat 64 (8 * i.val) := by bv_omega
  rw [hplace]

/-- An entry lies in its page. -/
theorem entry_sub (page : BitVec 32) (i : Fin 512) :
    Range.Sub ⟨entryAt page i, 8⟩ (pageAt page) := by
  intro p hp
  have hi := i.isLt
  unfold entryAt pageAt Range.Has at *
  dsimp only at *
  bv_omega

theorem entry_ne (page : BitVec 32) {i j : Fin 512} (h : i ≠ j) :
    Range.Apart ⟨entryAt page i, 8⟩ ⟨entryAt page j, 8⟩ := by
  have hi := i.isLt
  have hj := j.isLt
  have hne : i.val ≠ j.val := fun hc => h (Fin.ext hc)
  exact fields_apart (by omega) (by omega) (by omega)

/-- An entry that was cleared. -/
theorem load_marked {page : BitVec 32} {i : Fin 512}
    (h : ∀ p, (pageAt page).Has p → t.Has p) : load (marked m t cr4) (entryAt page i) 8 = 0 := by
  refine load_zeros (fun k hk => marked_byte (h _ (entry_sub page i _ ?_)))
  unfold Range.Has
  dsimp only
  bv_omega

/-- Entries of different pages. -/
theorem entries_apart {page page' : BitVec 32} (h : page.toNat % 4096 = 0)
    (h' : page'.toNat % 4096 = 0) (hne : page ≠ page') (i j : Fin 512) :
    Range.Apart ⟨entryAt page i, 8⟩ ⟨entryAt page' j, 8⟩ :=
  fun p hp hp' => pages_apart h h' hne p (entry_sub page i p hp) (entry_sub page' j p hp')

theorem entryAt_zero (page : BitVec 32) : page.setWidth 64 = entryAt page 0 := by
  unfold entryAt
  simp

/-- The entry that links to a page. -/
theorem or_three {page : BitVec 32} (h : page.toNat % 4096 = 0) :
    (page ||| 3).toNat = linkEntry (page.toNat / 4096) := by
  have hpage : page.toNat = page.toNat / 4096 * 2 ^ 12 := by omega
  unfold linkEntry
  rw [BitVec.toNat_or]
  calc page.toNat ||| 3 = page.toNat / 4096 * 2 ^ 12 ||| 3 := by rw [← hpage]
    _ = page.toNat / 4096 * 2 ^ 12 + 3 := mul_or_of_lt (by decide)

theorem length_pdEntries (ebx : BitVec 32) (n : Nat) : (pdEntries ebx n).length = n := by
  unfold pdEntries
  rw [List.length_map, List.length_range]

/-- The entries of the directory do not reach the other pages. -/
theorem load_storeAll_pd0 {page : BitVec 32} (h : page.toNat % 4096 = 0) (hne : page ≠ t.pd0)
    (i : Fin 512) :
    load (storeAll m (t.pd0.setWidth 64) 8 (pdEntries 0 512)) (entryAt page i) 8
      = load m (entryAt page i) 8 := by
  refine load_eq_of_eqOn (by decide) (fun p hp => storeAll_apart ?_ (fun hc => ?_))
  · rw [length_pdEntries]
    decide
  · rw [length_pdEntries] at hc
    exact pages_apart h t.pd0_aligned hne p (entry_sub page i p hp) hc

/-- An entry of the three pages. -/
theorem tablesOf_initPm {page : BitVec 32} (h : page.toNat % 4096 = 0)
    (hin : ∀ p, (pageAt page).Has p → t.Has p) (i : Fin 512) :
    tablesOf (initPm m t cr4) (page.toNat / 4096) i
      = load (built m t cr4) (entryAt page i) 8 := by
  rw [tablesOf_page h]
  exact load_eq_of_eqOn (by decide) (fun p hp => initPm_page (hin p (entry_sub page i p hp)))

/-- The PML4 links to the PDPT. -/
theorem boot_pml4 (i : Fin 512) : tablesOf (initPm m t cr4) (t.pml4.toNat / 4096) i
    = if i = 0 then linkEntry (t.pdpt.toNat / 4096) else 0 := by
  have hpdpt := t.pdpt.isLt
  rw [tablesOf_initPm t.pml4_aligned (fun _ => Or.inl)]
  unfold built
  rw [load_storeAll_pd0 t.pml4_aligned t.pml4_ne_pd0,
    entryAt_zero t.pdpt, load_store_apart (by decide)
      (entries_apart t.pdpt_aligned t.pml4_aligned t.pml4_ne_pdpt.symm 0 i), entryAt_zero t.pml4]
  by_cases hi : i = 0
  · rw [if_pos hi, hi, load_store (by decide), or_three t.pdpt_aligned]
    unfold linkEntry
    omega
  · rw [if_neg hi, load_store_apart (by decide) (entry_ne t.pml4 (Ne.symm hi)),
      load_marked (fun p hp => Or.inl hp)]

/-- The PDPT links to the directory. -/
theorem boot_pdpt (i : Fin 512) : tablesOf (initPm m t cr4) (t.pdpt.toNat / 4096) i
    = if i = 0 then linkEntry (t.pd0.toNat / 4096) else 0 := by
  have hpd0 := t.pd0.isLt
  rw [tablesOf_initPm t.pdpt_aligned (fun _ hp => Or.inr (Or.inl hp))]
  unfold built
  rw [load_storeAll_pd0 t.pdpt_aligned t.pdpt_ne_pd0,
    entryAt_zero t.pdpt]
  by_cases hi : i = 0
  · rw [if_pos hi, hi, load_store (by decide), or_three t.pd0_aligned]
    unfold linkEntry
    omega
  · rw [if_neg hi, load_store_apart (by decide) (entry_ne t.pdpt (Ne.symm hi)),
      entryAt_zero t.pml4, load_store_apart (by decide)
        (entries_apart t.pml4_aligned t.pdpt_aligned t.pml4_ne_pdpt 0 i),
      load_marked (fun p hp => Or.inr (Or.inl hp))]

/-- A leaf of the directory. -/
theorem pdEntry {i : Nat} (hi : i < 512) :
    (0 + BitVec.ofNat 32 (0x200000 * i) ||| 0x83 : BitVec 32).toNat = 0x200000 * i + 0x83 := by
  have hbase : (0 + BitVec.ofNat 32 (0x200000 * i) : BitVec 32)
      = BitVec.ofNat 32 (0x200000 * i) := BitVec.zero_add _
  rw [hbase, BitVec.toNat_or, BitVec.toNat_ofNat, Nat.mod_eq_of_lt (by omega), Nat.mul_comm]
  exact mul_or_of_lt (k := 21) (by decide)

/-- The directory has a leaf for each of its 2 MiB. -/
theorem boot_pd0 (i : Fin 512) :
    tablesOf (initPm m t cr4) (t.pd0.toNat / 4096) i = 0x200000 * i.val + 0x83 := by
  have hi := i.isLt
  rw [tablesOf_initPm t.pd0_aligned (fun _ hp => Or.inr (Or.inr hp))]
  unfold built entryAt
  rw [load_storeAll (by rw [length_pdEntries]; decide) (by rw [length_pdEntries]; exact hi)]
  unfold pdEntries
  rw [List.getD_eq_getElem?_getD, List.getElem?_map, List.getElem?_range hi, Option.map_some,
    Option.getD_some, pdEntry hi]
  omega

/-- Nothing but the three pages and the words for debugging is written. -/
theorem initPm_apart (hp : ¬ t.Has p) (hp' : ¬ t.Debug p) : initPm m t cr4 p = m p := by
  have hsub : ∀ page : BitVec 32, Range.Has ⟨page.setWidth 64, 8⟩ p → (pageAt page).Has p := by
    intro page hc
    rw [entryAt_zero] at hc
    exact entry_sub page 0 p hc
  rw [initPm_eq]
  unfold built marked movDword
  rw [store_apart (fun hc => hp' (Or.inr hc)),
    storeAll_apart (by rw [length_pdEntries]; decide) (fun hc => hp ?_),
    store_apart (fun hc => hp ?_), store_apart (fun hc => hp ?_),
    store_apart (fun hc => hp' (Or.inl hc)), cleared_byte, if_neg hp]
  · exact Or.inl (hsub t.pml4 hc)
  · exact Or.inr (Or.inl (hsub t.pdpt hc))
  · rw [length_pdEntries] at hc
    exact Or.inr (Or.inr hc)

end Entries

/-! ## The walk -/

section BootWalk

variable {mem : Nat → Fin 512 → Nat} {root f g : Nat}

theorem x86Kind_linkEntry {lvl : Nat} (hf : f < 2 ^ 40) :
    x86Kind (lvl + 1) (linkEntry f) = .link f := by
  have hodd : linkEntry f % 2 = 1 := by
    unfold linkEntry
    omega
  have hbit : linkEntry f / 128 % 2 = 0 := by
    unfold linkEntry
    omega
  have hframe : linkEntry f % 2 ^ 52 / pageSize = f := by
    unfold linkEntry
    simp only [pageSize]
    omega
  unfold x86Kind
  rw [and_present, if_neg (by omega), if_neg (by omega), if_neg, hframe]
  intro hc
  have hset := (and_huge_ne _).mp hc.2
  omega

/-- A path of links, all of them at index 0, and below it a directory of leaves. -/
theorem hwWalk_links (h4 : ∀ i, mem root i = if i = 0 then linkEntry f else 0)
    (h3 : ∀ i, mem f i = if i = 0 then linkEntry g else 0)
    (h2 : ∀ i : Fin 512, mem g i = 0x200000 * i.val + 0x83) (hf : f < 2 ^ 40) (hg : g < 2 ^ 40)
    (a : Nat) : hwWalk mem root a
      = if a % 2 ^ 48 < 2 ^ 30 then some (a % 2 ^ 48, 0x83) else none := by
  have habsent : ∀ lvl, x86Kind lvl 0 = .absent := fun lvl => x86Kind_absent.mpr rfl
  have hlink : ∀ lvl f, f < 2 ^ 40 → x86Kind (lvl + 1) (linkEntry f) = .link f :=
    fun lvl f => x86Kind_linkEntry
  have hleaf : ∀ i : Fin 512, x86Kind 1 (0x200000 * i.val + 0x83) = .leaf :=
    fun i => x86Kind_huge (by omega) (by omega)
  unfold hwWalk walkPage pagePath
  by_cases hi4 : Fin.ofNat 512 (a / pageSize / 2 ^ 27) = 0
  · have hlow4 : a / pageSize / 2 ^ 27 % 512 = 0 := congrArg Fin.val hi4
    by_cases hi3 : Fin.ofNat 512 (a / pageSize / 2 ^ 18) = 0
    · have hlow3 : a / pageSize / 2 ^ 18 % 512 = 0 := congrArg Fin.val hi3
      dsimp only [pageSize] at hlow4 hlow3
      simp only [RadixTable.walk, h4, hi4, hlink, hf, h3, hi3, hg, h2, hleaf, if_true,
        Option.map_some]
      rw [if_pos (by omega)]
      unfold leafAddress
      simp only [Fin.val_ofNat, pageSize]
      congr 1
      refine Prod.ext ?_ ?_ <;> dsimp only <;> omega
    · have hlow3 : ¬ a / pageSize / 2 ^ 18 % 512 = 0 := fun hc => hi3 (Fin.ext hc)
      dsimp only [pageSize] at hlow4 hlow3
      simp only [RadixTable.walk, h4, hi4, hlink, hf, h3, hi3, habsent, if_true, if_false,
        Option.map_none]
      rw [if_neg (by omega)]
  · have hlow4 : ¬ a / pageSize / 2 ^ 27 % 512 = 0 := fun hc => hi4 (Fin.ext hc)
    dsimp only [pageSize] at hlow4
    simp only [RadixTable.walk, h4, hi4, habsent, if_false, Option.map_none]
    rw [if_neg (by omega)]

end BootWalk

section Boot

variable {m m' : Mem} {t : BootPages} {cr4 : BitVec 32}

/-- An entry of a page depends on the bytes of the page. -/
theorem tablesOf_congr {page : BitVec 32} (h : page.toNat % 4096 = 0)
    (hkeep : ∀ p, (pageAt page).Has p → m' p = m p) (i : Fin 512) :
    tablesOf m' (page.toNat / 4096) i = tablesOf m (page.toNat / 4096) i := by
  rw [tablesOf_page h, tablesOf_page h]
  exact load_eq_of_eqOn (by decide) (fun p hp => hkeep p (entry_sub page i p hp))

/-- The translation from the boot code on, for as long as the three pages are
    not written. -/
theorem boot_walk (hkeep : ∀ p, t.Has p → m' p = initPm m t cr4 p) (a : Nat) :
    hwWalk (tablesOf m') (t.pml4.toNat / 4096) a
      = if a % 2 ^ 48 < 2 ^ 30 then some (a % 2 ^ 48, 0x83) else none := by
  have hpdpt := t.pdpt.isLt
  have hpd0 := t.pd0.isLt
  refine @hwWalk_links _ _ (t.pdpt.toNat / 4096) (t.pd0.toNat / 4096)
    (fun i => ?_) (fun i => ?_) (fun i => ?_) ?_ ?_ a
  · rw [tablesOf_congr t.pml4_aligned (fun p hp => hkeep p (Or.inl hp))]
    exact boot_pml4 i
  · rw [tablesOf_congr t.pdpt_aligned (fun p hp => hkeep p (Or.inr (Or.inl hp)))]
    exact boot_pdpt i
  · rw [tablesOf_congr t.pd0_aligned (fun p hp => hkeep p (Or.inr (Or.inr hp)))]
    exact boot_pd0 i
  · omega
  · omega

/-- Below 1 GiB the boot code maps every address to itself, and it maps no other
    address: not `.text` either, to which it jumps.  It writes to the three pages
    and to the words for debugging only. -/
theorem boot_identity_map (hkeep : ∀ p, t.Has p → m' p = initPm m t cr4 p) :
    (∀ a, hwWalk (tablesOf m') (t.pml4.toNat / 4096) a
      = if a % 2 ^ 48 < 2 ^ 30 then some (a % 2 ^ 48, 0x83) else none)
    ∧ (∀ a, textBase ≤ a → a < 2 ^ 32 → hwWalk (tablesOf m') (t.pml4.toNat / 4096) a = none)
    ∧ (∀ p, ¬ t.Has p → ¬ t.Debug p → initPm m t cr4 p = m p) := by
  refine ⟨boot_walk hkeep, fun a hlow hhigh => ?_, fun p => initPm_apart⟩
  have hout : ¬ a % 2 ^ 48 < 2 ^ 30 := by
    dsimp only [textBase] at hlow
    omega
  rw [boot_walk hkeep, if_neg hout]

/-- Pages behind the data of the firmware. -/
def lowPages : BootPages where
  pml4 := 0x101000
  pdpt := 0x102000
  pd0 := 0x103000
  cr4Rb := 0xE6
  cr3Rb := 0xEA
  pml4_aligned := by decide
  pdpt_aligned := by decide
  pd0_aligned := by decide
  pml4_ne_pdpt := by decide
  pml4_ne_pd0 := by decide
  pdpt_ne_pd0 := by decide
  debug_apart := by
    intro page hpage
    have hlow : 0x101000 ≤ page.toNat := by
      simp only [List.mem_cons, List.not_mem_nil, or_false] at hpage
      rcases hpage with rfl | rfl | rfl <;> decide
    have hlt := page.isLt
    refine ⟨fun p hp hp' => ?_, fun p hp hp' => ?_⟩
    · unfold dwordAt pageAt Range.Has at *
      dsimp only at *
      bv_omega
    · unfold dwordAt pageAt Range.Has at *
      dsimp only at *
      bv_omega

/-- Memory that held ones everywhere: the stack is mapped, the entry point is not. -/
theorem boot_identity_map_ones :
    hwWalk (tablesOf (initPm (fun _ => 0xFF) lowPages 0)) 0x101 0x07FFFFF8
        = some (0x07FFFFF8, 0x83)
      ∧ hwWalk (tablesOf (initPm (fun _ => 0xFF) lowPages 0)) 0x101 textBase = none :=
  ⟨(@boot_identity_map (fun _ => 0xFF) _ lowPages 0 (fun _ _ => rfl)).1 0x07FFFFF8,
    (@boot_identity_map (fun _ => 0xFF) _ lowPages 0 (fun _ _ => rfl)).2.1 textBase
      (Nat.le_refl _) (by decide)⟩

end Boot

end Pfi
