import Pfi.PagerTables
import Pfi.Run

/-! # What `pager_map` and `pager_unmap` do to translations -/

namespace Pfi

open Words RadixTable

/-! ## Keys of pages -/

theorem ofNat512_inj {x y : Nat} : Fin.ofNat 512 x = Fin.ofNat 512 y ↔ x % 512 = y % 512 := by
  rw [Fin.ext_iff]
  rfl

theorem tableIndex_eq (virt shift : Nat) :
    tableIndex virt shift = Fin.ofNat 512 (virt / 2 ^ shift) := by
  unfold tableIndex
  rw [Nat.shiftRight_eq_div_pow]

/-- The indices `pager_map` extracts are the key of the page. -/
theorem pagePath_eq (virt : Nat) :
    pagePath (virt / 4096)
      = [tableIndex virt 39, tableIndex virt 30, tableIndex virt 21, tableIndex virt 12] := by
  unfold pagePath
  rw [tableIndex_eq, tableIndex_eq, tableIndex_eq, tableIndex_eq,
    Nat.div_div_eq_div_mul, Nat.div_div_eq_div_mul, Nat.div_div_eq_div_mul]
  rfl

/-- The path to the page directory of an address. -/
def pdPath (virt : Nat) : List (Fin 512) := [tableIndex virt 39, tableIndex virt 30]

/-- The path to the page table of an address. -/
def ptPath (virt : Nat) : List (Fin 512) := pdPath virt ++ [tableIndex virt 21]

/-- The key of a 2 MiB slot is a prefix of the keys of its 512 pages. -/
theorem slot_prefix_iff (virt n : Nat) :
    ptPath virt <+: pagePath n
      ↔ n / 512 % 2 ^ 27 = virt / 4096 / 512 % 2 ^ 27 := by
  unfold ptPath pdPath pagePath
  rw [tableIndex_eq, tableIndex_eq, tableIndex_eq]
  show [_, _, _] <+: _ ↔ _
  rw [List.cons_prefix_cons, List.cons_prefix_cons, List.cons_prefix_cons,
    ofNat512_inj, ofNat512_inj, ofNat512_inj]
  have hnil : ([] : List (Fin 512)) <+: [Fin.ofNat 512 n] := List.nil_prefix
  constructor
  · rintro ⟨h1, h2, h3, -⟩
    omega
  · intro h
    exact ⟨by omega, by omega, by omega, hnil⟩

/-- The key of a page is a prefix of no other key. -/
theorem page_prefix_iff (virt n : Nat) :
    ptPath virt ++ [tableIndex virt 12] <+: pagePath n
      ↔ n % 2 ^ 36 = virt / 4096 % 2 ^ 36 := by
  unfold ptPath pdPath pagePath
  rw [tableIndex_eq, tableIndex_eq, tableIndex_eq, tableIndex_eq]
  show [_, _, _, _] <+: _ ↔ _
  rw [List.cons_prefix_cons, List.cons_prefix_cons, List.cons_prefix_cons,
    List.cons_prefix_cons, ofNat512_inj, ofNat512_inj, ofNat512_inj, ofNat512_inj]
  have hnil : ([] : List (Fin 512)) <+: [] := List.nil_prefix
  constructor
  · rintro ⟨h1, h2, h3, h4, -⟩
    omega
  · intro h
    exact ⟨by omega, by omega, by omega, by omega, hnil⟩

/-- Page `n` is translated by a 2 MiB leaf. -/
def hugeAt (mem : Nat → Fin 512 → Nat) (root n : Nat) : Bool :=
  match walkPage mem root n with
  | some (1, _) => true
  | _ => false

theorem hugeAt_iff {mem : Nat → Fin 512 → Nat} {root n : Nat} :
    hugeAt mem root n = true ↔ ∃ e, walkPage mem root n = some (1, e) := by
  unfold hugeAt
  constructor
  · intro h
    split at h
    · rename_i e he
      exact ⟨e, he⟩
    · cases h
  · rintro ⟨e, he⟩
    simp only [he]

theorem hugeAt_congr {mem mem' : Nat → Fin 512 → Nat} {root n : Nat}
    (h : walkPage mem' root n = walkPage mem root n) :
    hugeAt mem' root n = hugeAt mem root n := by
  unfold hugeAt
  rw [h]

/-! ## Mapping -/

theorem pageDirectory_log_mono (m : Machine) (virt : Nat) {x : Nat} (hx : x ∈ m.tableLog) :
    x ∈ (pageDirectory m virt).2.tableLog :=
  nextTable_log_mono _ _ _ (nextTable_log_mono _ _ _ hx)

theorem sameRegs_pageDirectory (m : Machine) (virt : Nat) :
    SameRegs m (pageDirectory m virt).2 :=
  (sameRegs_nextTable _ _ _).trans (sameRegs_nextTable _ _ _)

theorem sameRegs_pagerMap (m : Machine) (virt phys flags : Nat) :
    SameRegs m (pagerMap m virt phys flags).2 := by
  have hpd := sameRegs_pageDirectory m virt
  unfold pagerMap
  by_cases h : exceedsCpu m phys = true
  · rw [if_pos h]
    exact SameRegs.refl m
  · rw [if_neg h]
    dsimp only
    split
    · exact hpd.trans (sameRegs_setEntry _ _ _ _)
    · exact (hpd.trans (sameRegs_nextTable _ _ _)).trans (sameRegs_setEntry _ _ _ _)

theorem pagerMap_log_mono (m : Machine) (virt phys flags : Nat) {x : Nat}
    (hx : x ∈ m.tableLog) : x ∈ (pagerMap m virt phys flags).2.tableLog := by
  have hpd := pageDirectory_log_mono m virt hx
  unfold pagerMap
  by_cases h : exceedsCpu m phys = true
  · rw [if_pos h]
    exact hx
  · rw [if_neg h]
    dsimp only
    split
    · exact hpd
    · exact nextTable_log_mono _ _ _ hpd

/-- A call with a physical address beyond the processor's limit does
    nothing. -/
theorem pagerMap_rejected {m : Machine} {virt phys flags : Nat}
    (h : exceedsCpu m phys = true) : pagerMap m virt phys flags = (0, m) :=
  if_pos h

theorem exceedsCpu_eq {m : Machine} {phys : Nat} (hbits : m.cpuPhysBits ≤ 52)
    (hphys : phys < 2 ^ 64) : exceedsCpu m phys = decide (2 ^ m.cpuPhysBits ≤ phys) := by
  unfold exceedsCpu
  rw [Nat.one_shiftLeft]
  have hiff := and_not64_eq_zero (k := m.cpuPhysBits) (by omega) hphys
  rw [decide_eq_decide]
  constructor
  · intro h
    by_contra hlt
    exact h (hiff.mpr (by omega))
  · intro h h0
    have := hiff.mp h0
    omega

section Map

variable {m : Machine} {virt phys flags : Nat}

/-- The path to the page directory is always free of leaves. -/
theorem pageDirectory_reached (virt : Nat) (hok : TablesOk m)
    (hlog : TablesGranted (pageDirectory m virt).2) :
    Reached m (pdPath virt) (pageDirectory m virt) := by
  have hlog1 : TablesGranted (nextTable m m.firmwarePml4 (tableIndex virt 39)).2 :=
    hlog.of_mono (fun x hx => nextTable_log_mono _ _ _ hx)
  have hroot : tableAt x86Kind m.mem 3 m.root [] = some (tableFrame m.firmwarePml4) :=
    tableAt_nil 3 m.root
  have h1 : Reached m [tableIndex virt 39] _ :=
    nextTable_reached hok hroot (Nat.zero_lt_succ 2) (fun h => absurd h (by decide)) hlog1
  have htable := h1.table
  rw [← h1.regs.root] at htable
  have h2 : Reached _ (pdPath virt) (pageDirectory m virt) :=
    nextTable_reached h1.ok htable (Nat.one_lt_succ_succ 1)
      (fun h => absurd h (by rw [List.length_singleton]; decide)) hlog
  exact h1.trans h2

/-- What an accepted call does after the page directory is reached. -/
theorem pagerMap_accepted (hacc : exceedsCpu m phys = false) :
    (pagerMap m virt phys flags).2
      = if flags &&& pageHuge ≠ 0 then
          (pageDirectory m virt).2.setEntry (pageDirectory m virt).1 (tableIndex virt 21)
            (hugeEntry phys flags)
        else
          let pt := nextTable (pageDirectory m virt).2 (pageDirectory m virt).1
            (tableIndex virt 21)
          pt.2.setEntry pt.1 (tableIndex virt 12) (pageEntry phys flags) := by
  have hno : ¬ exceedsCpu m phys = true := by
    rw [hacc]
    decide
  unfold pagerMap
  rw [if_neg hno]
  dsimp only
  split
  · rfl
  · rfl

/-- The leaf bit of a page-directory entry that translates no page as a 2 MiB
    leaf. -/
theorem not_leaf_of_not_huge {r : Nat × Machine} (hr : Reached m (pdPath virt) r)
    (hsmall : hugeAt m.mem m.root (virt / 4096) = false)
    (hodd : r.2.mem (tableFrame r.1) (tableIndex virt 21) % 2 = 1) :
    r.2.mem (tableFrame r.1) (tableIndex virt 21) / 128 % 2 = 0 := by
  by_contra hbit
  have hleaf := x86Kind_huge hodd (by omega)
  have hslot : pdPath virt ++ [tableIndex virt 21] <+: pagePath (virt / 4096) :=
    (slot_prefix_iff virt (virt / 4096)).mpr rfl
  have hwalk := walk_leaf hr.table hleaf hslot
  rw [hr.walk] at hwalk
  have hhuge := hugeAt_iff.mpr ⟨_, hwalk⟩
  rw [hsmall] at hhuge
  cases hhuge

/-- An accepted 2 MiB call translates the pages of its slot by its leaf and
    leaves every other page alone. -/
theorem pagerMap_huge (hok : TablesOk m) (hacc : exceedsCpu m phys = false)
    (hphys : phys < 2 ^ 64) (hflags : flags / 128 % 2 = 1)
    (hlog : TablesGranted (pagerMap m virt phys flags).2) :
    TablesOk (pagerMap m virt phys flags).2 ∧
      ∀ n, walkPage (pagerMap m virt phys flags).2.mem m.root n
        = if n / 512 % 2 ^ 27 = virt / 4096 / 512 % 2 ^ 27
          then some (1, hugeEntry phys flags) else walkPage m.mem m.root n := by
  rw [pagerMap_accepted hacc, if_pos ((and_huge_ne flags).mpr hflags)] at hlog ⊢
  rw [tablesGranted_setEntry] at hlog
  have hpd := pageDirectory_reached virt hok hlog
  generalize pageDirectory m virt = pd at hlog hpd ⊢
  have hodd : hugeEntry phys flags % 2 = 1 := by
    rw [hugeEntry_eq flags hphys]; omega
  have hbit : hugeEntry phys flags / 128 % 2 = 1 := by
    rw [hugeEntry_eq flags hphys]; omega
  have hleaf : x86Kind 1 (hugeEntry phys flags) = .leaf := x86Kind_huge hodd hbit
  have htable := hpd.table
  have hunshared := hpd.ok.unshared
  rw [hpd.regs.root] at hunshared
  constructor
  · rw [← hpd.regs.root] at htable
    refine hpd.ok.setEntry htable ?_ ?_
    · intro g hg
      rw [show 3 - (pdPath virt).length = 1 from rfl, hleaf] at hg
      cases hg
    · intro _ _
      exact Or.inl ⟨rfl, hbit⟩
  · intro n
    unfold walkPage
    have hiff : pdPath virt ++ [tableIndex virt 21] <+: pagePath n
        ↔ n / 512 % 2 ^ 27 = virt / 4096 / 512 % 2 ^ 27 := slot_prefix_iff virt n
    rw [setEntry_mem, walk_store_leaf hunshared htable hleaf, hpd.walk]
    by_cases hn : n / 512 % 2 ^ 27 = virt / 4096 / 512 % 2 ^ 27
    · rw [if_pos (hiff.mpr hn), if_pos hn]
      rfl
    · rw [if_neg (fun h => hn (hiff.mp h)), if_neg hn]

/-- An accepted 4 KiB call outside the 2 MiB leaves reaches the page table and
    stores its leaf there. -/
theorem pagerMap_page_reached (hok : TablesOk m) (hacc : exceedsCpu m phys = false)
    (hflags : flags / 128 % 2 = 0) (hsmall : hugeAt m.mem m.root (virt / 4096) = false)
    (hlog : TablesGranted (pagerMap m virt phys flags).2) :
    ∃ pt : Nat × Machine, Reached m (ptPath virt) pt ∧ (pagerMap m virt phys flags).2
      = pt.2.setEntry pt.1 (tableIndex virt 12) (pageEntry phys flags) := by
  have hno : ¬ (flags &&& pageHuge ≠ 0) := by
    rw [and_huge_ne]; omega
  rw [pagerMap_accepted hacc, if_neg hno] at hlog ⊢
  dsimp only at hlog ⊢
  rw [tablesGranted_setEntry] at hlog
  have hpd := pageDirectory_reached virt hok
    (TablesGranted.of_mono hlog (fun x hx => nextTable_log_mono _ _ _ hx))
  generalize pageDirectory m virt = pd at hlog hpd ⊢
  have htable := hpd.table
  rw [← hpd.regs.root] at htable
  exact ⟨_, hpd.trans (nextTable_reached hpd.ok htable (Nat.lt_succ_self 2)
    (fun _ => not_leaf_of_not_huge hpd hsmall) hlog), rfl⟩

/-- An accepted 4 KiB call outside the 2 MiB leaves translates its page by its
    leaf and leaves every other page alone. -/
theorem pagerMap_page (hok : TablesOk m) (hacc : exceedsCpu m phys = false)
    (hphys : phys < 2 ^ 64) (hflags : flags / 128 % 2 = 0)
    (hsmall : hugeAt m.mem m.root (virt / 4096) = false)
    (hlog : TablesGranted (pagerMap m virt phys flags).2) :
    TablesOk (pagerMap m virt phys flags).2 ∧
      ∀ n, walkPage (pagerMap m virt phys flags).2.mem m.root n
        = if n % 2 ^ 36 = virt / 4096 % 2 ^ 36
          then some (0, pageEntry phys flags) else walkPage m.mem m.root n := by
  obtain ⟨pt, hpt, hres⟩ := pagerMap_page_reached hok hacc hflags hsmall hlog
  rw [hres]
  have hodd : pageEntry phys flags % 2 = 1 := by
    rw [pageEntry_eq flags hphys]; omega
  have hleaf : x86Kind 0 (pageEntry phys flags) = .leaf := x86Kind_page hodd
  have hptTable := hpt.table
  have hunshared := hpt.ok.unshared
  rw [hpt.regs.root] at hunshared
  constructor
  · rw [← hpt.regs.root] at hptTable
    refine hpt.ok.setEntry hptTable ?_ (fun h => absurd h (Nat.lt_irrefl 3))
    intro g hg
    rw [show 3 - (ptPath virt).length = 0 from rfl, hleaf] at hg
    cases hg
  · intro n
    unfold walkPage
    rw [setEntry_mem, walk_store_leaf hunshared hptTable hleaf, hpt.walk]
    by_cases hn : n % 2 ^ 36 = virt / 4096 % 2 ^ 36
    · rw [if_pos ((page_prefix_iff virt n).mpr hn), if_pos hn]
      rfl
    · rw [if_neg (fun h => hn ((page_prefix_iff virt n).mp h)), if_neg hn]

/-- The address has a page table. -/
def HasPageTable (m : Machine) (virt : Nat) : Prop :=
  ∃ f, tableAt x86Kind m.mem 3 m.root (ptPath virt) = some f

/-- After such a call it has. -/
theorem pagerMap_page_table (hok : TablesOk m) (hacc : exceedsCpu m phys = false)
    (hflags : flags / 128 % 2 = 0) (hsmall : hugeAt m.mem m.root (virt / 4096) = false)
    (hlog : TablesGranted (pagerMap m virt phys flags).2) :
    HasPageTable (pagerMap m virt phys flags).2 virt := by
  obtain ⟨pt, hpt, hres⟩ := pagerMap_page_reached hok hacc hflags hsmall hlog
  have htable := hpt.table
  have hunshared := hpt.ok.unshared
  rw [← hpt.regs.root] at htable
  rw [hres]
  exact ⟨tableFrame pt.1, tableAt_store_self hunshared htable⟩

/-- The descent through a link takes no table. -/
theorem nextTable_linked {p : List (Fin 512)} {tbl g : Nat} {i : Fin 512} (hok : TablesOk m)
    (hp : tableAt x86Kind m.mem 3 m.root p = some (tableFrame tbl)) (hlen : p.length < 3)
    (hnext : tableAt x86Kind m.mem 3 m.root (p ++ [i]) = some g) :
    (nextTable m tbl i).2 = m.touch tbl ∧ tableFrame (nextTable m tbl i).1 = g := by
  obtain ⟨k, hk⟩ : ∃ k, 3 - p.length = k + 1 := ⟨2 - p.length, by omega⟩
  have hkind := hnext
  rw [tableAt_concat hp hk] at hkind
  -- an absent entry links no table, and neither does a 2 MiB leaf
  have hon : ¬ m.mem (tableFrame tbl) i % 2 = 0 := by
    intro hc
    rw [x86Kind_absent.mpr hc] at hkind
    cases hkind
  have hodd : m.mem (tableFrame tbl) i % 2 = 1 := by omega
  have hleaf : p.length = 2 → m.mem (tableFrame tbl) i / 128 % 2 = 0 := by
    intro hl
    by_contra hb
    rw [show k + 1 = 1 by omega, x86Kind_huge hodd (by omega)] at hkind
    cases hkind
  obtain ⟨htbl, hres⟩ := nextTable_of_present hon
  refine ⟨hres, ?_⟩
  rw [htbl]
  exact Option.some.inj ((follow_link hok hp hlen hodd hleaf).symm.trans hnext)

/-- A 4 KiB call at an address that has a page table takes no table. -/
theorem pagerMap_no_table (hok : TablesOk m) (hacc : exceedsCpu m phys = false)
    (hflags : flags / 128 % 2 = 0) (htable : HasPageTable m virt) :
    (pagerMap m virt phys flags).2.avmf = m.avmf ∧
      (pagerMap m virt phys flags).2.tableLog = m.tableLog := by
  have hno : ¬ (flags &&& pageHuge ≠ 0) := by
    rw [and_huge_ne]; omega
  obtain ⟨f, hpt⟩ := htable
  obtain ⟨f2, hpd⟩ := tableAt_prefix (p := pdPath virt) (q := [tableIndex virt 21]) hpt
  obtain ⟨f3, hpdpt⟩ := tableAt_prefix (p := [tableIndex virt 39]) (q := [tableIndex virt 30]) hpd
  have hroot : tableAt x86Kind m.mem 3 m.root [] = some (tableFrame m.firmwarePml4) :=
    tableAt_nil 3 m.root
  obtain ⟨h1, hf1⟩ := nextTable_linked hok hroot (Nat.zero_lt_succ 2) hpdpt
  have hok1 : TablesOk (nextTable m m.firmwarePml4 (tableIndex virt 39)).2 := by
    rw [h1]
    exact hok.touch hroot
  rw [pagerMap_accepted hacc, if_neg hno]
  unfold pageDirectory
  dsimp only
  generalize nextTable m m.firmwarePml4 (tableIndex virt 39) = pdpt at h1 hf1 hok1 ⊢
  have hpdpt1 : tableAt x86Kind pdpt.2.mem 3 pdpt.2.root [tableIndex virt 39]
      = some (tableFrame pdpt.1) := by
    rw [h1, hf1]
    exact hpdpt
  have hpd1 : tableAt x86Kind pdpt.2.mem 3 pdpt.2.root (pdPath virt) = some f2 := by
    rw [h1]
    exact hpd
  obtain ⟨h2, hf2⟩ := nextTable_linked hok1 hpdpt1 (by rw [List.length_singleton]; decide) hpd1
  have hok2 : TablesOk (nextTable pdpt.2 pdpt.1 (tableIndex virt 30)).2 := by
    rw [h2]
    exact hok1.touch hpdpt1
  generalize nextTable pdpt.2 pdpt.1 (tableIndex virt 30) = pd at h2 hf2 hok2 ⊢
  have hpd2 : tableAt x86Kind pd.2.mem 3 pd.2.root (pdPath virt) = some (tableFrame pd.1) := by
    rw [h2, hf2]
    exact hpd1
  have hpt2 : tableAt x86Kind pd.2.mem 3 pd.2.root (ptPath virt) = some f := by
    rw [h2, h1]
    exact hpt
  obtain ⟨h3, -⟩ := nextTable_linked hok2 hpd2 (Nat.lt_succ_self 2) hpt2
  rw [setEntry_avmf, setEntry_tableLog, h3, h2, h1]
  exact ⟨rfl, rfl⟩

end Map

/-! ## Unmapping -/

/-- Page `n` is translated by the leaf that translates `virt`, in tables
    where a slot either holds a 2 MiB leaf or not. -/
def SameLeaf (m : Machine) (virt n : Nat) : Prop :=
  if hugeAt m.mem m.root (virt / 4096) = true
    then n / 512 % 2 ^ 27 = virt / 4096 / 512 % 2 ^ 27
    else n % 2 ^ 36 = virt / 4096 % 2 ^ 36

/-- What `pager_unmap` of a mapped tree does: the pages of the leaf lose their
    translation. -/
structure Unmapped (m : Machine) (virt : Nat) (m' : Machine) : Prop where
  ok : TablesOk m'
  regs : SameRegs m m'
  gone : ∀ n, SameLeaf m virt n → walkPage m'.mem m.root n = none
  kept : ∀ n, ¬ SameLeaf m virt n → walkPage m'.mem m.root n = walkPage m.mem m.root n

section Unmap

variable {m : Machine} {virt : Nat}

/-- The page directory entry of a 2 MiB leaf. -/
theorem hugeAt_of_entry {f : Nat}
    (hpd : tableAt x86Kind m.mem 3 m.root (pdPath virt) = some f)
    (hodd : m.mem f (tableIndex virt 21) % 2 = 1)
    (hbit : m.mem f (tableIndex virt 21) / 128 % 2 = 1) :
    hugeAt m.mem m.root (virt / 4096) = true := by
  have hslot : pdPath virt ++ [tableIndex virt 21] <+: pagePath (virt / 4096) :=
    (slot_prefix_iff virt (virt / 4096)).mpr rfl
  exact hugeAt_iff.mpr ⟨_, walk_leaf hpd (x86Kind_huge hodd hbit) hslot⟩

theorem pagePath_congr {n n' : Nat} (h : n % 2 ^ 36 = n' % 2 ^ 36) :
    pagePath n = pagePath n' := by
  unfold pagePath
  rw [List.cons.injEq, List.cons.injEq, List.cons.injEq, List.cons.injEq, ofNat512_inj,
    ofNat512_inj, ofNat512_inj, ofNat512_inj]
  exact ⟨by omega, by omega, by omega, by omega, rfl⟩

/-- Nothing was mapped at the address, and the translations were left
    alone. -/
theorem unmapped_of_none {m' : Machine} (hok : TablesOk m') (hregs : SameRegs m m')
    (hwalk : ∀ n, walkPage m'.mem m.root n = walkPage m.mem m.root n)
    (hnone : walkPage m.mem m.root (virt / 4096) = none) : Unmapped m virt m' := by
  have hsmall : ¬ hugeAt m.mem m.root (virt / 4096) = true := by
    unfold hugeAt
    rw [hnone]
    decide
  refine ⟨hok, hregs, ?_, fun n _ => hwalk n⟩
  intro n hn
  unfold SameLeaf at hn
  rw [if_neg hsmall] at hn
  rw [hwalk]
  unfold walkPage at hnone ⊢
  rw [pagePath_congr hn]
  exact hnone

/-- Clearing the entry of a 2 MiB leaf, or of one that was unmapped
    before. -/
theorem unmapped_slot (hok : TablesOk m) {pd : Nat}
    (hpd : tableAt x86Kind m.mem 3 m.root (pdPath virt) = some (tableFrame pd))
    (hbit : m.mem (tableFrame pd) (tableIndex virt 21) / 128 % 2 = 1) :
    Unmapped m virt (m.setEntry pd (tableIndex virt 21)
      (m.mem (tableFrame pd) (tableIndex virt 21) &&& not64 pagePresent)) := by
  have hslot : ∀ n, pdPath virt ++ [tableIndex virt 21] <+: pagePath n
      ↔ n / 512 % 2 ^ 27 = virt / 4096 / 512 % 2 ^ 27 := slot_prefix_iff virt
  have habs : x86Kind (3 - (pdPath virt).length)
      (m.mem (tableFrame pd) (tableIndex virt 21) &&& not64 pagePresent) = .absent :=
    x86Kind_absent.mpr (clearPresent_mod _)
  have hok' := hok.setEntry (i := tableIndex virt 21) hpd
    (fun g hg => by rw [habs] at hg; cases hg)
    (fun _ hodd => by rw [clearPresent_mod] at hodd; cases hodd)
  have hregs := sameRegs_setEntry m pd (tableIndex virt 21)
    (m.mem (tableFrame pd) (tableIndex virt 21) &&& not64 pagePresent)
  have hwalk : ∀ q, walk x86Kind (m.setEntry pd (tableIndex virt 21) _).mem 3 m.root q = _ :=
    fun q => walk_store_absent (q := q) hok.unshared hpd habs
  by_cases hodd : m.mem (tableFrame pd) (tableIndex virt 21) % 2 = 1
  · have hhuge := hugeAt_of_entry hpd hodd hbit
    refine ⟨hok', hregs, ?_, ?_⟩
    · intro n hn
      unfold SameLeaf at hn
      rw [if_pos hhuge] at hn
      unfold walkPage
      rw [hwalk, if_pos ((hslot n).mpr hn)]
    · intro n hn
      unfold SameLeaf at hn
      rw [if_pos hhuge] at hn
      unfold walkPage
      rw [hwalk, if_neg (fun h => hn ((hslot n).mp h))]
  · -- the slot held no leaf, so nothing was mapped there
    have hold : ∀ n, pdPath virt ++ [tableIndex virt 21] <+: pagePath n →
        walkPage m.mem m.root n = none := by
      intro n hn
      exact walk_absent hpd (x86Kind_absent.mpr (by omega)) hn
    refine unmapped_of_none hok' hregs ?_ (hold _ ((hslot _).mpr rfl))
    intro n
    by_cases hn : pdPath virt ++ [tableIndex virt 21] <+: pagePath n
    · rw [hold n hn]
      unfold walkPage
      rw [hwalk, if_pos hn]
    · unfold walkPage
      rw [hwalk, if_neg hn]

/-- Clearing the entry of a 4 KiB page. -/
theorem unmapped_page (hok : TablesOk m) {pt : Nat}
    (hpt : tableAt x86Kind m.mem 3 m.root (ptPath virt) = some (tableFrame pt)) :
    Unmapped m virt (m.setEntry pt (tableIndex virt 12)
      (m.mem (tableFrame pt) (tableIndex virt 12) &&& not64 pagePresent)) := by
  have hpage : ∀ n, ptPath virt ++ [tableIndex virt 12] <+: pagePath n
      ↔ n % 2 ^ 36 = virt / 4096 % 2 ^ 36 := page_prefix_iff virt
  have habs : x86Kind (3 - (ptPath virt).length)
      (m.mem (tableFrame pt) (tableIndex virt 12) &&& not64 pagePresent) = .absent :=
    x86Kind_absent.mpr (clearPresent_mod _)
  have hwalk : ∀ q, walk x86Kind (m.setEntry pt (tableIndex virt 12) _).mem 3 m.root q = _ :=
    fun q => walk_store_absent (q := q) hok.unshared hpt habs
  have hsmall : ¬ hugeAt m.mem m.root (virt / 4096) = true := by
    intro hhuge
    obtain ⟨e, he⟩ := hugeAt_iff.mp hhuge
    have hsplit : pagePath (virt / 4096) = ptPath virt ++ [tableIndex virt 12] :=
      pagePath_eq virt
    unfold walkPage at he
    rw [hsplit, walk_append hpt] at he
    change walk x86Kind m.mem 0 (tableFrame pt) [tableIndex virt 12] = some (1, e) at he
    simp only [walk] at he
    split at he
    · cases (Prod.mk.inj (Option.some.inj he)).1
    · cases he
  refine ⟨hok.setEntry (i := tableIndex virt 12) hpt
    (fun g hg => by rw [habs] at hg; cases hg)
    (fun hlen => absurd hlen (Nat.lt_irrefl 3)), sameRegs_setEntry m pt _ _, ?_, ?_⟩
  · intro n hn
    unfold SameLeaf at hn
    rw [if_neg hsmall] at hn
    unfold walkPage
    rw [hwalk, if_pos ((hpage n).mpr hn)]
  · intro n hn
    unfold SameLeaf at hn
    rw [if_neg hsmall] at hn
    unfold walkPage
    rw [hwalk, if_neg (fun h => hn ((hpage n).mp h))]

/-- Reading an entry changes no table. -/
theorem tableAt_touch (m : Machine) (tbl : Nat) (p : List (Fin 512)) :
    tableAt x86Kind (m.touch tbl).mem 3 (m.touch tbl).root p
      = tableAt x86Kind m.mem 3 m.root p := rfl

/-- Reading entries first makes no difference to what an unmapping does. -/
theorem Unmapped.touch {m' : Machine} (tbl : Nat) (h : Unmapped (m.touch tbl) virt m') :
    Unmapped m virt m' :=
  ⟨h.ok, (sameRegs_touch m tbl).trans h.regs, h.gone, h.kept⟩

/-- Unmapping leaves the registers alone. -/
theorem sameRegs_pagerUnmap (m : Machine) (virt : Nat) : SameRegs m (pagerUnmap m virt) := by
  unfold pagerUnmap
  extract_lets pml4 m4 e4 pdpt m3 e3 pd m2 e2 pt m1
  have h4 : SameRegs m m4 := sameRegs_touch m pml4
  have h3 : SameRegs m m3 := h4.trans (sameRegs_touch m4 pdpt)
  have h2 : SameRegs m m2 := h3.trans (sameRegs_touch m3 pd)
  have h1 : SameRegs m m1 := h2.trans (sameRegs_touch m2 pt)
  split_ifs
  · exact SameRegs.refl m
  · exact h4
  · exact h3
  · exact h2.trans (sameRegs_setEntry _ _ _ _)
  · exact h2
  · exact h1.trans (sameRegs_setEntry _ _ _ _)

/-- `pager_unmap` takes nothing from the allocator. -/
theorem pagerUnmap_allocator (m : Machine) (virt : Nat) :
    (pagerUnmap m virt).avmf = m.avmf ∧ (pagerUnmap m virt).tableLog = m.tableLog := by
  unfold pagerUnmap
  dsimp only
  split_ifs <;>
    simp only [setEntry_avmf, setEntry_tableLog, touch_avmf, touch_tableLog, and_self]

/-- An absent entry on the way to the page: nothing is mapped there. -/
theorem unmapped_absent (hok : TablesOk m) {p r : List (Fin 512)} {i : Fin 512} {f : Nat}
    (hp : tableAt x86Kind m.mem 3 m.root p = some f)
    (hsplit : pagePath (virt / 4096) = (p ++ [i]) ++ r) (he : m.mem f i % 2 = 0) :
    Unmapped m virt m := by
  refine unmapped_of_none hok (SameRegs.refl m) (fun n => rfl) ?_
  unfold walkPage
  rw [hsplit]
  exact walk_absent hp (x86Kind_absent.mpr he) (List.prefix_append _ _)

/-- `pager_unmap` on the loaded tables. -/
theorem pagerUnmap_unmapped (virt : Nat) (hok : TablesOk m)
    (hmapped : m.mappedPml4 = m.firmwarePml4) (hpml4 : m.firmwarePml4 ≠ 0) :
    Unmapped m virt (pagerUnmap m virt) := by
  have hsplit := pagePath_eq virt
  have hroot : tableAt x86Kind m.mem 3 m.root [] = some (tableFrame m.firmwarePml4) :=
    tableAt_nil 3 m.root
  unfold pagerUnmap
  rw [hmapped]
  extract_lets pml4 m4 e4 pdpt m3 e3 pd m2 e2 pt m1
  rw [if_neg hpml4]
  -- PML4
  have hok4 : TablesOk m4 := hok.touch hroot
  apply Unmapped.touch pml4
  by_cases he4 : e4 % 2 = 0
  · rw [if_pos ((and_present _).trans he4)]
    exact unmapped_absent hok4 hroot hsplit he4
  · rw [if_neg (fun h => he4 ((and_present _).symm.trans h))]
    have h3 : tableAt x86Kind m4.mem 3 m4.root [tableIndex virt 39] = some (tableFrame pdpt) :=
      follow_link hok4 hroot (by decide) (Nat.mod_two_ne_zero.mp he4) (fun h => nomatch h)
    -- PDPT
    have hok3 : TablesOk m3 := hok4.touch h3
    apply Unmapped.touch pdpt
    by_cases he3 : e3 % 2 = 0
    · rw [if_pos ((and_present _).trans he3)]
      exact unmapped_absent hok3 h3 hsplit he3
    · rw [if_neg (fun h => he3 ((and_present _).symm.trans h))]
      have h2 : tableAt x86Kind m3.mem 3 m3.root (pdPath virt) = some (tableFrame pd) :=
        follow_link hok3 h3 (by rw [List.length_singleton]; decide)
          (Nat.mod_two_ne_zero.mp he3) (fun h => nomatch h)
      -- page directory
      have hok2 : TablesOk m2 := hok3.touch h2
      have h2' : tableAt x86Kind m2.mem 3 m2.root (pdPath virt) = some (tableFrame pd) :=
        (tableAt_touch m3 pd (pdPath virt)).trans h2
      apply Unmapped.touch pd
      by_cases hbit : e2 / 128 % 2 = 1
      · rw [if_pos ((and_huge_ne _).mpr hbit)]
        exact unmapped_slot hok2 h2' hbit
      · rw [if_neg (fun h => hbit ((and_huge_ne _).mp h))]
        by_cases he2 : e2 % 2 = 0
        · rw [if_pos ((and_present _).trans he2)]
          exact unmapped_absent hok2 h2' hsplit he2
        · rw [if_neg (fun h => he2 ((and_present _).symm.trans h))]
          have h1 : tableAt x86Kind m2.mem 3 m2.root (ptPath virt) = some (tableFrame pt) :=
            follow_link hok2 h2' (Nat.lt_succ_self 2) (Nat.mod_two_ne_zero.mp he2)
              (fun _ => Nat.mod_two_ne_one.mp hbit)
          have hok1 : TablesOk m1 := hok2.touch h1
          apply Unmapped.touch pt
          exact unmapped_page hok1 ((tableAt_touch m2 pt (ptPath virt)).trans h1)

end Unmap

end Pfi
