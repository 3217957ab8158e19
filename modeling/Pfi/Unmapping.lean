import Pfi.StaleMappings

/-! # What an unmapping removes

    `pager_unmap` clears the present bit of one entry: that of the 2 MiB slot
    when the slot's huge bit is set, present or not, and that of the page when
    the address has a page table (`Cleared`).  On well-formed tables that is
    one leaf; a second call finds the same entry and clears it again
    (`Cleared.again`), and a mapping puts a leaf over whatever bits are left
    in a slot that is not present.

    Well-formed tables are those that `pager_map` builds as long as
    `alloc_page_table` serves it (`unmaps_one_leaf`).  Without a free page the
    tables of different addresses become one, physical page 0, and an
    unmapping takes the leaf of all of them (`unmap_shared_table`). -/

namespace Pfi

open Words RadixTable Run

/-- Unmapping an address removes its leaf and nothing else, is done after one
    call, and leaves the address ready to be mapped. -/
structure UnmapsOneLeaf (m : Machine) (virt : Nat) : Prop where
  gone : ∀ a, SameLeaf m virt (a / pageSize) → hwWalk (pagerUnmap m virt).mem m.root a = none
  kept : ∀ a, ¬ SameLeaf m virt (a / pageSize) →
    hwWalk (pagerUnmap m virt).mem m.root a = hwWalk m.mem m.root a
  again : pagerUnmap (pagerUnmap m virt) virt
    = { pagerUnmap m virt with
        touched := (pagerUnmap (pagerUnmap m virt) virt).touched
        faults := (pagerUnmap (pagerUnmap m virt) virt).faults }
  remap : ∀ phys flags, phys < 2 ^ m.cpuPhysBits →
    TablesGranted (pagerMap (pagerUnmap m virt) virt phys flags).2 →
    (hwWalk (pagerMap (pagerUnmap m virt) virt phys flags).2.mem m.root virt).map Prod.fst
      = some (phys / (MapCall.mk virt phys flags).bytes * (MapCall.mk virt phys flags).bytes
          + virt % (MapCall.mk virt phys flags).bytes)

/-! ## The entry that is cleared -/

/-- What `pager_unmap` stores in memory. -/
inductive Cleared (m : Machine) (virt : Nat) (mem' : Nat → Fin 512 → Nat) : Prop where
  | slot (pd : Nat) (table : tableAt x86Kind m.mem 3 m.root (pdPath virt) = some pd)
      (huge : m.mem pd (tableIndex virt 21) / 128 % 2 = 1)
      (stored : mem' = store m.mem pd (tableIndex virt 21)
        (m.mem pd (tableIndex virt 21) &&& not64 pagePresent))
  | page (pt : Nat) (table : tableAt x86Kind m.mem 3 m.root (ptPath virt) = some pt)
      (stored : mem' = store m.mem pt (tableIndex virt 12)
        (m.mem pt (tableIndex virt 12) &&& not64 pagePresent))
  | nothing (noTable : tableAt x86Kind m.mem 3 m.root (ptPath virt) = none)
      (small : ∀ pd, tableAt x86Kind m.mem 3 m.root (pdPath virt) = some pd →
        m.mem pd (tableIndex virt 21) / 128 % 2 = 0)
      (same : mem' = m.mem)

section Clear

variable {m : Machine} {virt : Nat}

/-- A table that is not there has none below. -/
theorem no_table_below {p q : List (Fin 512)} (h : tableAt x86Kind m.mem 3 m.root p = none) :
    tableAt x86Kind m.mem 3 m.root (p ++ q) = none := by
  cases hq : tableAt x86Kind m.mem 3 m.root (p ++ q) with
  | none => rfl
  | some g =>
      obtain ⟨g', hg'⟩ := tableAt_prefix hq
      rw [h] at hg'
      cases hg'

/-- An absent entry links no table. -/
theorem no_table_of_absent {p : List (Fin 512)} {f : Nat} {i : Fin 512}
    (hp : tableAt x86Kind m.mem 3 m.root p = some f) (hlen : p.length < 3)
    (he : m.mem f i % 2 = 0) : tableAt x86Kind m.mem 3 m.root (p ++ [i]) = none := by
  obtain ⟨k, hk⟩ : ∃ k, 3 - p.length = k + 1 := ⟨2 - p.length, by omega⟩
  rw [tableAt_concat hp hk, x86Kind_absent.mpr he]

/-- The entry of a slot that has a page table is a link: its huge bit is
    clear. -/
theorem slot_of_page_table {pd pt : Nat}
    (hpd : tableAt x86Kind m.mem 3 m.root (pdPath virt) = some pd)
    (hpt : tableAt x86Kind m.mem 3 m.root (ptPath virt) = some pt) :
    m.mem pd (tableIndex virt 21) / 128 % 2 = 0 := by
  have hlink : tableAt x86Kind m.mem 3 m.root (pdPath virt ++ [tableIndex virt 21]) = some pt :=
    hpt
  by_contra hbit
  by_cases hodd : m.mem pd (tableIndex virt 21) % 2 = 0
  · rw [no_table_of_absent hpd (Nat.lt_succ_self 2) hodd] at hlink
    cases hlink
  · have hconcat := tableAt_concat (i := tableIndex virt 21) hpd
      (show 3 - (pdPath virt).length = 0 + 1 from rfl)
    rw [x86Kind_huge (by omega) (by omega)] at hconcat
    rw [hconcat] at hlink
    cases hlink

theorem pagerUnmap_cleared (hok : TablesOk m) (hmapped : m.mappedPml4 = m.firmwarePml4)
    (hpml4 : m.firmwarePml4 ≠ 0) : Cleared m virt (pagerUnmap m virt).mem := by
  have hroot : tableAt x86Kind m.mem 3 m.root [] = some (tableFrame m.firmwarePml4) :=
    tableAt_nil 3 m.root
  -- without a page directory nothing is stored
  have hnone : tableAt x86Kind m.mem 3 m.root (pdPath virt) = none → Cleared m virt m.mem := by
    intro hpd
    exact .nothing (no_table_below hpd) (fun pd hc => by rw [hpd] at hc; cases hc) rfl
  unfold pagerUnmap
  rw [hmapped]
  extract_lets pml4 m4 e4 pdpt m3 e3 pd m2 e2 pt m1
  rw [if_neg hpml4]
  have hok4 : TablesOk m4 := hok.touch hroot
  by_cases he4 : e4 % 2 = 0
  · rw [if_pos ((and_present _).trans he4)]
    exact hnone (no_table_below (q := [tableIndex virt 30])
      (no_table_of_absent hroot (by decide) he4))
  · rw [if_neg (fun h => he4 ((and_present _).symm.trans h))]
    have h3 : tableAt x86Kind m4.mem 3 m4.root [tableIndex virt 39] = some (tableFrame pdpt) :=
      follow_link hok4 hroot (by decide) (Nat.mod_two_ne_zero.mp he4) (fun h => by cases h)
    have hok3 : TablesOk m3 := hok4.touch h3
    by_cases he3 : e3 % 2 = 0
    · rw [if_pos ((and_present _).trans he3)]
      exact hnone (no_table_of_absent (p := [tableIndex virt 39]) h3
        (by rw [List.length_singleton]; decide) he3)
    · rw [if_neg (fun h => he3 ((and_present _).symm.trans h))]
      have h2 : tableAt x86Kind m3.mem 3 m3.root (pdPath virt) = some (tableFrame pd) :=
        follow_link hok3 h3 (by rw [List.length_singleton]; decide)
          (Nat.mod_two_ne_zero.mp he3) (fun h => by cases h)
      have hok2 : TablesOk m2 := hok3.touch h2
      by_cases hbit : e2 / 128 % 2 = 1
      · rw [if_pos ((and_huge_ne _).mpr hbit)]
        exact .slot (tableFrame pd) h2 hbit rfl
      · rw [if_neg (fun h => hbit ((and_huge_ne _).mp h))]
        by_cases he2 : e2 % 2 = 0
        · rw [if_pos ((and_present _).trans he2)]
          refine .nothing (no_table_of_absent h2 (Nat.lt_succ_self 2) he2) ?_ rfl
          intro pd' hpd'
          rw [← Option.some.inj (h2.symm.trans hpd')]
          exact Nat.mod_two_ne_one.mp hbit
        · rw [if_neg (fun h => he2 ((and_present _).symm.trans h))]
          have h2' : tableAt x86Kind m2.mem 3 m2.root (pdPath virt) = some (tableFrame pd) :=
            (tableAt_touch m3 pd (pdPath virt)).trans h2
          have h1 : tableAt x86Kind m2.mem 3 m2.root (ptPath virt) = some (tableFrame pt) :=
            follow_link hok2 h2' (Nat.lt_succ_self 2) (Nat.mod_two_ne_zero.mp he2)
              (fun _ => Nat.mod_two_ne_one.mp hbit)
          exact .page (tableFrame pt) h1 rfl

/-! ## A second call -/

theorem clearPresent_huge {e : Nat} (h : e / 128 % 2 = 1) :
    (e &&& not64 pagePresent) / 128 % 2 = 1 := by
  have hmask : (not64 pagePresent).testBit 7 = true := by decide
  have hbit : (e &&& not64 pagePresent).testBit 7 = true := by
    rw [Nat.testBit_and, hmask, Bool.and_true, Nat.testBit_eq_decide_div_mod_eq]
    exact decide_eq_true h
  rw [Nat.testBit_eq_decide_div_mod_eq, decide_eq_true_eq] at hbit
  exact hbit

theorem clearPresent_again (e : Nat) :
    e &&& not64 pagePresent &&& not64 pagePresent = e &&& not64 pagePresent := by
  rw [Nat.and_assoc, Nat.and_self]

/-- Storing what is there changes nothing. -/
theorem store_same (mem : Nat → Fin 512 → Nat) (f : Nat) (i : Fin 512) :
    store mem f i (mem f i) = mem := by
  funext f' i'
  unfold store
  by_cases h : f' = f ∧ i' = i
  · rw [if_pos h, h.1, h.2]
  · rw [if_neg h]

/-- What one call cleared, the next one clears again. -/
theorem Cleared.again {m' : Machine} {mem'' : Nat → Fin 512 → Nat} (h : Cleared m virt m'.mem)
    (hok : TablesOk m) (hroot : m'.root = m.root)
    (h' : Cleared m' virt mem'') : mem'' = m'.mem := by
  cases h with
  -- a 2 MiB leaf stays one when its present bit is cleared
  | slot pd table huge stored =>
      have htable' : tableAt x86Kind m'.mem 3 m'.root (pdPath virt) = some pd := by
        rw [hroot, stored]
        exact tableAt_store_self hok.unshared table
      have hentry : m'.mem pd (tableIndex virt 21)
          = m.mem pd (tableIndex virt 21) &&& not64 pagePresent := by
        rw [stored, store_self]
      have hhuge' : m'.mem pd (tableIndex virt 21) / 128 % 2 = 1 := by
        rw [hentry]
        exact clearPresent_huge huge
      cases h' with
      | slot pd' table' _ stored' =>
          have hpd : pd' = pd := Option.some.inj (table'.symm.trans htable')
          rw [stored', hpd, hentry, clearPresent_again, ← hentry]
          exact store_same _ _ _
      | page pt' table' _ =>
          have hsmall := slot_of_page_table htable' table'
          omega
      | nothing _ small' _ =>
          have hsmall := small' pd htable'
          omega
  | page pt table stored =>
      have htable' : tableAt x86Kind m'.mem 3 m'.root (ptPath virt) = some pt := by
        rw [hroot, stored]
        exact tableAt_store_self hok.unshared table
      have hentry : m'.mem pt (tableIndex virt 12)
          = m.mem pt (tableIndex virt 12) &&& not64 pagePresent := by
        rw [stored, store_self]
      cases h' with
      | slot pd' table' huge' _ =>
          have hsmall := slot_of_page_table table' htable'
          omega
      | page pt' table' stored' =>
          have hpt : pt' = pt := Option.some.inj (table'.symm.trans htable')
          rw [stored', hpt, hentry, clearPresent_again, ← hentry]
          exact store_same _ _ _
      | nothing noTable' _ _ =>
          rw [htable'] at noTable'
          cases noTable'
  -- no entry was there, and nothing was stored
  | nothing noTable small same =>
      cases h' with
      | slot pd' table' huge' _ =>
          rw [hroot, same] at table'
          have hsmall := small pd' table'
          rw [same] at huge'
          omega
      | page pt' table' _ =>
          rw [hroot, same, noTable] at table'
          cases table'
      | nothing _ _ same' => exact same'

/-- Two machines that differ at most in the accesses they have on record. -/
theorem eq_but_accesses {m m' : Machine} (hmem : m'.mem = m.mem) (havmf : m'.avmf = m.avmf)
    (hlog : m'.tableLog = m.tableLog) (hregs : SameRegs m m') :
    m' = { m with touched := m'.touched, faults := m'.faults } := by
  obtain ⟨h1, h2, h3, h4, h5⟩ := hregs
  cases m
  cases m'
  simp only at hmem havmf hlog h1 h2 h3 h4 h5
  subst hmem havmf hlog h1 h2 h3 h4 h5
  rfl

/-! ## Well-formed tables -/

/-- A mapping of the address that follows is served: the slot holds no leaf
    any more, and the entry gets the new one, whatever bits were left in it. -/
theorem PagerOk.remapped {m' : Machine} (h : PagerOk m) (hun : Unmapped m virt m')
    {phys flags : Nat} (hphys : phys < 2 ^ m.cpuPhysBits)
    (hgranted : TablesGranted (pagerMap m' virt phys flags).2) :
    (hwWalk (pagerMap m' virt phys flags).2.mem m.root virt).map Prod.fst
      = some (phys / (MapCall.mk virt phys flags).bytes * (MapCall.mk virt phys flags).bytes
          + virt % (MapCall.mk virt phys flags).bytes) := by
  have hregs := hun.regs
  have hpow : 2 ^ m.cpuPhysBits ≤ 2 ^ 52 := Nat.pow_le_pow_right (by decide) h.bits
  -- the slot of the address is not huge-mapped any more
  have hfits : ¬ (MapCall.mk virt phys flags).SplitsHuge m' := by
    rintro ⟨-, -, hhuge⟩
    rw [hregs.root] at hhuge
    unfold hugeAt at hhuge
    rw [hun.gone _ (sameLeaf_self m virt)] at hhuge
    cases hhuge
  have hwalk := (walkPage_replaced hun.ok (by rw [hregs.cpuPhysBits]; exact h.bits)
    (show phys < 2 ^ 64 by omega) hfits hgranted).2 (virt / pageSize)
  rw [hregs.root, hregs.cpuPhysBits, if_pos ⟨hphys, MapCall.replaces_self _⟩] at hwalk
  have haddr := @leafAddress_call (MapCall.mk virt phys flags) (show phys < 2 ^ 52 by omega) virt
  unfold hwWalk
  rw [show (pagerMap m' virt phys flags).2 = Pfi.mapStep m' ⟨virt, phys, flags⟩ from rfl, hwalk]
  exact congrArg some haddr

/-- `pager_unmap` on loaded tables that are well formed. -/
theorem PagerOk.unmapsOneLeaf (h : PagerOk m) (hmapped : m.mappedPml4 = m.firmwarePml4)
    (hlog : TablesGranted m) (virt : Nat) : UnmapsOneLeaf m virt := by
  have hpml4 := h.tables.pml4_ne hlog
  have hun := pagerUnmap_unmapped virt h.tables hmapped hpml4
  have hcleared := @pagerUnmap_cleared m virt h.tables hmapped hpml4
  have hregs := hun.regs
  refine ⟨?_, ?_, ?_, fun phys flags hphys hgranted => h.remapped hun hphys hgranted⟩
  · intro a ha
    unfold hwWalk
    rw [hun.gone _ ha]
    rfl
  · intro a ha
    unfold hwWalk
    rw [hun.kept _ ha]
  · have hpml4' : (pagerUnmap m virt).firmwarePml4 ≠ 0 := by
      rw [hregs.firmwarePml4]
      exact hpml4
    have hmapped' : (pagerUnmap m virt).mappedPml4 = (pagerUnmap m virt).firmwarePml4 := by
      rw [hregs.mappedPml4, hregs.firmwarePml4]
      exact hmapped
    have hsecond := @pagerUnmap_cleared _ virt hun.ok hmapped' hpml4'
    have hmem := hcleared.again h.tables hregs.root hsecond
    have halloc := pagerUnmap_allocator (pagerUnmap m virt) virt
    exact eq_but_accesses hmem halloc.1 halloc.2 (sameRegs_pagerUnmap _ virt)

end Clear

/-! ## Tables that `pager_map` builds -/

/-- In tables that calls of `pager_map` build on an empty PML4, each call with
    the page tables that it needs and no 4 KiB call in a slot that is
    huge-mapped, an unmapping removes one leaf. -/
theorem unmaps_one_leaf {m : Machine} (hempty : EmptyPml4 m) (hbits : m.cpuPhysBits ≤ 52)
    (hmapped : m.mappedPml4 = m.firmwarePml4) {calls : List MapCall}
    (hword : ∀ c ∈ calls, c.phys < 2 ^ 64)
    (hsmall : Along mapStep (fun m c => ¬ c.SplitsHuge m) m calls)
    (hlog : TablesGranted (exec mapStep m calls)) (virt : Nat) :
    UnmapsOneLeaf (exec mapStep m calls) virt := by
  have hstart : PagerOk m := ⟨hempty.tablesOk, hbits, Or.inr hmapped⟩
  have hregs := sameRegs_exec m calls
  refine (hstart.exec hword hsmall hlog).unmapsOneLeaf ?_ hlog virt
  rw [hregs.mappedPml4, hregs.firmwarePml4]
  exact hmapped

/-- A 4 KiB page, and a 2 MiB page that replaces its slot. -/
theorem unmaps_one_leaf_slot :
    UnmapsOneLeaf (exec mapStep smallMachine
      [⟨0x201000, 0x5000, 3⟩, ⟨0x200000, 0x600000, 0x83⟩]) 0x201000 := by
  refine unmaps_one_leaf smallMachine_empty (by decide) rfl ?_ ?_ ?_ 0x201000
  · decide
  · decide +kernel
  · decide +kernel

/-- Without a free page the tables of two addresses are both physical page 0:
    unmapping the one unmaps the other. -/
theorem unmap_shared_table :
    let calls : List MapCall := [⟨0x1000, 0x5000, 3⟩, ⟨0x8000001000, 0x6000, 3⟩]
    let m := exec mapStep exhaustedMachine calls
    EmptyPml4 exhaustedMachine ∧ exhaustedMachine.mappedPml4 = exhaustedMachine.firmwarePml4 ∧
      Along mapStep (fun m c => ¬ c.SplitsHuge m) exhaustedMachine calls ∧
      ¬ UnmapsOneLeaf m 0x1000 := by
  intro calls m
  refine ⟨⟨fun _ => rfl, by decide, by decide, by decide, fun _ hf => by cases hf⟩, rfl,
    by decide +kernel, fun h => ?_⟩
  have hother : ¬ SameLeaf m 0x1000 (0x8000001000 / pageSize) := by
    unfold SameLeaf
    decide +kernel
  have hkept := h.kept 0x8000001000 hother
  revert hkept
  decide +kernel

end Pfi
