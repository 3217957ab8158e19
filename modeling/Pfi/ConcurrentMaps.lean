import Pfi.Exhaustion
import Pfi.Usable

/-! # Mapping on several cores

    `pager_map` takes no lock, and the application processors reach it through
    `avmf_alloc`.  Here a call is a sequence of atomic steps: each reading of
    an entry, each `alloc_page_table` and each store of an entry is one, and a
    schedule says which core takes the next.  A call that runs alone is
    `pager_map` (`mapAlone`).

    Between the test that finds an entry absent and the store of the link,
    another core may link a table there; the store then takes that table, and
    what was mapped through it, out of the tree.  If no store does this, and
    no 2 MiB leaf is followed as a table, each point of each call stands on a
    table of the tree, whatever the others do (`MapInv`), and every call that
    has finished has its translation (`concurrent_maps`). -/

namespace Pfi

open Words RadixTable Run

/-! ## One call, step by step -/

/-- Where a call of `pager_map` stands: `i` is the index of the next entry of
    the table `tbl`, and `rest` are the indices of the tables below. -/
inductive MapPc where
  | start
  | test (i : Fin 512) (rest : List (Fin 512)) (tbl : Nat)
  | follow (i : Fin 512) (rest : List (Fin 512)) (tbl : Nat)
  | alloc (i : Fin 512) (rest : List (Fin 512)) (tbl : Nat)
  | link (i : Fin 512) (rest : List (Fin 512)) (tbl next phys : Nat)
  | leaf (tbl : Nat)
  | done
deriving Repr, DecidableEq

/-- At a table with the indices that are left. -/
def MapPc.enter (tbl : Nat) : List (Fin 512) → MapPc
  | [] => .leaf tbl
  | i :: rest => .test i rest tbl

/-- The index of the entry that the call stores last. -/
def MapCall.leafIndex (c : MapCall) : Fin 512 :=
  if c.Huge then tableIndex c.virt 21 else tableIndex c.virt 12

/-- A call for a large page stores its leaf in a page directory. -/
theorem MapCall.stores_huge {c : MapCall} (h : c.Huge) :
    tablePath c.virt c.flags = pdPath c.virt ∧ c.leafIndex = tableIndex c.virt 21 ∧
      c.leaf = (1, hugeEntry c.phys c.flags) :=
  ⟨if_pos h, if_pos h, if_pos h⟩

/-- Any other call stores it in a page table. -/
theorem MapCall.stores_page {c : MapCall} (h : ¬ c.Huge) :
    tablePath c.virt c.flags = ptPath c.virt ∧ c.leafIndex = tableIndex c.virt 12 ∧
      c.leaf = (0, pageEntry c.phys c.flags) :=
  ⟨if_neg h, if_neg h, if_neg h⟩

/-- One atomic step of the call. -/
def mapCallStep (c : MapCall) (m : Machine) : MapPc → Machine × MapPc
  | .start =>
      if exceedsCpu m c.phys then (m, .done)
      else (m, .enter m.firmwarePml4 (tablePath c.virt c.flags))
  | .test i rest tbl =>
      let m := m.touch tbl
      if m.entry tbl i &&& pagePresent = 0 then (m, .alloc i rest tbl)
      else (m, .follow i rest tbl)
  | .follow i rest tbl =>
      (m, .enter (pagerPhysToVirt m (m.entry tbl i &&& not64 0xFFF)) rest)
  | .alloc i rest tbl =>
      let r := allocPageTable m
      (r.m, .link i rest tbl r.tbl r.phys)
  | .link i rest tbl next phys =>
      (m.setEntry tbl i (phys ||| pagePresent ||| pageRw), .enter next rest)
  | .leaf tbl => (m.setEntry tbl c.leafIndex c.leaf.2, .done)
  | .done => (m, .done)

section Alone

variable (c : MapCall)

/-- The machine and the place of the call after `k` steps in a row. -/
def mapCallSteps : Nat → Machine × MapPc → Machine × MapPc
  | 0, s => s
  | k + 1, s => mapCallSteps k (mapCallStep c s.1 s.2)

/-- No step. -/
@[simp] theorem mapCallSteps_zero (s : Machine × MapPc) : mapCallSteps c 0 s = s := rfl

/-- A step, and the others. -/
@[simp] theorem mapCallSteps_succ (k : Nat) (s : Machine × MapPc) :
    mapCallSteps c (k + 1) s = mapCallSteps c k (mapCallStep c s.1 s.2) := rfl

/-- Steps after steps. -/
theorem mapCallSteps_add (k k' : Nat) (s : Machine × MapPc) :
    mapCallSteps c (k + k') s = mapCallSteps c k' (mapCallSteps c k s) := by
  induction k generalizing s with
  | zero => rw [Nat.zero_add, mapCallSteps_zero]
  | succ k ih => rw [Nat.succ_add, mapCallSteps_succ, mapCallSteps_succ, ih]

/-- One level of the descent. -/
theorem mapCallSteps_level (m : Machine) (i : Fin 512) (rest : List (Fin 512)) (tbl : Nat) :
    ∃ k, mapCallSteps c k (m, .test i rest tbl)
      = ((nextTable m tbl i).2, .enter (nextTable m tbl i).1 rest) := by
  unfold nextTable
  dsimp only
  by_cases he : (m.touch tbl).entry tbl i &&& pagePresent = 0
  · refine ⟨3, ?_⟩
    rw [if_pos he]
    simp only [mapCallSteps_succ, mapCallSteps_zero, mapCallStep, if_pos he]
  · refine ⟨2, ?_⟩
    rw [if_neg he]
    simp only [mapCallSteps_succ, mapCallSteps_zero, mapCallStep, if_neg he]

/-- The descent along a path, by induction on the path. -/
theorem mapCallSteps_descend (p : List (Fin 512)) (m : Machine) (tbl : Nat) :
    ∃ k, mapCallSteps c k (m, .enter tbl p)
      = ((descend m tbl p).2, .leaf (descend m tbl p).1) := by
  induction p generalizing m tbl with
  | nil => exact ⟨0, rfl⟩
  | cons i p ih =>
      obtain ⟨k, hk⟩ := mapCallSteps_level c m i p tbl
      obtain ⟨k', hk'⟩ := ih (nextTable m tbl i).2 (nextTable m tbl i).1
      refine ⟨k + k', ?_⟩
      rw [mapCallSteps_add]
      show mapCallSteps c k' (mapCallSteps c k (m, .test i p tbl)) = _
      rw [hk]
      exact hk'

/-- An accepted call stores its leaf in the last table of its path. -/
theorem pagerMap_stores {m : Machine} (hacc : exceedsCpu m c.phys = false) :
    (pagerMap m c.virt c.phys c.flags).2
      = (descend m m.firmwarePml4 (tablePath c.virt c.flags)).2.setEntry
          (descend m m.firmwarePml4 (tablePath c.virt c.flags)).1 c.leafIndex c.leaf.2 := by
  rw [pagerMap_accepted hacc]
  by_cases hhuge : c.Huge
  · obtain ⟨hpath, hindex, hleaf⟩ := MapCall.stores_huge hhuge
    rw [if_pos (show c.flags &&& pageHuge ≠ 0 from hhuge), hpath, hindex, hleaf]
    rfl
  · obtain ⟨hpath, hindex, hleaf⟩ := MapCall.stores_page hhuge
    rw [if_neg (show ¬ c.flags &&& pageHuge ≠ 0 from hhuge), hpath, hindex, hleaf]
    rfl

/-- A call whose steps no other core interrupts is `pager_map`. -/
theorem mapAlone (m : Machine) : ∃ k, mapCallSteps c k (m, .start)
    = ((pagerMap m c.virt c.phys c.flags).2, .done) := by
  by_cases hrej : exceedsCpu m c.phys = true
  · refine ⟨1, ?_⟩
    rw [pagerMap_rejected hrej]
    simp only [mapCallSteps_succ, mapCallSteps_zero, mapCallStep, if_pos hrej]
  · obtain ⟨k, hk⟩ := mapCallSteps_descend c (tablePath c.virt c.flags) m m.firmwarePml4
    rw [pagerMap_stores c (Bool.not_eq_true _ ▸ hrej)]
    refine ⟨k + 1 + 1, ?_⟩
    rw [mapCallSteps_succ]
    simp only [mapCallStep, if_neg hrej]
    rw [mapCallSteps_add, hk]
    rfl

end Alone

/-- The frame is checked first. -/
theorem mapCallStep_start (c : MapCall) (m : Machine) : mapCallStep c m .start
    = if exceedsCpu m c.phys then (m, .done)
      else (m, .enter m.firmwarePml4 (tablePath c.virt c.flags)) := rfl

/-- The present bit is tested. -/
theorem mapCallStep_test (c : MapCall) (m : Machine) (i : Fin 512) (rest : List (Fin 512))
    (tbl : Nat) : mapCallStep c m (.test i rest tbl)
      = if (m.touch tbl).entry tbl i &&& pagePresent = 0 then (m.touch tbl, .alloc i rest tbl)
        else (m.touch tbl, .follow i rest tbl) := rfl

/-- A table is allocated. -/
theorem mapCallStep_alloc (c : MapCall) (m : Machine) (i : Fin 512) (rest : List (Fin 512))
    (tbl : Nat) : mapCallStep c m (.alloc i rest tbl)
      = ((allocPageTable m).m, .link i rest tbl (allocPageTable m).tbl (allocPageTable m).phys) :=
  rfl

/-- The table is linked, and entered. -/
theorem mapCallStep_link (c : MapCall) (m : Machine) (i : Fin 512) (rest : List (Fin 512))
    (tbl next phys : Nat) : mapCallStep c m (.link i rest tbl next phys)
      = (m.setEntry tbl i (phys ||| pagePresent ||| pageRw), .enter next rest) := rfl

/-- The table that the entry links is entered. -/
theorem mapCallStep_follow (c : MapCall) (m : Machine) (i : Fin 512) (rest : List (Fin 512))
    (tbl : Nat) : mapCallStep c m (.follow i rest tbl)
      = (m, .enter (pagerPhysToVirt m (m.entry tbl i &&& not64 0xFFF)) rest) := rfl

/-- The leaf is stored, and the call is done. -/
theorem mapCallStep_leaf (c : MapCall) (m : Machine) (tbl : Nat) :
    mapCallStep c m (.leaf tbl) = (m.setEntry tbl c.leafIndex c.leaf.2, .done) := rfl

/-- A link is about to be stored only where the entry is still absent, and no
    2 MiB leaf is about to be followed as a table. -/
def MapPc.Undisturbed (m : Machine) : MapPc → Prop
  | .link i _ tbl _ _ => m.entry tbl i &&& pagePresent = 0
  | .follow i _ tbl => m.entry tbl i &&& pageHuge = 0
  | _ => True

instance (m : Machine) : (pc : MapPc) → Decidable (pc.Undisturbed m)
  | .start | .test _ _ _ | .alloc _ _ _ | .leaf _ | .done => isTrue trivial
  | .link _ _ _ _ _ | .follow _ _ _ => inferInstanceAs (Decidable (_ = _))

/-! ## Several calls -/

/-- The shared machine, and where the call of each core stands. -/
structure MapSys (ι : Type) where
  m : Machine
  pc : ι → MapPc

/-- No call has begun. -/
def MapSys.begin (ι : Type) (m : Machine) : MapSys ι := ⟨m, fun _ => .start⟩

section System

variable {ι : Type} [DecidableEq ι]

/-- Core `i` takes one step of its call. -/
def MapSys.step (calls : ι → MapCall) (s : MapSys ι) (i : ι) : MapSys ι :=
  let r := mapCallStep (calls i) s.m (s.pc i)
  { m := r.1, pc := Function.update s.pc i r.2 }

end System

/-! ## What the steps of the others leave -/

/-- What a call that maps page `n` relies on: the tables on the path of the
    page, the present entries that link them, and the translation. -/
structure Kept (m m' : Machine) (n : Nat) : Prop where
  tables : ∀ p f, p <+: pagePath n → tableAt x86Kind m.mem 3 m.root p = some f →
    tableAt x86Kind m'.mem 3 m.root p = some f
  entries : ∀ p f i, (p ++ [i]) <+: pagePath n → tableAt x86Kind m.mem 3 m.root p = some f →
    m.mem f i % 2 = 1 → m'.mem f i = m.mem f i
  walk : walkPage m'.mem m.root n = walkPage m.mem m.root n

/-- All of it is kept when no entry changes. -/
theorem Kept.of_mem {m m' : Machine} (hmem : m'.mem = m.mem) (n : Nat) : Kept m m' n := by
  refine ⟨?_, ?_, ?_⟩
  · rw [hmem]
    exact fun _ _ _ h => h
  · rw [hmem]
    exact fun _ _ _ _ _ _ => rfl
  · rw [hmem]

/-- Obtaining a table. -/
theorem SetAside.kept {m m' : Machine} {g : Nat} (h : SetAside m m' g) (hok : TablesOk m)
    (hfree : bitmapTest m.avmf.avmfBitmap g = 0)
    (hmem : m'.mem = fun f i => if f = g then 0 else m.mem f i) (n : Nat) : Kept m m' n := by
  refine ⟨fun p f _ hp => (h.tables p).trans hp, ?_, h.walk _⟩
  intro p f i _ hp _
  have hne : f ≠ g := by
    rintro rfl
    have := (hok.owned p f hp).2.1
    omega
  rw [hmem]
  exact if_neg hne

/-- Linking a table where the entry is absent. -/
theorem LinkedAt.kept {m : Machine} {tbl g e : Nat} {i : Fin 512} {path : List (Fin 512)}
    (h : LinkedAt m (m.setEntry tbl i e) path g) (he : m.mem (tableFrame tbl) i % 2 = 0)
    (n : Nat) : Kept m (m.setEntry tbl i e) n := by
  refine ⟨fun p f _ hp => h.old p f hp, ?_, h.walk _⟩
  intro p f j _ _ hodd
  refine if_neg ?_
  rintro ⟨rfl, rfl⟩
  omega

section Leaf

variable {m : Machine} {c : MapCall} {tbl : Nat}

/-- The pages that the leaf of a call translates have its slot on their
    path. -/
theorem MapCall.replaces_iff_slot (c : MapCall) (n : Nat) :
    c.Replaces n ↔ (tablePath c.virt c.flags ++ [c.leafIndex]) <+: pagePath n := by
  by_cases hhuge : c.Huge
  · obtain ⟨hpath, hindex, -⟩ := MapCall.stores_huge hhuge
    rw [MapCall.replaces_huge hhuge, hpath, hindex]
    exact (slot_prefix_iff c.virt n).symm
  · obtain ⟨hpath, hindex, -⟩ := MapCall.stores_page hhuge
    rw [MapCall.replaces_page hhuge, hpath, hindex]
    exact (page_prefix_iff c.virt n).symm

/-- The leaf that a call stores is one, at the level of its table. -/
theorem MapCall.leaf_kind (hword : c.phys < 2 ^ 64) :
    c.leaf.1 = 3 - (tablePath c.virt c.flags).length ∧ x86Kind c.leaf.1 c.leaf.2 = .leaf ∧
      ((tablePath c.virt c.flags).length < 3 → EntryOk c.leaf.1 c.leaf.2) := by
  by_cases hhuge : c.Huge
  · obtain ⟨hpath, -, hleaf⟩ := MapCall.stores_huge hhuge
    have hbit : c.flags / 128 % 2 = 1 := (and_huge_ne _).mp hhuge
    have hodd : hugeEntry c.phys c.flags % 2 = 1 := by
      rw [hugeEntry_eq c.flags hword]; omega
    have hhigh : hugeEntry c.phys c.flags / 128 % 2 = 1 := by
      rw [hugeEntry_eq c.flags hword]; omega
    rw [hpath, hleaf]
    exact ⟨rfl, x86Kind_huge hodd hhigh, fun _ _ => Or.inl ⟨rfl, hhigh⟩⟩
  · obtain ⟨hpath, -, hleaf⟩ := MapCall.stores_page hhuge
    have hodd : pageEntry c.phys c.flags % 2 = 1 := by
      rw [pageEntry_eq c.flags hword]; omega
    rw [hpath, hleaf]
    exact ⟨rfl, x86Kind_page hodd, fun hc => absurd hc (Nat.lt_irrefl 3)⟩

/-- The store of a leaf. -/
theorem MapCall.stored (hok : TablesOk m) (hword : c.phys < 2 ^ 64)
    (hp : tableAt x86Kind m.mem 3 m.root (tablePath c.virt c.flags) = some (tableFrame tbl)) :
    TablesOk (m.setEntry tbl c.leafIndex c.leaf.2) ∧
      walkPage (m.setEntry tbl c.leafIndex c.leaf.2).mem m.root (c.virt / 4096) = some c.leaf ∧
      ∀ n, ¬ c.Replaces n → Kept m (m.setEntry tbl c.leafIndex c.leaf.2) n := by
  obtain ⟨hlevel, hkind, hentry⟩ := MapCall.leaf_kind hword
  rw [hlevel] at hkind hentry
  refine ⟨hok.setEntry hp ?_ hentry, ?_, ?_⟩
  · intro g hg
    rw [hkind] at hg
    cases hg
  · have hself := (c.replaces_iff_slot _).mp c.replaces_self
    have hwalk := walk_store_leaf_below hok.unshared hp hkind hself
    rw [← hlevel] at hwalk
    exact hwalk
  · intro n hn
    have hout : ¬ (tablePath c.virt c.flags ++ [c.leafIndex]) <+: pagePath n :=
      fun hc => hn ((c.replaces_iff_slot n).mpr hc)
    refine ⟨?_, ?_, walk_store_ne hok.unshared hp hout⟩
    · intro p f hpre hpf
      show tableAt x86Kind (store m.mem (tableFrame tbl) c.leafIndex c.leaf.2) 3 m.root p = some f
      rw [tableAt_store_ne hok.unshared hp (fun hc => hout (hc.trans hpre))]
      exact hpf
    · intro p f i hpre hpf _
      refine if_neg ?_
      rintro ⟨rfl, rfl⟩
      -- the entry that is written lies on the path of no other page
      rw [hok.unshared _ _ _ hpf hp] at hpre
      exact hout hpre

end Leaf

/-! ## Where a call stands -/

/-- The table of the next entry is one of the tree, on the path of the
    call. -/
def OnPath (m : Machine) (c : MapCall) (i : Fin 512) (rest : List (Fin 512)) (tbl : Nat) : Prop :=
  ∃ p, p ++ i :: rest = tablePath c.virt c.flags ∧
    tableAt x86Kind m.mem 3 m.root p = some (tableFrame tbl)

/-- What holds at each point of a call. -/
def PcOk (m : Machine) (c : MapCall) : MapPc → Prop
  | .start => True
  | .test i rest tbl => OnPath m c i rest tbl
  | .follow i rest tbl => OnPath m c i rest tbl ∧ m.mem (tableFrame tbl) i % 2 = 1
  | .alloc i rest tbl => OnPath m c i rest tbl
  | .link i rest tbl next phys =>
      OnPath m c i rest tbl ∧ phys = tableFrame next * 4096 ∧ Spare m (tableFrame next)
  | .leaf tbl =>
      tableAt x86Kind m.mem 3 m.root (tablePath c.virt c.flags) = some (tableFrame tbl)
  | .done => walkPage m.mem m.root (c.virt / 4096) = some c.leaf

/-- The page that the call has set aside. -/
def MapPc.aside : MapPc → Option Nat
  | .link _ _ _ next _ => some (tableFrame next)
  | _ => none

section Pc

variable {m m' : Machine} {c : MapCall} {pc : MapPc}

/-- A call that enters a table has no page set aside. -/
theorem aside_enter (tbl : Nat) (rest : List (Fin 512)) : (MapPc.enter tbl rest).aside = none := by
  cases rest <;> rfl

/-- A table that is reached may be entered. -/
theorem pcOk_enter {p rest : List (Fin 512)} {tbl : Nat}
    (hpath : p ++ rest = tablePath c.virt c.flags)
    (hp : tableAt x86Kind m.mem 3 m.root p = some (tableFrame tbl)) :
    PcOk m c (.enter tbl rest) := by
  cases rest with
  | nil =>
      rw [List.append_nil] at hpath
      rw [hpath] at hp
      exact hp
  | cons i rest => exact ⟨p, hpath, hp⟩

/-- The tables of a call are on the path of its page. -/
theorem tablePath_onPage (c : MapCall) :
    tablePath c.virt c.flags <+: pagePath (c.virt / 4096) :=
  (List.prefix_append _ _).trans ((c.replaces_iff_slot _).mp c.replaces_self)

/-- The place of a call stays while what it relies on is kept. -/
theorem OnPath.kept {i : Fin 512} {rest : List (Fin 512)} {tbl : Nat}
    (h : OnPath m c i rest tbl) (hk : Kept m m' (c.virt / 4096)) (hroot : m'.root = m.root) :
    OnPath m' c i rest tbl := by
  obtain ⟨p, hpath, hp⟩ := h
  refine ⟨p, hpath, ?_⟩
  rw [hroot]
  refine hk.tables p _ (List.IsPrefix.trans ?_ (tablePath_onPage c)) hp
  rw [← hpath]
  exact List.prefix_append _ _

/-- What stands for a call stands after a step of another. -/
theorem PcOk.kept (h : PcOk m c pc) (hk : Kept m m' (c.virt / 4096)) (hroot : m'.root = m.root)
    (hspare : ∀ g, pc.aside = some g → Spare m' g) : PcOk m' c pc := by
  cases pc with
  | start => trivial
  | test i rest tbl => exact OnPath.kept h hk hroot
  | alloc i rest tbl => exact OnPath.kept h hk hroot
  | follow i rest tbl =>
      obtain ⟨hon, hodd⟩ := h
      refine ⟨hon.kept hk hroot, ?_⟩
      obtain ⟨p, hpath, hp⟩ := hon
      rw [hk.entries p _ i (List.IsPrefix.trans ?_ (tablePath_onPage c)) hp hodd]
      · exact hodd
      · rw [← hpath]
        exact ⟨rest, by rw [List.append_assoc]; rfl⟩
  | link i rest tbl next phys =>
      obtain ⟨hon, hphys, -⟩ := h
      exact ⟨hon.kept hk hroot, hphys, hspare _ rfl⟩
  | leaf tbl =>
      show tableAt x86Kind m'.mem 3 m'.root _ = _
      rw [hroot]
      exact hk.tables _ _ (tablePath_onPage c) h
  | done =>
      show walkPage m'.mem m'.root _ = _
      rw [hroot, hk.walk]
      exact h

end Pc

/-! ## A step of one call -/

/-- What a step of a call leaves of the shared machine, for the call itself
    and for the others. -/
structure StepKeeps (m : Machine) (c : MapCall) (pc : MapPc) (r : Machine × MapPc) : Prop where
  ok : TablesOk r.1
  regs : SameRegs m r.1
  stands : PcOk r.1 c r.2
  kept : ∀ n, ¬ c.Replaces n → Kept m r.1 n
  spare : ∀ g, Spare m g → pc.aside ≠ some g → Spare r.1 g
  fresh : ∀ g, r.2.aside = some g → ¬ Spare m g

section Step

variable {m : Machine} {c : MapCall}

/-- Touching a table leaves the pages that are set aside. -/
theorem Spare.touch {g : Nat} (h : Spare m g) (tbl : Nat) : Spare (m.touch tbl) g :=
  ⟨h.inBitmap, h.marked, h.logged, h.unlinked, h.empty⟩

/-- A store into a table of the tree, as long as it does not link the page. -/
theorem Spare.setEntry {g tbl e : Nat} {i : Fin 512} {p : List (Fin 512)} (h : Spare m g)
    (hp : tableAt x86Kind m.mem 3 m.root p = some (tableFrame tbl))
    (hunlinked : ∀ q, tableAt x86Kind (m.setEntry tbl i e).mem 3 m.root q ≠ some g) :
    Spare (m.setEntry tbl i e) g := by
  refine ⟨h.inBitmap, h.marked, h.logged, hunlinked, fun j => ?_⟩
  have hne : g ≠ tableFrame tbl := by
    rintro rfl
    exact h.unlinked p hp
  exact (store_of_ne_table hne).trans (h.empty j)

/-- Above the last table there are at most two indices. -/
theorem OnPath.short {i : Fin 512} {rest p : List (Fin 512)}
    (hpath : p ++ i :: rest = tablePath c.virt c.flags) : p.length < 3 := by
  have hlen := congrArg List.length hpath
  have hle : (tablePath c.virt c.flags).length ≤ 3 := tablePath_length_le
  rw [List.length_append, List.length_cons] at hlen
  omega

/-- The index of the entry goes over to the path. -/
theorem OnPath.next {i : Fin 512} {rest p : List (Fin 512)}
    (hpath : p ++ i :: rest = tablePath c.virt c.flags) :
    (p ++ [i]) ++ rest = tablePath c.virt c.flags := by
  rw [← hpath, List.append_assoc]
  rfl

/-- A step that only reads. -/
theorem stepKeeps_read {pc pc' : MapPc} {m' : Machine} (hok : TablesOk m') (hregs : SameRegs m m')
    (hmem : m'.mem = m.mem) (hspare : ∀ g, Spare m g → Spare m' g) (hpc : PcOk m' c pc')
    (haside : pc'.aside = none) : StepKeeps m c pc (m', pc') :=
  ⟨hok, hregs, hpc, fun n _ => Kept.of_mem hmem n, fun g hg _ => hspare g hg,
    fun g hg => by rw [haside] at hg; cases hg⟩

/-- The test changes nothing. -/
theorem stepKeeps_test {i : Fin 512} {rest : List (Fin 512)} {tbl : Nat} (hok : TablesOk m)
    (hpc : PcOk m c (.test i rest tbl)) :
    StepKeeps m c (.test i rest tbl) (mapCallStep c m (.test i rest tbl)) := by
  obtain ⟨p, hpath, hp⟩ := hpc
  have hon : OnPath (m.touch tbl) c i rest tbl := ⟨p, hpath, hp⟩
  have hregs := sameRegs_touch m tbl
  rw [mapCallStep_test]
  by_cases he : (m.touch tbl).entry tbl i &&& pagePresent = 0
  · rw [if_pos he]
    exact stepKeeps_read (hok.touch hp) hregs rfl (fun g hg => hg.touch tbl) hon rfl
  · rw [if_neg he]
    refine stepKeeps_read (hok.touch hp) hregs rfl (fun g hg => hg.touch tbl) ⟨hon, ?_⟩ rfl
    rw [and_present] at he
    have hodd : ¬ m.mem (tableFrame tbl) i % 2 = 0 := he
    show m.mem (tableFrame tbl) i % 2 = 1
    omega

/-- An entry that is no large page leads to the next table of the path. -/
theorem stepKeeps_follow {i : Fin 512} {rest : List (Fin 512)} {tbl : Nat} (hok : TablesOk m)
    (hpc : PcOk m c (.follow i rest tbl)) (hund : m.entry tbl i &&& pageHuge = 0) :
    StepKeeps m c (.follow i rest tbl) (mapCallStep c m (.follow i rest tbl)) := by
  obtain ⟨⟨p, hpath, hp⟩, hodd⟩ := hpc
  rw [and_huge] at hund
  have hbit : m.mem (tableFrame tbl) i / 128 % 2 = 0 := by
    have hunfold : m.entry tbl i = m.mem (tableFrame tbl) i := rfl
    rw [hunfold] at hund
    omega
  have hnext := follow_link hok hp (OnPath.short hpath) hodd (fun _ => hbit)
  exact stepKeeps_read hok (SameRegs.refl m) rfl (fun g hg => hg)
    (pcOk_enter (OnPath.next hpath) hnext) (aside_enter _ _)

/-- The page that is obtained is set aside. -/
theorem stepKeeps_alloc {i : Fin 512} {rest : List (Fin 512)} {tbl : Nat} (hok : TablesOk m)
    (hpc : PcOk m c (.alloc i rest tbl))
    (hlog : TablesGranted (mapCallStep c m (.alloc i rest tbl)).1) :
    StepKeeps m c (.alloc i rest tbl) (mapCallStep c m (.alloc i rest tbl)) := by
  rw [mapCallStep_alloc] at hlog ⊢
  dsimp only at hlog
  obtain ⟨g, hg⟩ := allocPageTable_obtained hlog
  have hregs := sameRegs_allocPageTable m
  have haside := hg.setAside hok hregs
  have hkept := haside.kept hok hg.wasFree hg.mem
  generalize allocPageTable m = r at hg hregs haside hkept ⊢
  refine ⟨haside.ok, hregs, ?_, fun n _ => hkept n, ?_, ?_⟩
  · refine ⟨OnPath.kept hpc (hkept _) hregs.root, ?_, ?_⟩
    · rw [hg.phys, hg.frame]
    · rw [hg.frame]
      exact haside.spare
  · intro g' hg' _
    have hne : g' ≠ g := by
      rintro rfl
      have := hg'.marked
      have := hg.wasFree
      omega
    refine ⟨hg'.inBitmap, ?_, ?_, ?_, ?_⟩
    · rw [hg.bitmap, if_neg hne]
      exact hg'.marked
    · rw [hg.log]
      exact List.mem_append_left _ hg'.logged
    · intro q
      rw [hregs.root, haside.tables]
      exact hg'.unlinked q
    · intro j
      rw [hg.mem]
      exact (if_neg hne).trans (hg'.empty j)
  · intro g' hg' hspare
    have heq : g' = g := (Option.some.inj hg').symm.trans hg.frame
    have hmarked := hspare.marked
    have hfree := hg.wasFree
    rw [heq] at hmarked
    omega

/-- The page that is set aside becomes a table, while the entry is still
    absent. -/
theorem stepKeeps_link {i : Fin 512} {rest : List (Fin 512)} {tbl next phys : Nat}
    (hok : TablesOk m) (hpc : PcOk m c (.link i rest tbl next phys))
    (hund : m.entry tbl i &&& pagePresent = 0) :
    StepKeeps m c (.link i rest tbl next phys)
      (mapCallStep c m (.link i rest tbl next phys)) := by
  obtain ⟨⟨p, hpath, hp⟩, hphys, hspare⟩ := hpc
  rw [and_present] at hund
  have heven : m.mem (tableFrame tbl) i % 2 = 0 := hund
  have hlinked := hspare.linked hok hp (OnPath.short hpath) heven
  rw [mapCallStep_link, hphys, link_or]
  refine ⟨hlinked.ok, sameRegs_setEntry _ _ _ _, pcOk_enter (OnPath.next hpath) hlinked.table,
    fun n _ => hlinked.kept heven n, ?_, ?_⟩
  · intro g hg hne
    refine hg.setEntry hp ?_
    intro q hq
    rcases hlinked.only q g hq with ⟨-, rfl⟩ | hold
    · exact hne rfl
    · exact hg.unlinked q hold
  · intro g hg
    rw [aside_enter] at hg
    cases hg

/-- The leaf changes the translation of the call's own page only. -/
theorem stepKeeps_leaf {tbl : Nat} (hok : TablesOk m) (hword : c.phys < 2 ^ 64)
    (hpc : PcOk m c (.leaf tbl)) : StepKeeps m c (.leaf tbl) (mapCallStep c m (.leaf tbl)) := by
  obtain ⟨hafter, hwalk, hkept⟩ := MapCall.stored hok hword hpc
  obtain ⟨hlevel, hkind, -⟩ := MapCall.leaf_kind hword
  refine ⟨hafter, sameRegs_setEntry _ _ _ _, hwalk, hkept, ?_, ?_⟩
  · intro g hg _
    refine hg.setEntry hpc ?_
    intro q hq
    refine hg.unlinked q (tableAt_of_store hok.unshared hpc ?_ hq)
    intro g' hlink
    rw [← hlevel, hkind] at hlink
    cases hlink
  · intro g hg
    cases hg

/-- One step of an accepted call, unless it is disturbed. -/
theorem mapCallStep_keeps {pc : MapPc} (hok : TablesOk m) (hacc : exceedsCpu m c.phys = false)
    (hword : c.phys < 2 ^ 64) (hpc : PcOk m c pc) (hund : pc.Undisturbed m)
    (hlog : TablesGranted (mapCallStep c m pc).1) : StepKeeps m c pc (mapCallStep c m pc) := by
  cases pc with
  | start =>
      have hno : ¬ exceedsCpu m c.phys = true := by
        rw [hacc]
        exact Bool.false_ne_true
      rw [mapCallStep_start, if_neg hno]
      exact stepKeeps_read hok (SameRegs.refl m) rfl (fun g hg => hg)
        (pcOk_enter (p := []) rfl (tableAt_nil 3 m.root)) (aside_enter _ _)
  | test i rest tbl => exact stepKeeps_test hok hpc
  | follow i rest tbl => exact stepKeeps_follow hok hpc hund
  | alloc i rest tbl => exact stepKeeps_alloc hok hpc hlog
  | link i rest tbl next phys => exact stepKeeps_link hok hpc hund
  | leaf tbl => exact stepKeeps_leaf hok hword hpc
  | done => exact stepKeeps_read hok (SameRegs.refl m) rfl (fun g hg => hg) hpc rfl

end Step

/-! ## Every interleaving -/

section Interleaved

variable {ι : Type} {calls : ι → MapCall} {s : MapSys ι}

/-- The tables are well formed, each call stands where it should, and no two
    calls have set the same page aside. -/
structure MapInv (calls : ι → MapCall) (s : MapSys ι) : Prop where
  ok : TablesOk s.m
  bits : s.m.cpuPhysBits ≤ 52
  root : s.m.cr3 / pageSize = s.m.root
  accepted : ∀ i, exceedsCpu s.m (calls i).phys = false
  stands : ∀ i, PcOk s.m (calls i) (s.pc i)
  apart : ∀ i j, i ≠ j → ∀ g, (s.pc i).aside = some g → (s.pc j).aside ≠ some g

/-- The page that a call has set aside is spare. -/
theorem PcOk.spare {m : Machine} {c : MapCall} {pc : MapPc} (h : PcOk m c pc) {g : Nat}
    (hg : pc.aside = some g) : Spare m g := by
  cases pc with
  | link i rest tbl next phys =>
      obtain ⟨-, -, hspare⟩ := h
      rw [← Option.some.inj hg]
      exact hspare
  | start => cases hg
  | test i rest tbl => cases hg
  | follow i rest tbl => cases hg
  | alloc i rest tbl => cases hg
  | leaf tbl => cases hg
  | done => cases hg

/-- Before the first step the calls have set no pages aside. -/
theorem MapInv.begin {m : Machine} (hok : TablesOk m) (hbits : m.cpuPhysBits ≤ 52)
    (hroot : m.cr3 / pageSize = m.root) (hacc : ∀ i, exceedsCpu m (calls i).phys = false) :
    MapInv calls (MapSys.begin ι m) :=
  ⟨hok, hbits, hroot, hacc, fun _ => trivial, fun i j _ g hg => by cases hg⟩

/-- A call that has finished has its translation. -/
theorem MapInv.translated (h : MapInv calls s) {i : ι} (hword : (calls i).phys < 2 ^ 64)
    (hdone : s.pc i = .done) :
    (s.m.translate (calls i).virt).map (fun t => t.1 / (calls i).bytes)
      = some ((calls i).phys / (calls i).bytes) := by
  have hstands := h.stands i
  rw [hdone] at hstands
  have hwalk : walkPage s.m.mem s.m.root ((calls i).virt / pageSize) = some (calls i).leaf :=
    hstands
  have hphys : (calls i).phys < 2 ^ 52 := by
    have hacc := h.accepted i
    rw [exceedsCpu_eq h.bits hword, decide_eq_false_iff_not] at hacc
    exact Nat.lt_of_lt_of_le (Nat.lt_of_not_le hacc) (Nat.pow_le_pow_right (by decide) h.bits)
  unfold Machine.translate hwWalk
  rw [h.root, hwalk, Option.map_some, Option.map_some]
  congr 1
  unfold MapCall.bytes leafAddress
  by_cases hhuge : (calls i).Huge
  · rw [if_pos hhuge, (MapCall.stores_huge hhuge).2.2, hugeEntry_eq _ hword]
    show (_ % 2 ^ 52 / 2 ^ 21 * 2 ^ 21 + _ % 2 ^ 21) / 2 ^ 21 = (calls i).phys / 2 ^ 21
    omega
  · rw [if_neg hhuge, (MapCall.stores_page hhuge).2.2, pageEntry_eq _ hword]
    show (_ % 2 ^ 52 / 2 ^ 12 * 2 ^ 12 + _ % 2 ^ 12) / 2 ^ 12 = (calls i).phys / 2 ^ 12
    omega

variable [DecidableEq ι]

/-- An undisturbed step of one core keeps every call standing, if the leaf of
    no call translates the page of another. -/
theorem MapInv.step (h : MapInv calls s) (hword : ∀ i, (calls i).phys < 2 ^ 64)
    (hdiff : ∀ i j, i ≠ j → ¬ (calls i).Replaces ((calls j).virt / 4096)) {i : ι}
    (hund : (s.pc i).Undisturbed s.m) (hlog : TablesGranted (s.step calls i).m) :
    MapInv calls (s.step calls i) := by
  have hkeeps := mapCallStep_keeps h.ok (h.accepted i) (hword i) (h.stands i) hund hlog
  unfold MapSys.step
  dsimp only
  generalize mapCallStep (calls i) s.m (s.pc i) = r at hkeeps ⊢
  have hregs := hkeeps.regs
  refine ⟨hkeeps.ok, ?_, ?_, ?_, ?_, ?_⟩
  · rw [hregs.cpuPhysBits]
    exact h.bits
  · rw [hregs.cr3, hregs.root]
    exact h.root
  · intro j
    rw [hregs.exceedsCpu]
    exact h.accepted j
  · intro j
    dsimp only
    by_cases hj : j = i
    · subst hj
      rw [Function.update_self]
      exact hkeeps.stands
    · rw [Function.update_of_ne hj]
      refine (h.stands j).kept (hkeeps.kept _ (hdiff i j (Ne.symm hj))) hregs.root ?_
      intro g hg
      exact hkeeps.spare g ((h.stands j).spare hg) (fun hi => h.apart i j (Ne.symm hj) g hi hg)
  · -- a page that is newly set aside was set aside by no other call
    have hnew : ∀ j, j ≠ i → ∀ g, r.2.aside = some g → (s.pc j).aside ≠ some g :=
      fun j _ g hi hj => hkeeps.fresh g hi ((h.stands j).spare hj)
    intro j k hjk g hg
    dsimp only at hg ⊢
    by_cases hj : j = i
    · subst hj
      rw [Function.update_self] at hg
      rw [Function.update_of_ne (Ne.symm hjk)]
      exact hnew k (Ne.symm hjk) g hg
    · rw [Function.update_of_ne hj] at hg
      by_cases hk : k = i
      · subst hk
        rw [Function.update_self]
        exact fun hi => hnew j hj g hi hg
      · rw [Function.update_of_ne hk]
        exact h.apart j k hjk g hg

/-- What is logged stays logged. -/
theorem mapCallStep_log_mono {c : MapCall} {m : Machine} {pc : MapPc} {x : Nat}
    (hx : x ∈ m.tableLog) : x ∈ (mapCallStep c m pc).1.tableLog := by
  cases pc with
  | start =>
      rw [mapCallStep_start]
      split
      · exact hx
      · exact hx
  | test i rest tbl =>
      rw [mapCallStep_test]
      split
      · exact hx
      · exact hx
  | alloc i rest tbl =>
      have hmono := allocPageTable_log_mono m hx
      rw [mapCallStep_alloc]
      generalize allocPageTable m = r at hmono ⊢
      exact hmono
  | follow i rest tbl =>
      rw [mapCallStep_follow]
      exact hx
  | link i rest tbl next phys =>
      rw [mapCallStep_link]
      exact hx
  | leaf tbl =>
      rw [mapCallStep_leaf]
      exact hx
  | done => exact hx

/-- Every undisturbed run. -/
theorem MapInv.run (h : MapInv calls s) (hword : ∀ i, (calls i).phys < 2 ^ 64)
    (hdiff : ∀ i j, i ≠ j → ¬ (calls i).Replaces ((calls j).virt / 4096)) {sched : List ι}
    (hund : Along (MapSys.step calls) (fun s i => (s.pc i).Undisturbed s.m) s sched)
    (hlog : TablesGranted (exec (MapSys.step calls) s sched).m) :
    MapInv calls (exec (MapSys.step calls) s sched) := by
  have hback : ∀ (s : MapSys ι) i, TablesGranted (s.step calls i).m → TablesGranted s.m :=
    fun s i hg => hg.of_mono (fun x hx => mapCallStep_log_mono hx)
  have hall := (along_of_final (P := fun s : MapSys ι => TablesGranted s.m) hback hlog).2
  exact invariant (I := MapInv calls) (fun s i hs hcond => hs.step hword hdiff hcond.1 hcond.2) h
    (hund.and hall)

/-- In every interleaving of accepted calls on different pages in which every
    table is granted, no link is stored over one stored since the entry was
    tested and no 2 MiB leaf is followed as a table, each call that has
    finished has its address translated to its physical page. -/
theorem concurrent_maps {m : Machine} (hok : TablesOk m) (hbits : m.cpuPhysBits ≤ 52)
    (hroot : m.cr3 / pageSize = m.root) (hword : ∀ i, (calls i).phys < 2 ^ 64)
    (hacc : ∀ i, exceedsCpu m (calls i).phys = false) (hcan : ∀ i, Canonical (calls i).virt)
    (hpages : ∀ i j, i ≠ j → (calls i).virt / pageSize ≠ (calls j).virt / pageSize)
    (hslots : ∀ i j, i ≠ j → (calls i).Huge →
      (calls i).virt / 0x200000 ≠ (calls j).virt / 0x200000) {sched : List ι}
    (hund : Along (MapSys.step calls) (fun s i => (s.pc i).Undisturbed s.m) (MapSys.begin ι m)
      sched)
    (hlog : TablesGranted (exec (MapSys.step calls) (MapSys.begin ι m) sched).m) {i : ι}
    (hdone : (exec (MapSys.step calls) (MapSys.begin ι m) sched).pc i = .done) :
    ((exec (MapSys.step calls) (MapSys.begin ι m) sched).m.translate (calls i).virt).map
        (fun t => t.1 / (calls i).bytes)
      = some ((calls i).phys / (calls i).bytes) := by
  have hdiff : ∀ i j, i ≠ j → ¬ (calls i).Replaces ((calls j).virt / 4096) := by
    intro i j hij hr
    have hmeets := (MapCall.replaces_iff (hcan j) (hcan i)).mp hr
    by_cases hhuge : (calls i).Huge
    · exact hslots i j hij hhuge ((MapCall.meets_huge hhuge).mp hmeets).symm
    · exact hpages i j hij ((MapCall.meets_page hhuge).mp hmeets).symm
  have hbegin : MapInv calls (MapSys.begin ι m) := MapInv.begin hok hbits hroot hacc
  exact (hbegin.run hword hdiff hund hlog).translated (hword i) hdone

end Interleaved

/-- The tables of `smallMachine`, in force. -/
def twoCores : Machine := { smallMachine with cr3 := 0x10000 }

/-- Two pages of one page table. -/
def twoCalls (i : Fin 2) : MapCall :=
  if i = 0 then ⟨0x8000000000, 0x200000, 3⟩ else ⟨0x8000001000, 0x201000, 3⟩

/-- One call begins when the other has linked its tables. -/
theorem concurrent_maps_two :
    let s := exec (MapSys.step twoCalls) (MapSys.begin (Fin 2) twoCores)
      (List.replicate 10 0 ++ [1, 1, 0] ++ List.replicate 6 1)
    s.pc 1 = .done ∧ (s.m.translate 0x8000001000).map (fun t => t.1 / 4096) = some 0x201 := by
  intro s
  have hdone : s.pc 1 = .done := by decide +kernel
  refine ⟨hdone, concurrent_maps (EmptyPml4.tablesOk ?_) (by decide)
    (by decide) (by decide) (by decide) ?_ (by decide) (by decide) ?_ ?_ hdone⟩
  · exact ⟨fun _ => rfl, by decide, by decide, by decide, fun _ hf => by cases hf⟩
  · intro i
    unfold Canonical twoCalls
    split
    · exact Or.inl (by decide)
    · exact Or.inl (by decide)
  · decide +kernel
  · decide +kernel

/-- Both cores find the first entry absent before either links a table there:
    the second link takes the tables of the first call out of the tree, and its
    address has no translation when both have finished. -/
theorem mapping_lost :
    let s := exec (MapSys.step twoCalls) (MapSys.begin (Fin 2) twoCores)
      ([0, 0, 1, 1] ++ List.replicate 9 0 ++ List.replicate 9 1)
    (∀ i, s.pc i = .done) ∧ TablesGranted s.m ∧ s.m.translate 0x8000000000 = none := by
  intro s
  have hdone : ∀ i, s.pc i = .done := by decide +kernel
  have hgranted : TablesGranted s.m := by decide +kernel
  have hlost : s.m.translate 0x8000000000 = none := by decide +kernel
  exact ⟨hdone, hgranted, hlost⟩

end Pfi
