import Pfi.ByteStore

/-! # The interrupt descriptor table

    `idt_exinit` obtains a table and a pointer to it, the statics of a core or
    two blocks of `avmf_alloc`, and returns where one is refused.  Then it fills
    `idt_ptr`, writes a gate for each of the 32 exceptions and for the two
    interrupts of the firmware, field by field, and loads the table.  The
    processor puts the offset of a gate together from three fields, and takes
    the other fields as they are.

    What is written as a gate is read as that gate (`readGate_setIdtEntry`), and
    no other gate is changed (`readGate_setIdtEntry_ne`).  So by induction on the
    entries the processor finds each handler at its vector, and at the other
    vectors what memory held before (`fillIdt_filled`): the table is never
    cleared.  A call that obtains no table writes no gate and loads nothing
    (`idt_dispatch`). -/

namespace ByteStore

section Fields

variable {m : Mem} {a b e : Addr} {n k v o o' : Nat}

theorem load_store_apart (hk : k ≤ 2 ^ 64) (h : Range.Apart ⟨a, n⟩ ⟨b, k⟩) :
    load (store m a n v) b k = load m b k :=
  load_eq_of_eqOn hk (fun p hp => store_apart (fun hc => h p hc hp))

/-- Two fields of a record that do not overlap. -/
theorem fields_apart (h : o + n ≤ o' ∨ o' + k ≤ o) (hn : o + n ≤ 2 ^ 63) (hk : o' + k ≤ 2 ^ 63) :
    Range.Apart ⟨e + BitVec.ofNat 64 o, n⟩ ⟨e + BitVec.ofNat 64 o', k⟩ := by
  intro p hp hp'
  unfold Range.Has at hp hp'
  dsimp only at hp hp'
  bv_omega

/-- A store to a field leaves the other fields. -/
theorem load_store_field (h : o + n ≤ o' ∨ o' + k ≤ o) (hn : o + n ≤ 2 ^ 63)
    (hk : o' + k ≤ 2 ^ 63) : load (store m (e + BitVec.ofNat 64 o) n v) (e + BitVec.ofNat 64 o') k
      = load m (e + BitVec.ofNat 64 o') k :=
  load_store_apart (by omega) (fields_apart h hn hk)

end Fields

end ByteStore

namespace Pfi

open ByteStore

/-! ## Gates -/

abbrev idtEntries : Nat := 256
abbrev sizeofIdtEntry : Nat := 16
abbrev sizeofIdtPtr : Nat := 10

/-- What the processor takes from a gate. -/
structure Gate where
  offset : Word
  selector : Nat
  ist : Nat
  typeAttr : Nat
deriving DecidableEq

/-- `&idt[num]`. -/
def gateAddr (idt : Addr) (num : Nat) : Addr := idt + BitVec.ofNat 64 (sizeofIdtEntry * num)

/-- A field of `idt_entry_t`. -/
def setField (m : Mem) (e : Addr) (o n v : Nat) : Mem := store m (e + BitVec.ofNat 64 o) n v

def getField (m : Mem) (e : Addr) (o n : Nat) : Nat := load m (e + BitVec.ofNat 64 o) n

/-- `set_idt_entry`: the fields in the order of its stores. -/
def setIdtEntry (m : Mem) (idt : Addr) (num : Nat) (offset : Word) (selector typeAttr : Nat) :
    Mem :=
  let e := gateAddr idt num
  let m := setField m e 0 2 (offset.toNat % 2 ^ 16)
  let m := setField m e 6 2 (offset.toNat / 2 ^ 16 % 2 ^ 16)
  let m := setField m e 8 4 (offset.toNat / 2 ^ 32 % 2 ^ 32)
  let m := setField m e 2 2 selector
  let m := setField m e 12 4 0
  let m := setField m e 5 1 typeAttr
  setField m e 4 1 0

/-- How the processor reads a gate. -/
def readGate (m : Mem) (idt : Addr) (num : Nat) : Gate :=
  let e := gateAddr idt num
  { offset := BitVec.ofNat 64 (getField m e 0 2 + 2 ^ 16 * getField m e 6 2
      + 2 ^ 32 * getField m e 8 4)
    selector := getField m e 2 2
    ist := getField m e 4 1 % 8
    typeAttr := getField m e 5 1 }

section Gates

variable {m : Mem} {idt : Addr} {num k : Nat} {offset : Word} {selector typeAttr : Nat}

theorem getField_setField {e : Addr} {o n v : Nat} (hn : n ≤ 2 ^ 64) :
    getField (setField m e o n v) e o n = v % 256 ^ n := load_store hn v

theorem getField_setField_ne {e : Addr} {o n o' n' v : Nat} (h : o + n ≤ o' ∨ o' + n' ≤ o)
    (hn : o + n ≤ 2 ^ 63) (hn' : o' + n' ≤ 2 ^ 63) :
    getField (setField m e o n v) e o' n' = getField m e o' n' := load_store_field h hn hn'

/-- A gate that is written is read. -/
theorem readGate_setIdtEntry (hsel : selector < 2 ^ 16) (htype : typeAttr < 2 ^ 8) :
    readGate (setIdtEntry m idt num offset selector typeAttr) idt num
      = ⟨offset, selector, 0, typeAttr⟩ := by
  have hword := offset.isLt
  unfold readGate setIdtEntry
  -- each field is read behind the stores to the others
  simp (disch := omega) only [getField_setField_ne, getField_setField]
  congr 1
  · refine BitVec.eq_of_toNat_eq ?_
    rw [BitVec.toNat_ofNat]
    omega
  · omega
  · omega

/-- Bytes outside of the gate stay. -/
theorem setIdtEntry_apart {p : Addr}
    (hp : ¬ Range.Has ⟨gateAddr idt num, sizeofIdtEntry⟩ p) :
    setIdtEntry m idt num offset selector typeAttr p = m p := by
  have hfield : ∀ (m : Mem) (o n v : Nat), o + n ≤ sizeofIdtEntry →
      setField m (gateAddr idt num) o n v p = m p := by
    intro m o n v hin
    refine store_apart (fun hc => hp ?_)
    unfold Range.Has at *
    dsimp only [sizeofIdtEntry] at *
    bv_omega
  unfold setIdtEntry
  rw [hfield _ 4 1 _ (by decide), hfield _ 5 1 _ (by decide), hfield _ 12 4 _ (by decide),
    hfield _ 2 2 _ (by decide), hfield _ 8 4 _ (by decide), hfield _ 6 2 _ (by decide),
    hfield _ 0 2 _ (by decide)]

/-- A gate depends on its bytes. -/
theorem readGate_congr {m' : Mem}
    (h : ∀ p, Range.Has ⟨gateAddr idt num, sizeofIdtEntry⟩ p → m' p = m p) :
    readGate m' idt num = readGate m idt num := by
  have hfield : ∀ o n, o + n ≤ sizeofIdtEntry →
      getField m' (gateAddr idt num) o n = getField m (gateAddr idt num) o n := by
    intro o n hin
    dsimp only [sizeofIdtEntry] at hin
    refine load_eq_of_eqOn (by omega) (fun p hp => h p ?_)
    unfold Range.Has at *
    dsimp only [sizeofIdtEntry] at *
    bv_omega
  unfold readGate
  dsimp only
  rw [hfield 0 2 (by decide), hfield 6 2 (by decide), hfield 8 4 (by decide),
    hfield 2 2 (by decide), hfield 4 1 (by decide), hfield 5 1 (by decide)]

/-- The other gates stay. -/
theorem readGate_setIdtEntry_ne (hne : k ≠ num) (hk : k < idtEntries) (hnum : num < idtEntries) :
    readGate (setIdtEntry m idt num offset selector typeAttr) idt k = readGate m idt k := by
  refine readGate_congr (fun p hp => setIdtEntry_apart (fun hc => ?_))
  refine @fields_apart idt sizeofIdtEntry sizeofIdtEntry (sizeofIdtEntry * k)
    (sizeofIdtEntry * num) ?_ ?_ ?_ p hp hc
  · dsimp only [sizeofIdtEntry]
    omega
  · dsimp only [sizeofIdtEntry, idtEntries] at *
    omega
  · dsimp only [sizeofIdtEntry, idtEntries] at *
    omega

end Gates

/-! ## The table -/

/-- Where the stubs are. -/
structure Stubs where
  exception : Nat → Word
  timer : Word
  ipi : Word

/-- The vectors of `idt_exinit` with their stubs, in order. -/
def Stubs.entries (h : Stubs) : List (Nat × Word) :=
  (List.range 32).map (fun i => (i, h.exception i)) ++ [(0x30, h.timer), (0x40, h.ipi)]

def setEntries (m : Mem) (idt : Addr) (entries : List (Nat × Word)) : Mem :=
  entries.foldl (fun m e => setIdtEntry m idt e.1 e.2 0x08 0x8E) m

/-- `idt_exinit` once it has the table and the pointer, up to `lidt`. -/
def fillIdt (m : Mem) (idt idtPtr : Addr) (h : Stubs) : Mem :=
  let m := setField m idtPtr 0 2 (sizeofIdtEntry * idtEntries - 1)
  let m := setField m idtPtr 2 8 idt.toNat
  setEntries m idt h.entries

/-- What `lidt` loads. -/
def loadIdtr (m : Mem) (idtPtr : Addr) : Nat × Addr :=
  (getField m idtPtr 0 2, BitVec.ofNat 64 (getField m idtPtr 2 8))

section Table

variable {m : Mem} {idt idtPtr : Addr} {entries : List (Nat × Word)} {h : Stubs}

/-- A vector without an entry keeps its gate. -/
theorem readGate_setEntries_ne {k : Nat} (hk : k < idtEntries)
    (hin : ∀ e ∈ entries, e.1 < idtEntries) (hne : ∀ e ∈ entries, e.1 ≠ k) :
    readGate (setEntries m idt entries) idt k = readGate m idt k := by
  induction entries generalizing m with
  | nil => rfl
  | cons e entries ih =>
      have hrest := @ih (setIdtEntry m idt e.1 e.2 0x08 0x8E)
        (fun x hx => hin x (List.mem_cons_of_mem e hx))
        (fun x hx => hne x (List.mem_cons_of_mem e hx))
      exact hrest.trans (readGate_setIdtEntry_ne (hne e List.mem_cons_self).symm hk
        (hin e List.mem_cons_self))

/-- Each entry is the gate of its vector, since no vector is set twice. -/
theorem readGate_setEntries (hin : ∀ e ∈ entries, e.1 < idtEntries)
    (hnodup : (entries.map Prod.fst).Nodup) {e : Nat × Word} (he : e ∈ entries) :
    readGate (setEntries m idt entries) idt e.1 = ⟨e.2, 0x08, 0, 0x8E⟩ := by
  induction entries generalizing m with
  | nil => exact absurd he List.not_mem_nil
  | cons x entries ih =>
      obtain ⟨hx, hnodup⟩ := List.nodup_cons.mp hnodup
      have hrestIn := fun y hy => hin y (List.mem_cons_of_mem x hy)
      show readGate (setEntries (setIdtEntry m idt x.1 x.2 0x08 0x8E) idt entries) idt e.1 = _
      rcases List.mem_cons.mp he with rfl | he
      · rw [readGate_setEntries_ne (hin e List.mem_cons_self) hrestIn
          (fun y hy heq => hx (List.mem_map.mpr ⟨y, hy, heq⟩))]
        exact readGate_setIdtEntry (by decide) (by decide)
      · exact ih hrestIn hnodup he

/-- Bytes outside of the table stay. -/
theorem setEntries_apart {p : Addr} (hin : ∀ e ∈ entries, e.1 < idtEntries)
    (hp : ¬ Range.Has ⟨idt, sizeofIdtEntry * idtEntries⟩ p) : setEntries m idt entries p = m p := by
  induction entries generalizing m with
  | nil => rfl
  | cons e entries ih =>
      have hrest := @ih (setIdtEntry m idt e.1 e.2 0x08 0x8E)
        (fun x hx => hin x (List.mem_cons_of_mem e hx))
      refine hrest.trans (setIdtEntry_apart (fun hc => hp ?_))
      have he := hin e List.mem_cons_self
      unfold gateAddr Range.Has at *
      dsimp only [sizeofIdtEntry, idtEntries] at *
      bv_omega

theorem Stubs.entries_lt : ∀ e ∈ h.entries, e.1 < idtEntries := by
  intro e he
  rcases List.mem_append.mp he with he | he
  · obtain ⟨i, hi, rfl⟩ := List.mem_map.mp he
    have hi := List.mem_range.mp hi
    exact Nat.lt_of_lt_of_le hi (by decide)
  · rcases List.mem_cons.mp he with rfl | he
    · show 0x30 < idtEntries
      decide
    · rw [List.mem_singleton.mp he]
      show 0x40 < idtEntries
      decide

theorem Stubs.entries_vectors : h.entries.map Prod.fst = List.range 32 ++ [0x30, 0x40] := by
  unfold entries
  rw [List.map_append, List.map_map]
  exact congrArg (· ++ [0x30, 0x40]) (List.map_id _)

theorem Stubs.mem_entries {v : Nat} {w : Word} :
    (v, w) ∈ h.entries ↔ v < 32 ∧ w = h.exception v ∨ v = 0x30 ∧ w = h.timer ∨
      v = 0x40 ∧ w = h.ipi := by
  unfold entries
  simp only [List.mem_append, List.mem_map, List.mem_range, List.mem_cons, List.not_mem_nil,
    or_false, Prod.mk.injEq]
  refine or_congr_left ⟨?_, ?_⟩
  · rintro ⟨i, hi, rfl, rfl⟩
    exact ⟨hi, rfl⟩
  · rintro ⟨hv, rfl⟩
    exact ⟨v, hv, rfl, rfl⟩

/-- The stub of a vector, if `idt_exinit` sets one. -/
def Stubs.stubOf (h : Stubs) (v : Nat) : Option Word :=
  if v < 32 then some (h.exception v)
  else if v = 0x30 then some h.timer
  else if v = 0x40 then some h.ipi
  else none

theorem Stubs.stubOf_eq_some {v : Nat} {w : Word} : h.stubOf v = some w ↔ (v, w) ∈ h.entries := by
  rw [mem_entries]
  unfold Stubs.stubOf
  split_ifs with h1 h2 h3
  · rw [Option.some.injEq]
    constructor
    · intro hw
      exact Or.inl ⟨h1, hw.symm⟩
    · rintro (⟨-, hw⟩ | ⟨hv, -⟩ | ⟨hv, -⟩)
      · exact hw.symm
      · omega
      · omega
  · rw [Option.some.injEq]
    constructor
    · intro hw
      exact Or.inr (Or.inl ⟨h2, hw.symm⟩)
    · rintro (⟨hv, -⟩ | ⟨-, hw⟩ | ⟨hv, -⟩)
      · omega
      · exact hw.symm
      · omega
  · rw [Option.some.injEq]
    constructor
    · intro hw
      exact Or.inr (Or.inr ⟨h3, hw.symm⟩)
    · rintro (⟨hv, -⟩ | ⟨hv, -⟩ | ⟨-, hw⟩)
      · omega
      · omega
      · exact hw.symm
  · refine iff_of_false (fun hc => nomatch hc) ?_
    rintro (⟨hv, -⟩ | ⟨hv, -⟩ | ⟨hv, -⟩)
    · exact h1 hv
    · exact h2 hv
    · exact h3 hv

/-- The gate of each vector that `idt_exinit` sets. -/
theorem readGate_fillIdt {v : Nat} {w : Word} (hv : h.stubOf v = some w) :
    readGate (fillIdt m idt idtPtr h) idt v = ⟨w, 0x08, 0, 0x8E⟩ := by
  refine readGate_setEntries (e := (v, w)) Stubs.entries_lt ?_ (Stubs.stubOf_eq_some.mp hv)
  rw [Stubs.entries_vectors]
  decide

theorem setField_apart {o n v : Nat} {p : Addr} (hin : o + n ≤ sizeofIdtPtr)
    (hp : ¬ Range.Has ⟨idtPtr, sizeofIdtPtr⟩ p) : setField m idtPtr o n v p = m p := by
  refine store_apart (fun hc => hp ?_)
  unfold Range.Has at *
  dsimp only [sizeofIdtPtr] at *
  bv_omega

/-- Bytes outside of the table and of the pointer stay. -/
theorem fillIdt_apart {p : Addr} (hp : ¬ Range.Has ⟨idt, sizeofIdtEntry * idtEntries⟩ p)
    (hp' : ¬ Range.Has ⟨idtPtr, sizeofIdtPtr⟩ p) : fillIdt m idt idtPtr h p = m p := by
  unfold fillIdt
  rw [setEntries_apart Stubs.entries_lt hp, setField_apart (by decide) hp',
    setField_apart (by decide) hp']

/-- A vector without a stub keeps its gate. -/
theorem readGate_fillIdt_ne {v : Nat}
    (hapart : Range.Apart ⟨idt, sizeofIdtEntry * idtEntries⟩ ⟨idtPtr, sizeofIdtPtr⟩)
    (hv : v < idtEntries) (hnone : h.stubOf v = none) :
    readGate (fillIdt m idt idtPtr h) idt v = readGate m idt v := by
  have hkeep := @readGate_setEntries_ne (setField (setField m idtPtr 0 2
    (sizeofIdtEntry * idtEntries - 1)) idtPtr 2 8 idt.toNat) idt h.entries v hv Stubs.entries_lt
    (fun e he heq => by
      have hsome := Stubs.stubOf_eq_some.mpr (show (v, e.2) ∈ h.entries by rw [← heq]; exact he)
      rw [hnone] at hsome
      cases hsome)
  refine hkeep.trans (readGate_congr (fun p hp => ?_))
  have hout : ¬ Range.Has ⟨idtPtr, sizeofIdtPtr⟩ p := by
    refine hapart p ?_
    unfold gateAddr Range.Has at *
    dsimp only [sizeofIdtEntry, idtEntries] at *
    bv_omega
  rw [setField_apart (by decide) hout, setField_apart (by decide) hout]

/-- The gates leave `idt_ptr`, so `lidt` loads the table with 256 gates. -/
theorem loadIdtr_fillIdt
    (hapart : Range.Apart ⟨idt, sizeofIdtEntry * idtEntries⟩ ⟨idtPtr, sizeofIdtPtr⟩) :
    loadIdtr (fillIdt m idt idtPtr h) idtPtr = (sizeofIdtEntry * idtEntries - 1, idt) := by
  have hkeep : ∀ o n, o + n ≤ sizeofIdtPtr → getField (fillIdt m idt idtPtr h) idtPtr o n
      = getField (setField (setField m idtPtr 0 2 (sizeofIdtEntry * idtEntries - 1)) idtPtr 2 8
          idt.toNat) idtPtr o n := by
    intro o n hin
    dsimp only [sizeofIdtPtr] at hin
    refine load_eq_of_eqOn (by omega)
      (fun p hp => setEntries_apart Stubs.entries_lt (fun hc => ?_))
    refine hapart p hc ?_
    unfold Range.Has at *
    dsimp only [sizeofIdtPtr] at *
    bv_omega
  unfold loadIdtr
  rw [hkeep 0 2 (by decide), hkeep 2 8 (by decide),
    getField_setField_ne (by decide) (by decide) (by decide), getField_setField (by decide),
    getField_setField (by decide)]
  refine Prod.ext (show (sizeofIdtEntry * idtEntries - 1) % 256 ^ 2
    = sizeofIdtEntry * idtEntries - 1 by decide) ?_
  have hword := idt.isLt
  refine BitVec.eq_of_toNat_eq ?_
  show (BitVec.ofNat 64 (idt.toNat % 256 ^ 8)).toNat = idt.toNat
  rw [BitVec.toNat_ofNat]
  omega

end Table

/-! ## The calls -/

/-- Memory with the statics `idt` and `idt_ptr`, and what a core has loaded. -/
structure IdtState where
  mem : Mem
  idt : Addr
  idtPtr : Addr
  idtr : Nat × Addr
  interrupts : Bool

/-- What the calls rely on: `avmf_alloc` of sensitive memory, which may do
    anything to memory and refuse with null, the statics `idt_local` and
    `idt_ptr_local`, and the stubs. -/
structure IdtEnv where
  alloc : Nat → Mem → Addr × Mem
  idtLocal : Addr
  idtPtrLocal : Addr
  stubs : Stubs
  idtLocal_ne : idtLocal ≠ 0
  idtPtrLocal_ne : idtPtrLocal ≠ 0
  localApart :
    Range.Apart ⟨idtLocal, sizeofIdtEntry * idtEntries⟩ ⟨idtPtrLocal, sizeofIdtPtr⟩

/-- The first half of `idt_exinit`: the state with a table and a pointer, or as
    an error the state in which the call returns without them. -/
def obtainIdt (E : IdtEnv) (s : IdtState) (isLocal : Bool) : Except IdtState IdtState :=
  if !isLocal then
    let a := E.alloc (sizeofIdtEntry * idtEntries) s.mem
    let s := { s with mem := a.2, idt := a.1 }
    if s.idt = 0 then .error s
    else
      let a := E.alloc sizeofIdtPtr s.mem
      let s := { s with mem := a.2, idtPtr := a.1 }
      if s.idtPtr = 0 then .error s else .ok s
  else .ok { s with idt := E.idtLocal, idtPtr := E.idtPtrLocal }

/-- `idt_exinit`, without the messages of its failures. -/
def idtExinit (E : IdtEnv) (s : IdtState) (isLocal : Bool) : IdtState :=
  match obtainIdt E s isLocal with
  | .error s => s
  | .ok s =>
      let m := fillIdt s.mem s.idt s.idtPtr E.stubs
      { s with mem := m, idtr := loadIdtr m s.idtPtr, interrupts := true }

/-- `idt_load_local`. -/
def idtLoadLocal (s : IdtState) : IdtState :=
  if s.idt = 0 ∨ s.idtPtr = 0 then s else { s with idtr := loadIdtr s.mem s.idtPtr }

/-- Where `r` has the table of `o` filled and loaded: the processor finds the
    stub of each exception and interrupt with the code selector, as a present
    interrupt gate on the stack in use, and at each other vector the gate that
    was there, and nothing else is written. -/
structure Filled (h : Stubs) (o r : IdtState) : Prop where
  table : r.idt = o.idt ∧ r.idtPtr = o.idtPtr
  idtr : r.idtr = (sizeofIdtEntry * idtEntries - 1, o.idt)
  interrupts : r.interrupts = true
  gates : ∀ v w, h.stubOf v = some w → readGate r.mem o.idt v = ⟨w, 0x08, 0, 0x8E⟩
  others : ∀ v, v < idtEntries → h.stubOf v = none →
    readGate r.mem o.idt v = readGate o.mem o.idt v
  outside : ∀ p, ¬ Range.Has ⟨o.idt, sizeofIdtEntry * idtEntries⟩ p →
    ¬ Range.Has ⟨o.idtPtr, sizeofIdtPtr⟩ p → r.mem p = o.mem p

section Calls

variable {E : IdtEnv} {s o : IdtState} {isLocal : Bool}

theorem fillIdt_filled {h : Stubs}
    (hapart : Range.Apart ⟨o.idt, sizeofIdtEntry * idtEntries⟩ ⟨o.idtPtr, sizeofIdtPtr⟩) :
    Filled h o { o with
      mem := fillIdt o.mem o.idt o.idtPtr h
      idtr := loadIdtr (fillIdt o.mem o.idt o.idtPtr h) o.idtPtr
      interrupts := true } where
  table := ⟨rfl, rfl⟩
  idtr := loadIdtr_fillIdt hapart
  interrupts := rfl
  gates _ _ := readGate_fillIdt
  others _ := readGate_fillIdt_ne hapart
  outside _ := fillIdt_apart

/-- A table and a pointer that are obtained are there. -/
theorem obtainIdt_ok (h : obtainIdt E s isLocal = .ok o) : o.idt ≠ 0 ∧ o.idtPtr ≠ 0 := by
  cases isLocal with
  | true =>
      cases h
      exact ⟨E.idtLocal_ne, E.idtPtrLocal_ne⟩
  | false =>
      unfold obtainIdt at h
      rw [if_pos Bool.not_false] at h
      dsimp only at h
      split_ifs at h with hidt hptr
      cases h
      exact ⟨hidt, hptr⟩

/-- One that is refused is null, and only the allocations touch memory. -/
theorem obtainIdt_error (h : obtainIdt E s isLocal = .error o) :
    isLocal = false ∧ (o.idt = 0 ∨ o.idtPtr = 0) ∧ o.idtr = s.idtr ∧
      o.interrupts = s.interrupts ∧
      (o.mem = (E.alloc (sizeofIdtEntry * idtEntries) s.mem).2 ∨
        o.mem = (E.alloc sizeofIdtPtr (E.alloc (sizeofIdtEntry * idtEntries) s.mem).2).2) := by
  cases isLocal with
  | true => cases h
  | false =>
      unfold obtainIdt at h
      rw [if_pos Bool.not_false] at h
      dsimp only at h
      split_ifs at h with hidt hptr
      · cases h
        exact ⟨rfl, Or.inl hidt, rfl, rfl, Or.inl rfl⟩
      · cases h
        exact ⟨rfl, Or.inr hptr, rfl, rfl, Or.inr rfl⟩

end Calls

/-- Whatever memory held and whatever the allocator does: a call that obtains a
    table and a pointer fills, loads and uses the table, and any core that calls
    `idt_load_local` then has it too.  A call that is refused one has written
    no gate and loaded nothing, and `idt_load_local` then does nothing. -/
theorem idt_dispatch (E : IdtEnv) (s : IdtState) (isLocal : Bool)
    (hapart : ∀ o, obtainIdt E s false = .ok o →
      Range.Apart ⟨o.idt, sizeofIdtEntry * idtEntries⟩ ⟨o.idtPtr, sizeofIdtPtr⟩) :
    (∀ o, obtainIdt E s isLocal = .ok o →
      Filled E.stubs o (idtExinit E s isLocal) ∧
        ∀ x, (idtLoadLocal { idtExinit E s isLocal with idtr := x }).idtr
          = (sizeofIdtEntry * idtEntries - 1, o.idt)) ∧
      ∀ o, obtainIdt E s isLocal = .error o →
        idtExinit E s isLocal = o ∧ isLocal = false ∧ o.idtr = s.idtr ∧
          o.interrupts = s.interrupts ∧
          (o.mem = (E.alloc (sizeofIdtEntry * idtEntries) s.mem).2 ∨
            o.mem = (E.alloc sizeofIdtPtr (E.alloc (sizeofIdtEntry * idtEntries) s.mem).2).2) ∧
          ∀ x, idtLoadLocal { o with idtr := x } = { o with idtr := x } := by
  refine ⟨fun o ho => ?_, fun o ho => ?_⟩
  · have hapart' : Range.Apart ⟨o.idt, sizeofIdtEntry * idtEntries⟩ ⟨o.idtPtr, sizeofIdtPtr⟩ := by
      cases isLocal with
      | true =>
          cases ho
          exact E.localApart
      | false => exact hapart o ho
    obtain ⟨hidt, hptr⟩ := obtainIdt_ok ho
    unfold idtExinit
    rw [ho]
    refine ⟨fillIdt_filled hapart', fun x => ?_⟩
    unfold idtLoadLocal
    rw [if_neg (not_or.mpr ⟨hidt, hptr⟩)]
    exact loadIdtr_fillIdt hapart'
  · obtain ⟨hlocal, hnull, hidtr, hinterrupts, hmem⟩ := obtainIdt_error ho
    refine ⟨?_, hlocal, hidtr, hinterrupts, hmem, fun x => if_pos hnull⟩
    unfold idtExinit
    rw [ho]

/-- The table at 0x10000 and the pointer behind it, over cleared memory. -/
def lowStubs : Stubs where
  exception n := 0x4000 + BitVec.ofNat 64 (64 * n)
  timer := 0x5000
  ipi := 0x5040

/-- An allocator that has one page left. -/
def onePageEnv : IdtEnv where
  alloc size m := if size = 4096 then (0x10000, m) else (0, m)
  idtLocal := 0x20000
  idtPtrLocal := 0x21000
  stubs := lowStubs
  idtLocal_ne := by decide
  idtPtrLocal_ne := by decide
  localApart := apart_of_le (by decide) (by decide)

def clearedIdt : IdtState := ⟨fun _ => 0, 0, 0, (0, 0), false⟩

/-- The page fault of a core that uses the statics, and a call that is refused
    the pointer. -/
theorem idt_dispatch_low :
    (idtExinit onePageEnv clearedIdt true).idtr = (4095, 0x20000) ∧
      readGate (idtExinit onePageEnv clearedIdt true).mem 0x20000 14
        = ⟨0x4380, 0x08, 0, 0x8E⟩ ∧
      (idtExinit onePageEnv clearedIdt false).idtr = (0, 0) := by
  have hapart : ∀ o, obtainIdt onePageEnv clearedIdt false = .ok o →
      Range.Apart ⟨o.idt, sizeofIdtEntry * idtEntries⟩ ⟨o.idtPtr, sizeofIdtPtr⟩ := by
    intro o ho
    cases ho
  obtain ⟨hfilled, -⟩ := (idt_dispatch onePageEnv clearedIdt true hapart).1 _ rfl
  have hrefused := (idt_dispatch onePageEnv clearedIdt false hapart).2 _ rfl
  refine ⟨hfilled.idtr, hfilled.gates 14 0x4380 (by decide), ?_⟩
  rw [hrefused.1]
  exact hrefused.2.2.1

end Pfi
