import Pfi.Avmf

/-! # The ACPI tables

    `acpi_init` takes `acpi_lock` with interrupts off, looks for the root
    pointer in the EBDA and in the BIOS area, and parses the tables that the
    RSDT or the XSDT lists.  When there is no root pointer it returns at once,
    without `spin_unlock_irqrestore`: the lock stays held, interrupts stay
    off, and the next accessor spins for ever.

    Every other return restores both, whatever the tables hold, and so does
    every accessor that finds the lock free (`acpi_balanced_iff`).

    The tables are read through the direct map.  A parse that does not end,
    or that stores past `apic_ids`, has no outcome here (`none`). -/

namespace Pfi

open Words

/-! ## Memory -/

/-- Physical memory, byte by byte. -/
abbrev PhysMem := Nat → UInt8

/-- The byte at a virtual address of the direct map. -/
def PhysMem.byte (m : PhysMem) (virt : Nat) : Nat :=
  (m (add64 virt (2 ^ 64 - aosDirectMapBase))).toNat

/-- `n` bytes as they lie in memory. -/
def PhysMem.bytes (m : PhysMem) (virt n : Nat) : List Nat :=
  (List.range n).map (fun i => m.byte (add64 virt i))

/-- A little-endian field. -/
def PhysMem.load (m : PhysMem) (virt n : Nat) : Nat :=
  (m.bytes virt n).foldr (fun b v => b + 256 * v) 0

/-! ### Bytes in a row -/

section Bytes

variable {m : PhysMem} {virt n : Nat}

/-- A byte is below 256. -/
theorem PhysMem.byte_lt (m : PhysMem) (virt : Nat) : m.byte virt < 256 := by
  unfold PhysMem.byte
  exact UInt8.toNat_lt _

/-- As many bytes as were asked for. -/
theorem PhysMem.length_bytes (m : PhysMem) (virt n : Nat) : (m.bytes virt n).length = n := by
  unfold PhysMem.bytes
  rw [List.length_map, List.length_range]

/-- Bytes that follow other bytes. -/
theorem PhysMem.bytes_add (m : PhysMem) (virt a b : Nat) :
    m.bytes virt (a + b) = m.bytes virt a ++ m.bytes (add64 virt a) b := by
  unfold PhysMem.bytes
  rw [List.range_add, List.map_append, List.map_map]
  refine congrArg _ (List.map_congr_left ?_)
  intro i _
  dsimp only [Function.comp_apply]
  rw [add64_add64]

/-- A byte of a row that is known. -/
theorem PhysMem.byte_of_bytes {bs : List Nat} (h : m.bytes virt n = bs) {i : Nat} (hi : i < n) :
    m.byte (add64 virt i) = bs.getD i 0 := by
  rw [← h, List.getD_eq_getElem _ _ (by rw [PhysMem.length_bytes]; exact hi)]
  unfold PhysMem.bytes
  rw [List.getElem_map, List.getElem_range]

/-- A field at the end of a row that is known. -/
theorem PhysMem.load_of_bytes {bs : List Nat} {o : Nat} (h : m.bytes virt (o + n) = bs) :
    m.load (add64 virt o) n = (bs.drop o).foldr (fun b v => b + 256 * v) 0 := by
  unfold PhysMem.load
  rw [← h, PhysMem.bytes_add, List.drop_left' (PhysMem.length_bytes m virt o)]

/-- A row of two known parts. -/
theorem PhysMem.bytes_append {xs ys : List Nat}
    (h : m.bytes virt (xs ++ ys).length = xs ++ ys) :
    m.bytes virt xs.length = xs ∧ m.bytes (add64 virt xs.length) ys.length = ys := by
  rw [List.length_append, PhysMem.bytes_add] at h
  exact List.append_inj h (PhysMem.length_bytes m virt xs.length)

/-- A number of `n` bytes. -/
theorem PhysMem.load_lt (m : PhysMem) (virt n : Nat) : m.load virt n < 256 ^ n := by
  have hbytes : ∀ bs : List Nat, (∀ b ∈ bs, b < 256) →
      bs.foldr (fun b v => b + 256 * v) 0 < 256 ^ bs.length := by
    intro bs
    induction bs with
    | nil => intro _; exact Nat.one_pos
    | cons b bs ih =>
        intro hall
        have hb := hall b List.mem_cons_self
        have hrest := ih (fun c hc => hall c (List.mem_cons_of_mem _ hc))
        rw [List.foldr_cons, List.length_cons, Nat.pow_succ]
        omega
  have h := hbytes (m.bytes virt n) (by
    intro b hb
    unfold PhysMem.bytes at hb
    obtain ⟨i, -, rfl⟩ := List.mem_map.mp hb
    exact m.byte_lt _)
  rw [PhysMem.length_bytes] at h
  exact h

end Bytes

/-! ## State -/

/-- The static variables of `acpi.c`, `0` for a null pointer, and the
    interrupt flag.  `apicIds` is the used part of `apic_ids`, so
    `apic_id_count` is its length. -/
structure Acpi where
  mcfgTable : Nat := 0
  madtTable : Nat := 0
  fadtTable : Nat := 0
  apicIds : List Nat := []
  pmTimerPort : Nat := 0
  pmTimer24bit : Bool := true
  acpiLock : Bool := false
  iflag : Bool
deriving Repr, DecidableEq

/-- `spin_lock_irqsave(&acpi_lock)`: the flags, or no return when the lock is
    held. -/
def Acpi.spinLockIrqsave (s : Acpi) : Option (Bool × Acpi) :=
  if s.acpiLock then none else some (s.iflag, { s with acpiLock := true, iflag := false })

/-- `spin_unlock_irqrestore(&acpi_lock, flags)`. -/
def Acpi.spinUnlockIrqrestore (s : Acpi) (flags : Bool) : Acpi :=
  { s with acpiLock := false, iflag := flags }

/-! ## The root pointer -/

def acpiChecksum (m : PhysMem) (table len : Nat) : Nat :=
  (m.bytes table len).sum % 256

/-- `"RSD PTR "`. -/
def rsdpSignature : List Nat := [0x52, 0x53, 0x44, 0x20, 0x50, 0x54, 0x52, 0x20]

abbrev rsdpV1Size : Nat := 20
abbrev rsdpV2Size : Nat := 36

/-- The scan of one area in steps of 16 bytes: `some none` when the function
    returns `NULL` from within the loop. -/
def scanRsdp (m : PhysMem) : Nat → Nat → Option (Option Nat)
  | 0, _ => none
  | n + 1, addr =>
      if m.bytes addr 8 = rsdpSignature ∧ acpiChecksum m addr rsdpV1Size = 0 then
        if 2 ≤ m.byte (add64 addr 15) ∧ acpiChecksum m addr rsdpV2Size ≠ 0 then some none
        else some (some addr)
      else scanRsdp m n (add64 addr 16)

/-- `acpi_find_rsdp`: the EBDA first, then the BIOS area. -/
def acpiFindRsdp (m : PhysMem) : Option Nat :=
  let ebda := m.load (add64 0x40E aosDirectMapBase) 2 * 16
  match scanRsdp m (1024 / 16) (add64 ebda aosDirectMapBase) with
  | some found => found
  | none => (scanRsdp m (0x20000 / 16) (add64 0xE0000 aosDirectMapBase)).getD none

/-! ## The tables -/

abbrev sdtHeaderSize : Nat := 36
abbrev madtSize : Nat := 44
abbrev apicIdsSize : Nat := 256

/-- An entry of the MADT: the id of an enabled local APIC is kept, if there is
    room. -/
def acpiMadtEntry (m : PhysMem) (ptr : Nat) (s : Acpi) : Option Acpi :=
  if m.byte ptr = 0 ∧ m.load (add64 ptr 4) 4 % 2 = 1 then
    if s.apicIds.length < apicIdsSize then
      some { s with apicIds := s.apicIds ++ [m.byte (add64 ptr 3)] }
    else none
  else some s

/-- The loop of `acpi_parse_madt`; an entry of length `0` is read again and
    again. -/
def acpiMadtLoop (m : PhysMem) (stop : Nat) : Nat → Nat → Acpi → Option Acpi
  | 0, ptr, s => if ptr < stop then none else some s
  | fuel + 1, ptr, s =>
      if ptr < stop then do
        let s ← acpiMadtEntry m ptr s
        acpiMadtLoop m stop fuel (add64 ptr (m.byte (add64 ptr 1))) s
      else some s

/-- The entries behind the header of the MADT, up to its length. -/
def acpiParseMadt (m : PhysMem) (fuel madt : Nat) (s : Acpi) : Option Acpi :=
  acpiMadtLoop m (add64 madt (m.load (add64 madt 4) 4)) fuel (add64 madt madtSize) s

/-- `acpi_parse_fadt`, which is `acpi_timer_init`. -/
def acpiParseFadt (m : PhysMem) (fadt : Nat) (s : Acpi) : Acpi :=
  { s with
    pmTimerPort := m.load (add64 fadt 76) 4
    pmTimer24bit := if m.load (add64 fadt 112) 4 / 2 ^ 8 % 2 = 1 then false else s.pmTimer24bit }

/-- A table of the list, by its signature. -/
def acpiParseTable (m : PhysMem) (fuel hdr : Nat) (s : Acpi) : Option Acpi :=
  let signature := m.bytes hdr 4
  if signature = [0x4D, 0x43, 0x46, 0x47] then some { s with mcfgTable := hdr }
  else if signature = [0x41, 0x50, 0x49, 0x43] then
    acpiParseMadt m fuel hdr { s with madtTable := hdr }
  else if signature = [0x46, 0x41, 0x43, 0x50] then
    some (acpiParseFadt m hdr { s with fadtTable := hdr })
  else some s

/-- The tables from index `i` on, whose addresses are `width` bytes long. -/
def acpiParseTables (m : PhysMem) (fuel root width : Nat) : Nat → Nat → Acpi → Option Acpi
  | 0, _, s => some s
  | n + 1, i, s => do
      let hdr := m.load (add64 root (sdtHeaderSize + i * width)) width
      let s ← acpiParseTable m fuel (add64 hdr aosDirectMapBase) s
      acpiParseTables m fuel root width n (i + 1) s

/-- `(length - sizeof(struct acpi_sdt_header)) / width` as an `int`: the
    difference is taken on 64 bits, and a negative count runs no loop. -/
def acpiEntryCount (length width : Nat) : Nat :=
  let count := add64 length (2 ^ 64 - sdtHeaderSize) / width % 2 ^ 32
  if count < 2 ^ 31 then count else 0

/-- A root table that passes its checksum. -/
def acpiParseRoot (m : PhysMem) (fuel root width : Nat) (s : Acpi) : Option Acpi :=
  let length := m.load (add64 root 4) 4
  if acpiChecksum m root length ≠ 0 then some s
  else acpiParseTables m fuel root width (acpiEntryCount length width) 0 s

/-- `acpi_parse_rsdt`: the XSDT from revision 2 on, the RSDT before. -/
def acpiParseRsdt (m : PhysMem) (fuel rsdp : Nat) (s : Acpi) : Option Acpi :=
  if 2 ≤ m.byte (add64 rsdp 15) then
    acpiParseRoot m fuel (add64 (m.load (add64 rsdp 24) 8) aosDirectMapBase) 8 s
  else acpiParseRoot m fuel (add64 (m.load (add64 rsdp 16) 4) aosDirectMapBase) 4 s

/-- The tables are parsed with the lock held; without an RSDP it is not
    released. -/
def acpiInit (m : PhysMem) (fuel : Nat) (s : Acpi) : Option Acpi := do
  let (rflags, s) ← s.spinLockIrqsave
  match acpiFindRsdp m with
  | none => some s
  | some rsdp => do
      let s ← acpiParseRsdt m fuel rsdp s
      some (s.spinUnlockIrqrestore rflags)

/-! ## The accessors -/

section Accessors

variable (m : PhysMem) (inl : Nat → Nat)

/-- A value that is read with the lock held. -/
def Acpi.locked {α : Type} (s : Acpi) (read : Acpi → α) : Option (α × Acpi) := do
  let (rflags, s) ← s.spinLockIrqsave
  some (read s, s.spinUnlockIrqrestore rflags)

/-- The MCFG's address. -/
def acpiGetMcfg (s : Acpi) : Option (Nat × Acpi) := s.locked Acpi.mcfgTable

/-- The MADT's address. -/
def acpiGetMadt (s : Acpi) : Option (Nat × Acpi) := s.locked Acpi.madtTable

/-- The address of the local APIC. -/
def acpiGetLapicBase (s : Acpi) : Option (Nat × Acpi) :=
  s.locked (fun s => m.load (add64 s.madtTable 36) 4)

/-- The ids and `apic_id_count`. -/
def acpiGetApicInfo (s : Acpi) : Option ((List Nat × Nat) × Acpi) :=
  s.locked (fun s => (s.apicIds, s.apicIds.length))

/-- `inl` is what the port holds. -/
def acpiReadTimer (s : Acpi) : Option (Nat × Acpi) :=
  s.locked (fun s => if s.pmTimerPort = 0 then 0 else inl s.pmTimerPort)

/-- The calls that take `acpi_lock`. -/
inductive AcpiCall where
  | getMcfg
  | getMadt
  | getLapicBase
  | getApicInfo
  | readTimer
deriving Repr, DecidableEq

/-- The state after an accessor has returned. -/
def AcpiCall.run (s : Acpi) : AcpiCall → Option Acpi
  | .getMcfg => (acpiGetMcfg s).map Prod.snd
  | .getMadt => (acpiGetMadt s).map Prod.snd
  | .getLapicBase => (acpiGetLapicBase m s).map Prod.snd
  | .getApicInfo => (acpiGetApicInfo s).map Prod.snd
  | .readTimer => (acpiReadTimer inl s).map Prod.snd

/-- The state after a list of accessors, if all return. -/
def acpiCalls (s : Acpi) (calls : List AcpiCall) : Option Acpi :=
  calls.foldlM (AcpiCall.run m inl) s

/-- The lock is free and the interrupt flag is `b`, now and after any
    accessors, all of which return. -/
def Acpi.Balanced (b : Bool) (s : Acpi) : Prop :=
  s.acpiLock = false ∧ s.iflag = b ∧
    ∀ calls, ∃ t, acpiCalls m inl s calls = some t ∧ t.acpiLock = false ∧ t.iflag = b

end Accessors

/-! ## Who gives the lock back -/

section Balance

variable {m : PhysMem} {inl : Nat → Nat} {s : Acpi}

/-- A reader that gets the lock gives it back. -/
theorem Acpi.locked_free {α : Type} (read : Acpi → α) (h : s.acpiLock = false) :
    ∃ v t, s.locked read = some (v, t) ∧ t.acpiLock = false ∧ t.iflag = s.iflag := by
  unfold Acpi.locked Acpi.spinLockIrqsave
  rw [h]
  exact ⟨_, _, rfl, rfl, rfl⟩

/-- An accessor that finds the lock free gives it back. -/
theorem AcpiCall.run_free (c : AcpiCall) (h : s.acpiLock = false) :
    ∃ t, AcpiCall.run m inl s c = some t ∧ t.acpiLock = false ∧ t.iflag = s.iflag := by
  have hlocked : ∀ {α : Type} (read : Acpi → α),
      ∃ t, (s.locked read).map Prod.snd = some t ∧ t.acpiLock = false ∧ t.iflag = s.iflag := by
    intro α read
    obtain ⟨v, t, hrun, hlock, hflag⟩ := Acpi.locked_free read h
    exact ⟨t, by rw [hrun]; rfl, hlock, hflag⟩
  cases c with
  | getMcfg => exact hlocked _
  | getMadt => exact hlocked _
  | getLapicBase => exact hlocked _
  | getApicInfo => exact hlocked _
  | readTimer => exact hlocked _

/-- So do the calls of a run, whichever they are. -/
theorem acpiCalls_free (calls : List AcpiCall) : ∀ {s : Acpi}, s.acpiLock = false →
    ∃ t, acpiCalls m inl s calls = some t ∧ t.acpiLock = false ∧ t.iflag = s.iflag := by
  induction calls with
  | nil =>
      intro s h
      exact ⟨s, rfl, h, rfl⟩
  | cons c calls ih =>
      intro s h
      have hc : ∃ t, AcpiCall.run m inl s c = some t ∧ t.acpiLock = false ∧ t.iflag = s.iflag :=
        c.run_free h
      obtain ⟨t, hrun, hlock, hflag⟩ := hc
      obtain ⟨u, hcalls, hfree, hsame⟩ := ih hlock
      refine ⟨u, ?_, hfree, hsame.trans hflag⟩
      unfold acpiCalls at hcalls ⊢
      rw [List.foldlM_cons, hrun]
      exact hcalls

/-- `acpi_init` and the accessors after it leave the lock free and the
    interrupt flag as it was exactly when there is a root pointer. -/
theorem acpi_balanced_iff {b : Bool} {fuel : Nat} (h : acpiInit m fuel { iflag := b } = some s) :
    s.Balanced m inl b ↔ acpiFindRsdp m ≠ none := by
  unfold acpiInit at h
  obtain ⟨⟨rflags, s0⟩, hlock, h⟩ := Option.bind_eq_some_iff.mp h
  cases hlock
  dsimp only at h
  cases hfind : acpiFindRsdp m with
  | none =>
      -- returned with the lock held
      rw [hfind] at h
      cases h
      refine iff_of_false ?_ (fun hc => hc rfl)
      rintro ⟨hfree, -, -⟩
      cases hfree
  | some rsdp =>
      rw [hfind] at h
      obtain ⟨t, -, h⟩ := Option.bind_eq_some_iff.mp h
      cases h
      refine iff_of_true ⟨rfl, rfl, ?_⟩ (fun hc => by cases hc)
      intro calls
      exact acpiCalls_free calls rfl

/-- A root pointer at the start of the EBDA and an RSDT without entries. -/
def smallTables : PhysMem := fun p =>
  ([0x52, 0x53, 0x44, 0x20, 0x50, 0x54, 0x52, 0x20, 193, 0, 0, 0, 0, 0, 0, 0, 32, 0, 0, 0,
    0, 0, 0, 0, 0, 0, 0, 0, 0, 0, 0, 0,
    0x52, 0x53, 0x44, 0x54, 36, 0, 0, 0, 0, 159] : List UInt8).getD p 0

theorem acpi_balanced_small :
    ∃ s, acpiInit smallTables 0 { iflag := true } = some s ∧ acpiFindRsdp smallTables ≠ none ∧
      s.Balanced smallTables (fun _ => 0) true := by
  have hfind : acpiFindRsdp smallTables ≠ none := by decide
  have hinit : acpiInit smallTables 0 { iflag := true } = some { iflag := true } := by decide
  exact ⟨_, hinit, hfind, (acpi_balanced_iff hinit).mpr hfind⟩

/-- No root pointer is found where no byte is set. -/
theorem scanRsdp_zero (n addr : Nat) : scanRsdp (fun _ => 0) n addr = none := by
  induction n generalizing addr with
  | zero => rfl
  | succ n ih =>
      have hbytes : PhysMem.bytes (fun _ => 0) addr 8 ≠ rsdpSignature := by
        intro hc
        have hhead : some 0 = some 0x52 := congrArg List.head? hc
        cases hhead
      unfold scanRsdp
      rw [if_neg (fun hc => hbytes hc.1)]
      exact ih _

/-- On a machine without a root pointer the lock is held and interrupts are
    off when `acpi_init` returns, and `acpi_get_mcfg` never does. -/
theorem acpi_lock_leaks :
    ∃ s, acpiInit (fun _ => 0) 0 { iflag := true } = some s ∧ s.acpiLock = true ∧
      s.iflag = false ∧ acpiGetMcfg s = none ∧ ¬ s.Balanced (fun _ => 0) (fun _ => 0) true := by
  have hfind : acpiFindRsdp (fun _ => 0) = none := by
    unfold acpiFindRsdp
    dsimp only
    rw [scanRsdp_zero, scanRsdp_zero]
    rfl
  refine ⟨{ acpiLock := true, iflag := false }, ?_, rfl, rfl, rfl, ?_⟩
  · unfold acpiInit
    rw [hfind]
    rfl
  · rintro ⟨hfree, -, -⟩
    cases hfree

end Balance

end Pfi
