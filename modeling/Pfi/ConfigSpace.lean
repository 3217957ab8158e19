import Pfi.Mcfg

/-! # Two ways to a configuration register

    `pcie_read` and `pcie_write` reach a register through the window of an
    MCFG entry or through the ports 0xCF8 and 0xCFC.  The state of both is
    `ConfigBus`: the bytes of the configuration space, the wiring of the
    windows, and what was last written to 0xCF8.

    The address for the port has no room for the two low bits of the offset,
    which the legacy path masks away; the path through the window keeps them
    and accesses a dword across the boundary.  For an offset that is a multiple
    of 4 both paths go to the same four bytes (`portBytes_eq`,
    `windowBytes_eq`), and `pcie_config_read16` and `pcie_read_bar` use no
    others.  For any other offset the last byte of a write is one that the port
    leaves alone, so the paths agree on aligned offsets only
    (`config_paths_agree_iff`). -/

namespace Pfi

open Words

/-! ## The bus -/

/-- A byte of the configuration space; a function has 4096 of them. -/
structure ConfigByte where
  bus : Nat
  slot : Nat
  func : Nat
  reg : Nat
deriving DecidableEq

/-- The configuration space, with the two ways to it. -/
structure ConfigBus where
  space : ConfigByte → BitVec 8
  /-- The byte that an address of memory stands for. -/
  window : Nat → ConfigByte
  /-- The value at port 0xCF8. -/
  address : Nat := 0

/-- The dword that port 0xCFC stands for. -/
def portBytes (address : Nat) : List ConfigByte :=
  (List.range 4).map (fun i =>
    ⟨address >>> 16 &&& 0xFF, address >>> 11 &&& 0x1F, address >>> 8 &&& 7, (address &&& 0xFC) + i⟩)

/-- The dword at an address of memory. -/
def ConfigBus.windowBytes (c : ConfigBus) (virt : Nat) : List ConfigByte :=
  (List.range 4).map (fun i => c.window (add64 virt i))

/-- The number in bytes of the space. -/
def ConfigBus.loadBytes (c : ConfigBus) : List ConfigByte → Nat
  | [] => 0
  | b :: bs => (c.space b).toNat + 256 * c.loadBytes bs

/-- A byte of the space is set. -/
def ConfigBus.setByte (c : ConfigBus) (b : ConfigByte) (v : Nat) : ConfigBus :=
  { c with space := fun b' => if b' = b then BitVec.ofNat 8 v else c.space b' }

/-- A number is stored in bytes of the space. -/
def ConfigBus.storeBytes (c : ConfigBus) : List ConfigByte → Nat → ConfigBus
  | [], _ => c
  | b :: bs, v => (c.setByte b v).storeBytes bs (v / 256)

/-- An operation and the value that it reads.  Port 0xCFC does nothing unless
    bit 31 of the address is set. -/
def ConfigBus.step (c : ConfigBus) : BusOp → Nat × ConfigBus
  | .load virt => (c.loadBytes (c.windowBytes virt), c)
  | .store virt value => (0, c.storeBytes (c.windowBytes virt) value)
  | .outl port value =>
      if port = 0xCF8 then (0, { c with address := value })
      else if port = 0xCFC ∧ c.address.testBit 31 = true then
        (0, c.storeBytes (portBytes c.address) value)
      else (0, c)
  | .inl port =>
      if port = 0xCFC ∧ c.address.testBit 31 = true then (c.loadBytes (portBytes c.address), c)
      else (2 ^ 32 - 1, c)

/-- Operations one after the other, with the value of the last one. -/
def ConfigBus.run (c : ConfigBus) (ops : List BusOp) : Nat × ConfigBus :=
  ops.foldl (fun r op => r.2.step op) (0, c)

/-! ## The access functions -/

/-- What `pcie_read` gives on the bus. -/
def ConfigBus.pcieRead (c : ConfigBus) (mcfg : Option (List AcpiMcfgEntry))
    (bus slot func offset : Nat) : Nat × ConfigBus :=
  c.run (Pfi.pcieRead mcfg bus slot func offset)

/-- What `pcie_write` does to the bus. -/
def ConfigBus.pcieWrite (c : ConfigBus) (mcfg : Option (List AcpiMcfgEntry))
    (bus slot func offset value : Nat) : ConfigBus :=
  (c.run (Pfi.pcieWrite mcfg bus slot func offset value)).2

/-- `PCI_BAR0`. -/
abbrev pciBar0 : Nat := 0x10

/-- `pcie_read_bar`; the offset is a `uint8_t`. -/
def ConfigBus.pcieReadBar (c : ConfigBus) (mcfg : Option (List AcpiMcfgEntry))
    (bus slot func barIndex : Nat) : Nat × ConfigBus :=
  c.pcieRead mcfg bus slot func ((pciBar0 + barIndex * 4) % 2 ^ 8)

/-- `pcie_config_read16`. -/
def ConfigBus.pcieConfigRead16 (c : ConfigBus) (mcfg : Option (List AcpiMcfgEntry))
    (bus slot func offset : Nat) : Nat × ConfigBus :=
  let r := c.pcieRead mcfg bus slot func (offset &&& 0xFC)
  if offset &&& 2 ≠ 0 then (r.1 >>> 16 % 2 ^ 16, r.2) else (r.1 &&& 0xFFFF, r.2)

/-! ## Agreement -/

/-- In the window of the entry, the bytes of a bus are those of the
    configuration space. -/
def ConfigBus.Shows (c : ConfigBus) (e : AcpiMcfgEntry) (bus : Nat) : Prop :=
  ∀ slot func reg, slot < 32 → func < 8 → reg < 4096 →
    c.window (e.virtBase + ecamOffset e bus slot func reg) = ⟨bus, slot, func, reg⟩

/-- The path through the window of an entry and the path through the ports do
    the same for a register. -/
structure ConfigBus.PathsAgree (c : ConfigBus) (entries : List AcpiMcfgEntry)
    (bus slot func offset : Nat) : Prop where
  read : (c.pcieRead (some entries) bus slot func offset).1
    = (c.pcieRead none bus slot func offset).1
  write : ∀ value < 2 ^ 32, (c.pcieWrite (some entries) bus slot func offset value).space
    = (c.pcieWrite none bus slot func offset value).space
  read16 : (c.pcieConfigRead16 (some entries) bus slot func offset).1
    = (c.pcieConfigRead16 none bus slot func offset).1
  bar : ∀ barIndex < 6, (c.pcieReadBar (some entries) bus slot func barIndex).1
    = (c.pcieReadBar none bus slot func barIndex).1

section Ports

variable {bus slot func offset : Nat}

/-- The dword of a register. -/
theorem and_dword (hoffset : offset < 256) : offset &&& 0xFC = offset / 4 * 4 := by
  have hall : ∀ n < 256, n &&& 0xFC = n / 4 * 4 := by decide +kernel
  exact hall offset hoffset

/-- The fields of the address do not overlap. -/
theorem legacyAddress_eq (hbus : bus < 256) (hslot : slot < 32) (hfunc : func < 8)
    (hoffset : offset < 256) :
    legacyAddress bus slot func offset
      = 2 ^ 31 + bus * 2 ^ 16 + slot * 2 ^ 11 + func * 2 ^ 8 + offset / 4 * 4 := by
  have h1 : 1 <<< 31 ||| bus <<< 16 = (2 ^ 15 + bus) * 2 ^ 16 := by
    rw [Nat.shiftLeft_eq, Nat.shiftLeft_eq, Nat.one_mul, show 2 ^ 31 = 1 * 2 ^ 31 by decide,
      mul_or_of_lt (by omega)]
    omega
  have h2 : (2 ^ 15 + bus) * 2 ^ 16 ||| slot <<< 11 = ((2 ^ 15 + bus) * 2 ^ 5 + slot) * 2 ^ 11 := by
    rw [Nat.shiftLeft_eq, mul_or_of_lt (by omega)]
    omega
  have h3 : ((2 ^ 15 + bus) * 2 ^ 5 + slot) * 2 ^ 11 ||| func <<< 8
      = (((2 ^ 15 + bus) * 2 ^ 5 + slot) * 2 ^ 3 + func) * 2 ^ 8 := by
    rw [Nat.shiftLeft_eq, mul_or_of_lt (by omega)]
    omega
  unfold legacyAddress
  rw [h1, h2, h3, and_dword hoffset, mul_or_of_lt (by omega)]
  omega

/-- The four bytes of the dword of an offset. -/
def dwordBytes (bus slot func offset : Nat) : List ConfigByte :=
  (List.range 4).map (fun i => ⟨bus, slot, func, offset + i⟩)

/-- The ports reach the dword of the register. -/
theorem portBytes_eq (hbus : bus < 256) (hslot : slot < 32) (hfunc : func < 8)
    (hoffset : offset < 256) :
    portBytes (legacyAddress bus slot func offset)
      = dwordBytes bus slot func (offset / 4 * 4) := by
  have haddress := legacyAddress_eq hbus hslot hfunc hoffset
  generalize legacyAddress bus slot func offset = a at haddress
  have hreg : a &&& 0xFC = offset / 4 * 4 := by
    -- the mask only sees the low byte
    have hlow : a &&& 0xFC = a % 256 &&& 0xFC := by
      rw [show (256 : Nat) = 2 ^ 8 by decide, ← and_mask a 8, Nat.and_assoc]
      rfl
    rw [hlow, and_dword (Nat.mod_lt _ (by decide)), haddress]
    omega
  unfold portBytes dwordBytes
  rw [hreg, show (0xFF : Nat) = 2 ^ 8 - 1 by decide, show (0x1F : Nat) = 2 ^ 5 - 1 by decide,
    show (7 : Nat) = 2 ^ 3 - 1 by decide, and_mask, and_mask, and_mask,
    Nat.shiftRight_eq_div_pow, Nat.shiftRight_eq_div_pow, Nat.shiftRight_eq_div_pow, haddress]
  refine List.map_congr_left (fun i _ => ?_)
  rw [show (2 ^ 31 + bus * 2 ^ 16 + slot * 2 ^ 11 + func * 2 ^ 8 + offset / 4 * 4) / 2 ^ 16 % 2 ^ 8
      = bus by omega,
    show (2 ^ 31 + bus * 2 ^ 16 + slot * 2 ^ 11 + func * 2 ^ 8 + offset / 4 * 4) / 2 ^ 11 % 2 ^ 5
      = slot by omega,
    show (2 ^ 31 + bus * 2 ^ 16 + slot * 2 ^ 11 + func * 2 ^ 8 + offset / 4 * 4) / 2 ^ 8 % 2 ^ 3
      = func by omega]

/-- Bit 31 of the address is set. -/
theorem legacyAddress_enabled (hbus : bus < 256) (hslot : slot < 32) (hfunc : func < 8)
    (hoffset : offset < 256) : (legacyAddress bus slot func offset).testBit 31 = true := by
  rw [legacyAddress_eq hbus hslot hfunc hoffset, Nat.testBit_eq_decide_div_mod_eq]
  exact decide_eq_true (by omega)

end Ports

section Paths

variable {c : ConfigBus} {entries : List AcpiMcfgEntry} {e : AcpiMcfgEntry}
  {bus slot func offset : Nat}

/-- The window reaches the register itself. -/
theorem ConfigBus.windowBytes_eq (h : c.Shows e bus) (hbus : e.HasBus bus) (hslot : slot < 32)
    (hfunc : func < 8) (hoffset : offset < 256) :
    c.windowBytes (ecamAddress e bus slot func offset) = dwordBytes bus slot func offset := by
  have hseg := e.segmentWord
  have hend := e.endByte
  have hlast := hbus.2
  unfold windowBytes dwordBytes
  rw [AcpiMcfgEntry.ecamAddress_eq hbus hslot hfunc hoffset]
  refine List.map_congr_left (fun i hi => ?_)
  have hi := List.mem_range.mp hi
  have hroom : e.virtBase + 2 ^ 28 ≤ 2 ^ 64 := by
    rw [e.virtBase_eq]
    simp only [pcieVirtBase, aosPCIeVirtBase]
    omega
  have hin : ecamOffset e bus slot func offset + i < 2 ^ 28 := by
    unfold ecamOffset
    omega
  have hnext : ecamOffset e bus slot func offset + i = ecamOffset e bus slot func (offset + i) := by
    unfold ecamOffset
    omega
  have hsum : e.virtBase + ecamOffset e bus slot func offset + i < 2 ^ 64 := by omega
  rw [add64_of_lt hsum, Nat.add_assoc, hnext]
  exact h slot func (offset + i) hslot hfunc (by omega)

/-- Through the window of its entry. -/
theorem ConfigBus.pcieRead_window (hfound : entries[getSegment (some entries) bus]? = some e)
    (h : c.Shows e bus) (hbus : e.HasBus bus) (hslot : slot < 32) (hfunc : func < 8)
    (hoffset : offset < 256) :
    c.pcieRead (some entries) bus slot func offset
      = (c.loadBytes (dwordBytes bus slot func offset), c) := by
  unfold ConfigBus.pcieRead Pfi.pcieRead
  rw [show (some entries).getD [] = entries from rfl, hfound,
    ← windowBytes_eq h hbus hslot hfunc hoffset]
  rfl

/-- A write through the window. -/
theorem ConfigBus.pcieWrite_window (hfound : entries[getSegment (some entries) bus]? = some e)
    (h : c.Shows e bus) (hbus : e.HasBus bus) (hslot : slot < 32) (hfunc : func < 8)
    (hoffset : offset < 256) (value : Nat) :
    c.pcieWrite (some entries) bus slot func offset value
      = c.storeBytes (dwordBytes bus slot func offset) value := by
  unfold ConfigBus.pcieWrite Pfi.pcieWrite
  rw [show (some entries).getD [] = entries from rfl, hfound,
    ← windowBytes_eq h hbus hslot hfunc hoffset]
  rfl

/-- The address that stays at port 0xCF8 is no part of the space. -/
theorem ConfigBus.loadBytes_address (bs : List ConfigByte) (a : Nat) :
    ConfigBus.loadBytes { c with address := a } bs = c.loadBytes bs := by
  induction bs with
  | nil => rfl
  | cons b bs ih =>
      unfold ConfigBus.loadBytes
      rw [ih]

/-- The address at the port is no part of the space. -/
theorem ConfigBus.storeBytes_address (bs : List ConfigByte) (a v : Nat) :
    (ConfigBus.storeBytes { c with address := a } bs v).space = (c.storeBytes bs v).space := by
  induction bs generalizing c v with
  | nil => rfl
  | cons b bs ih => exact @ih (c.setByte b v) (v / 256)

/-- Through the ports, where nothing is found. -/
theorem ConfigBus.pcieRead_ports (hbus : bus < 256) (hslot : slot < 32) (hfunc : func < 8)
    (hoffset : offset < 256) :
    c.pcieRead none bus slot func offset
      = (c.loadBytes (dwordBytes bus slot func (offset / 4 * 4)),
          { c with address := legacyAddress bus slot func offset }) := by
  have hbit := legacyAddress_enabled hbus hslot hfunc hoffset
  rw [← portBytes_eq hbus hslot hfunc hoffset,
    ← ConfigBus.loadBytes_address _ (legacyAddress bus slot func offset)]
  exact if_pos ⟨rfl, hbit⟩

/-- A write through the ports. -/
theorem ConfigBus.pcieWrite_ports (hbus : bus < 256) (hslot : slot < 32) (hfunc : func < 8)
    (hoffset : offset < 256) (value : Nat) :
    (c.pcieWrite none bus slot func offset value).space
      = (c.storeBytes (dwordBytes bus slot func (offset / 4 * 4)) value).space := by
  have hbit := legacyAddress_enabled hbus hslot hfunc hoffset
  rw [← portBytes_eq hbus hslot hfunc hoffset,
    ← ConfigBus.storeBytes_address _ (legacyAddress bus slot func offset)]
  have hstep : ConfigBus.step { c with address := legacyAddress bus slot func offset }
        (.outl 0xCFC value)
      = (0, ConfigBus.storeBytes { c with address := legacyAddress bus slot func offset }
          (portBytes (legacyAddress bus slot func offset)) value) := if_pos ⟨rfl, hbit⟩
  exact congrArg (fun r : Nat × ConfigBus => r.2.space) hstep

/-- A byte that is not stored to. -/
theorem ConfigBus.storeBytes_other {b : ConfigByte} {bs : List ConfigByte} (hb : b ∉ bs) (v : Nat) :
    (c.storeBytes bs v).space b = c.space b := by
  induction bs generalizing c v with
  | nil => rfl
  | cons b' bs ih =>
      unfold ConfigBus.storeBytes
      rw [ih (fun hc => hb (List.mem_cons_of_mem _ hc))]
      refine if_neg (fun heq => hb ?_)
      rw [heq]
      exact List.mem_cons_self

/-- The last byte of a dword. -/
theorem ConfigBus.storeBytes_last (v : Nat) :
    (c.storeBytes (dwordBytes bus slot func offset) v).space ⟨bus, slot, func, offset + 3⟩
      = BitVec.ofNat 8 (v / 256 / 256 / 256) :=
  if_pos rfl

/-- Where the paths of the two accesses meet. -/
theorem ConfigBus.pcieRead_agree (hfound : entries[getSegment (some entries) bus]? = some e)
    (h : c.Shows e bus) (hbus : e.HasBus bus) (hslot : slot < 32) (hfunc : func < 8)
    (hoffset : offset < 256) (hdword : offset % 4 = 0) :
    (c.pcieRead (some entries) bus slot func offset).1
      = (c.pcieRead none bus slot func offset).1 := by
  have hbyte : bus < 256 := Nat.lt_of_le_of_lt hbus.2 e.endByte
  rw [pcieRead_window hfound h hbus hslot hfunc hoffset,
    pcieRead_ports hbyte hslot hfunc hoffset, Nat.div_mul_cancel (Nat.dvd_of_mod_eq_zero hdword)]

end Paths

/-- For a bus of an entry whose window shows its bytes, the two paths agree
    exactly when the offset is a multiple of 4. -/
theorem config_paths_agree_iff {c : ConfigBus} {entries : List AcpiMcfgEntry}
    {bus slot func offset : Nat} (hcovered : ∃ e ∈ entries, e.HasBus bus)
    (hshows : ∀ e ∈ entries, e.HasBus bus → c.Shows e bus) (hslot : slot < 32) (hfunc : func < 8)
    (hoffset : offset < 256) :
    c.PathsAgree entries bus slot func offset ↔ offset % 4 = 0 := by
  obtain ⟨e, he, hbus, hfound⟩ := getSegment_found hcovered
  have h := hshows e he hbus
  have hbyte : bus < 256 := Nat.lt_of_le_of_lt hbus.2 e.endByte
  constructor
  · intro hagree
    by_contra hodd
    -- a value whose last byte is not the one that is there
    have hother : ∃ v < 256, BitVec.ofNat 8 v ≠ c.space ⟨bus, slot, func, offset + 3⟩ := by
      generalize c.space ⟨bus, slot, func, offset + 3⟩ = old
      by_cases hzero : old = 0
      · exact ⟨1, by decide, by rw [hzero]; decide⟩
      · exact ⟨0, by decide, fun hc => hzero hc.symm⟩
    obtain ⟨v, hv, hne⟩ := hother
    have hwrite := congrFun (hagree.write (v * 256 * 256 * 256) (by omega))
      ⟨bus, slot, func, offset + 3⟩
    rw [ConfigBus.pcieWrite_window hfound h hbus hslot hfunc hoffset, ConfigBus.storeBytes_last,
      ConfigBus.pcieWrite_ports hbyte hslot hfunc hoffset, ConfigBus.storeBytes_other] at hwrite
    · rw [Nat.mul_div_cancel _ (by decide), Nat.mul_div_cancel _ (by decide),
        Nat.mul_div_cancel _ (by decide)] at hwrite
      exact hne hwrite
    · unfold dwordBytes
      intro hmem
      obtain ⟨i, hi, heq⟩ := List.mem_map.mp hmem
      have hi := List.mem_range.mp hi
      have hreg := congrArg ConfigByte.reg heq
      dsimp only at hreg
      omega
  · intro hdword
    refine ⟨ConfigBus.pcieRead_agree hfound h hbus hslot hfunc hoffset hdword,
      fun value _ => ?_, ?_, fun barIndex hbar => ?_⟩
    · rw [ConfigBus.pcieWrite_window hfound h hbus hslot hfunc hoffset,
        ConfigBus.pcieWrite_ports hbyte hslot hfunc hoffset,
        Nat.div_mul_cancel (Nat.dvd_of_mod_eq_zero hdword)]
    · have hmask := and_dword hoffset
      have hread := @ConfigBus.pcieRead_agree c entries e bus slot func (offset &&& 0xFC) hfound h
        hbus hslot hfunc (by omega) (by omega)
      unfold ConfigBus.pcieConfigRead16
      dsimp only
      by_cases hhalf : offset &&& 2 ≠ 0
      · rw [if_pos hhalf, if_pos hhalf, hread]
      · rw [if_neg hhalf, if_neg hhalf, hread]
    · exact ConfigBus.pcieRead_agree hfound h hbus hslot hfunc (Nat.mod_lt _ (by decide))
        (by simp only [pciBar0]; omega)

/-- Each register holds its own number; the window is that of segment 0. -/
def numberedBus : ConfigBus :=
  { space := fun b => BitVec.ofNat 8 b.reg
    window := fun virt =>
      let o := virt - pcieVirtBase
      ⟨o / 2 ^ 20, o / 2 ^ 15 % 32, o / 2 ^ 12 % 8, o % 4096⟩ }

/-- The window of the example shows its range. -/
theorem numberedBus_shows : ∀ e ∈ oneRange, ∀ bus, e.HasBus bus → numberedBus.Shows e bus := by
  intro e he bus hbus slot func reg hslot hfunc hreg
  rw [List.mem_singleton.mp he] at hbus ⊢
  have hstart : ∀ o, pcieVirtBase + 0 * 2 ^ 28 + o - pcieVirtBase = o := by
    intro o
    omega
  rw [AcpiMcfgEntry.virtBase_eq]
  unfold numberedBus ecamOffset
  dsimp only
  rw [hstart, Nat.sub_zero]
  congr 1 <;> omega

theorem config_paths_agree_aligned : numberedBus.PathsAgree oneRange 1 31 7 252 :=
  (config_paths_agree_iff ⟨_, List.mem_cons_self, by decide⟩
    (fun e he hbus => numberedBus_shows e he 1 hbus) (by decide) (by decide) (by decide)).mpr rfl

/-- At offset 2 the window gives registers 2 to 5 and the port registers 0 to
    3. -/
theorem config_paths_differ :
    (∃ e ∈ oneRange, e.HasBus 0) ∧ (∀ e ∈ oneRange, e.HasBus 0 → numberedBus.Shows e 0) ∧
      (numberedBus.pcieRead (some oneRange) 0 0 0 2).1 = 0x05040302 ∧
      (numberedBus.pcieRead none 0 0 0 2).1 = 0x03020100 ∧
      ¬ numberedBus.PathsAgree oneRange 0 0 0 2 := by
  have hwindow : (numberedBus.pcieRead (some oneRange) 0 0 0 2).1 = 0x05040302 := by decide +kernel
  have hports : (numberedBus.pcieRead none 0 0 0 2).1 = 0x03020100 := by decide +kernel
  refine ⟨⟨_, List.mem_cons_self, by decide⟩, fun e he hbus => numberedBus_shows e he 0 hbus,
    hwindow, hports, fun hagree => ?_⟩
  have hread := hagree.read
  rw [hwindow, hports] at hread
  exact absurd hread (by decide)

end Pfi
