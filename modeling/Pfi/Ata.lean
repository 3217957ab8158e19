import Pfi.ByteStore
import Mathlib.Data.Nat.Bitwise

/-! # ATA transfers

    `ata_read_sectors` and `ata_write_sectors`, on whatever status bytes the
    device returns.  A call is given by what it does at the ports, in order; the
    status bytes are taken from a stream, and a position in it says how many of
    them were read.  Only the poll for DRQ has no timeout, so only there a call
    may not come back.

    The device keeps the previous and the latest byte of each of the ports from
    +2 to +5, and decodes a command from them (`commands`).  Nothing in the
    loop over the blocks writes to a port, so the command is the one that the
    nine bytes before it encode (`dataCommands_eq`): six of them are the lower 48
    bits of the LBA, so a larger one is cut off without an error, and a count of
    zero tells the device 65536 sectors where the loop transfers none.  For all
    other arguments the device is told what was asked
    (`ata_addresses_iff`). -/

namespace Pfi

open ByteStore

/-! ## The driver -/

abbrev ataSrBsy : BitVec 8 := 0x80
abbrev ataSrDrdy : BitVec 8 := 0x40
abbrev ataSrDf : BitVec 8 := 0x20
abbrev ataSrDrq : BitVec 8 := 0x08
abbrev ataSrErr : BitVec 8 := 0x01

abbrev ataCmdReadPioExt : Nat := 0x24
abbrev ataCmdWritePioExt : Nat := 0x34
abbrev ataCmdFlushExt : Nat := 0xEA

/-- `ata_bus_t` -/
structure AtaBus where
  ioBase : Nat
  ctrlBase : Nat

/-- The base ports of a channel. -/
def ataBuses (bus : Nat) : AtaBus := if bus = 0 then ⟨0x1F0, 0x3F6⟩ else ⟨0x170, 0x376⟩

/-- `struct ATA_DP` -/
structure AtaDp where
  lba : BitVec 64
  count : BitVec 16

/-- What a call does at the ports.  `insw` and `outsw` move words between the
    data port and an address. -/
inductive AtaEvent where
  | outb (port value : Nat)
  | status (value : BitVec 8)
  | insw (port : Nat) (addr : Addr) (count : Nat)
  | outsw (port : Nat) (addr : Addr) (count : Nat)
deriving DecidableEq

/-- The status bytes from one position to another. -/
def seen (status : Nat → BitVec 8) (p p' : Nat) : List AtaEvent :=
  (List.range' p (p' - p)).map (fun k => AtaEvent.status (status k))

/-- `!(status & ATA_SR_BSY) && (status & ATA_SR_DRDY)` -/
def AtaReady (b : BitVec 8) : Prop := b &&& ataSrBsy = 0 ∧ b &&& ataSrDrdy ≠ 0

instance (b : BitVec 8) : Decidable (AtaReady b) := inferInstanceAs (Decidable (_ ∧ _))

/-- The polls that the waits for the device are given. -/
def ataTimeout : Nat := 100000

/-- `_ata_wait_ready` from a position of the stream on; a timeout is not
    reported. -/
def ataWaitReady (status : Nat → BitVec 8) : (timeout : Nat) → (p : Nat) → Nat
  | 0, p => p
  | timeout + 1, p => if AtaReady (status p) then p + 1 else ataWaitReady status timeout (p + 1)

/-- `while (!(inb(io + 7) & ATA_SR_DRQ));` -/
def pollDrq (status : Nat → BitVec 8) : (fuel : Nat) → (p : Nat) → Option Nat
  | 0, _ => none
  | fuel + 1, p => if status p &&& ataSrDrq ≠ 0 then some (p + 1) else pollDrq status fuel (p + 1)

/-- How the loop over the blocks ends. -/
inductive AtaEnd where
  | polling
  | failed
  | finished (p : Nat)

/-- The loop over the blocks, with `n` of them left. -/
def ataBlocks (status : Nat → BitVec 8) (fuel : Nat) (transfer : Nat → AtaEvent) :
    (n i p : Nat) → List AtaEvent × AtaEnd
  | 0, _, p => ([], .finished p)
  | n + 1, i, p =>
      let check := ataWaitReady status ataTimeout p
      if status check &&& ataSrErr ≠ 0 then (seen status p (check + 1), .failed)
      else
        match pollDrq status fuel (check + 1) with
        | none => (seen status p (check + 1 + fuel), .polling)
        | some next =>
            let rest := ataBlocks status fuel transfer n (i + 1) next
            (seen status p next ++ transfer i :: rest.1, rest.2)

/-- `((drive - 0x80) >> 1) & 1`, where `drive` is an `int`. -/
def ataBusOf (drive : BitVec 8) : AtaBus :=
  ataBuses ((((drive.toNat : Int) - 0x80) >>> (1 : Nat)) % 2).toNat

/-- The writes up to the command. -/
def ataSetup (bus : AtaBus) (dp : AtaDp) (drive : BitVec 8) (command : Nat) : List AtaEvent :=
  let device := drive.toNat &&& 1
  let io := bus.ioBase
  [ .outb bus.ctrlBase 0x00,
    .outb (io + 2) (dp.count.toNat >>> 8 &&& 0xFF),
    .outb (io + 3) (dp.lba.toNat >>> 24 &&& 0xFF),
    .outb (io + 4) (dp.lba.toNat >>> 32 &&& 0xFF),
    .outb (io + 5) (dp.lba.toNat >>> 40 &&& 0xFF),
    .outb (io + 6) (0x40 ||| device <<< 4),
    .outb (io + 2) (dp.count.toNat &&& 0xFF),
    .outb (io + 3) (dp.lba.toNat &&& 0xFF),
    .outb (io + 4) (dp.lba.toNat >>> 8 &&& 0xFF),
    .outb (io + 5) (dp.lba.toNat >>> 16 &&& 0xFF),
    .outb (io + 7) command ]

/-- `(uint8_t*)buffer + (uint32_t)i * 512` -/
def ataBlockAt (buffer : Addr) (i : Nat) : Addr := buffer + BitVec.ofNat 64 (i * 512 % 2 ^ 32)

/-- The events of a call, and what it returns if it comes back. -/
structure AtaCall where
  events : List AtaEvent
  ret : Option Int

/-- The body that both calls have, with the command, the transfer of a block
    between the data port and an address, and what follows the loop. -/
def ataTransfer (status : Nat → BitVec 8) (fuel : Nat) (dp : AtaDp) (buffer : Addr)
    (drive : BitVec 8) (command : Nat) (block : Nat → Addr → AtaEvent)
    (after : Nat → Nat → List AtaEvent) : AtaCall :=
  let bus := ataBusOf drive
  let start := ataWaitReady status ataTimeout 0
  let setup := seen status 0 start ++ ataSetup bus dp drive command
  let blocks := ataBlocks status fuel (fun i => block bus.ioBase (ataBlockAt buffer i))
    dp.count.toNat 0 start
  match blocks.2 with
  | .polling => ⟨setup ++ blocks.1, none⟩
  | .failed => ⟨setup ++ blocks.1, some (-1)⟩
  | .finished p => ⟨setup ++ (blocks.1 ++ after bus.ioBase p), some 0⟩

/-- The read, with the status bytes that the device answers. -/
def ataReadSectors (status : Nat → BitVec 8) (fuel : Nat) (dp : AtaDp) (buffer : Addr)
    (drive : BitVec 8) : AtaCall :=
  ataTransfer status fuel dp buffer drive ataCmdReadPioExt (fun io a => .insw io a 256)
    (fun _ _ => [])

/-- At the end the cache is flushed, and the status is waited for. -/
def ataWriteSectors (status : Nat → BitVec 8) (fuel : Nat) (dp : AtaDp) (buffer : Addr)
    (drive : BitVec 8) : AtaCall :=
  ataTransfer status fuel dp buffer drive ataCmdWritePioExt (fun io a => .outsw io a 256)
    (fun io p => .outb (io + 7) ataCmdFlushExt :: seen status p (ataWaitReady status ataTimeout p))

/-! ## Both directions -/

/-- Which of the two transfers is meant. -/
inductive AtaDirection where
  | read
  | write
deriving DecidableEq

/-- The function of a direction. -/
def ataSectors (dir : AtaDirection) (status : Nat → BitVec 8) (fuel : Nat) (dp : AtaDp)
    (buffer : Addr) (drive : BitVec 8) : AtaCall :=
  match dir with
  | .read => ataReadSectors status fuel dp buffer drive
  | .write => ataWriteSectors status fuel dp buffer drive

/-- The command that a direction sends. -/
def AtaDirection.command : AtaDirection → Nat
  | .read => ataCmdReadPioExt
  | .write => ataCmdWritePioExt

/-- The transfer of a block. -/
def AtaDirection.block (dir : AtaDirection) (io : Nat) (a : Addr) : AtaEvent :=
  match dir with
  | .read => .insw io a 256
  | .write => .outsw io a 256

/-- What follows the loop. -/
def AtaDirection.after (dir : AtaDirection) (status : Nat → BitVec 8) (io p : Nat) :
    List AtaEvent :=
  match dir with
  | .read => []
  | .write => .outb (io + 7) ataCmdFlushExt :: seen status p (ataWaitReady status ataTimeout p)

/-- What comes before the loop. -/
def AtaDirection.setup (dir : AtaDirection) (status : Nat → BitVec 8) (dp : AtaDp)
    (drive : BitVec 8) : List AtaEvent :=
  seen status 0 (ataWaitReady status ataTimeout 0)
    ++ ataSetup (ataBusOf drive) dp drive dir.command

/-- The loop. -/
def AtaDirection.loop (dir : AtaDirection) (status : Nat → BitVec 8) (fuel : Nat) (dp : AtaDp)
    (buffer : Addr) (drive : BitVec 8) : List AtaEvent × AtaEnd :=
  ataBlocks status fuel (fun i => dir.block (ataBusOf drive).ioBase (ataBlockAt buffer i))
    dp.count.toNat 0 (ataWaitReady status ataTimeout 0)

section Calls

variable {dir : AtaDirection} {status : Nat → BitVec 8} {fuel : Nat} {dp : AtaDp} {buffer : Addr}
  {drive : BitVec 8} {p : Nat}

/-- Both directions are the same transfer with their own command, block and
    end. -/
theorem ataSectors_eq (dir : AtaDirection) :
    ataSectors dir status fuel dp buffer drive
      = ataTransfer status fuel dp buffer drive dir.command dir.block (dir.after status) := by
  cases dir with
  | read => rfl
  | write => rfl

/-- A transfer that still polls returns nothing. -/
theorem ataSectors_polling (h : (dir.loop status fuel dp buffer drive).2 = .polling) :
    ataSectors dir status fuel dp buffer drive
      = ⟨dir.setup status dp drive ++ (dir.loop status fuel dp buffer drive).1, none⟩ := by
  rw [ataSectors_eq]
  unfold AtaDirection.loop at h ⊢
  simp only [ataTransfer, h]
  rfl

/-- A refused block ends the call with -1, and nothing is written after it. -/
theorem ataSectors_failed (h : (dir.loop status fuel dp buffer drive).2 = .failed) :
    ataSectors dir status fuel dp buffer drive
      = ⟨dir.setup status dp drive ++ (dir.loop status fuel dp buffer drive).1, some (-1)⟩ := by
  rw [ataSectors_eq]
  unfold AtaDirection.loop at h ⊢
  simp only [ataTransfer, h]
  rfl

/-- After the last block the end of the direction follows, and 0 is returned. -/
theorem ataSectors_finished (h : (dir.loop status fuel dp buffer drive).2 = .finished p) :
    ataSectors dir status fuel dp buffer drive
      = ⟨dir.setup status dp drive ++ ((dir.loop status fuel dp buffer drive).1
          ++ dir.after status (ataBusOf drive).ioBase p), some 0⟩ := by
  rw [ataSectors_eq]
  unfold AtaDirection.loop at h ⊢
  simp only [ataTransfer, h]
  rfl

end Calls

/-! ## The device -/

/-- The two bytes that each port keeps. -/
structure AtaRegs where
  latest : Nat → Nat
  previous : Nat → Nat

/-- A write to an address register latches its byte and keeps the one before;
    the other ports are not latches. -/
def AtaRegs.outb (r : AtaRegs) (io port value : Nat) : AtaRegs :=
  if io + 2 ≤ port ∧ port ≤ io + 5 then
    { latest := Function.update r.latest port value
      previous := Function.update r.previous port (r.latest port) }
  else r

/-- A command as the device takes it. -/
structure AtaCommand where
  command : Nat
  lba : Nat
  sectors : Nat

/-- The command that the device reads off its latches: the bytes written first
    are the high halves. -/
def AtaRegs.decode (r : AtaRegs) (io command : Nat) : AtaCommand :=
  let sectors := r.latest (io + 2) + 2 ^ 8 * r.previous (io + 2)
  { command := command
    lba := r.latest (io + 3) + 2 ^ 8 * r.latest (io + 4) + 2 ^ 16 * r.latest (io + 5)
      + 2 ^ 24 * r.previous (io + 3) + 2 ^ 32 * r.previous (io + 4) + 2 ^ 40 * r.previous (io + 5)
    sectors := if sectors = 0 then 65536 else sectors }

/-- The commands that the device gets. -/
def commands (io : Nat) : AtaRegs → List AtaEvent → List AtaCommand
  | _, [] => []
  | r, .outb port value :: es =>
      if port = io + 7 then r.decode io value :: commands io r es
      else commands io (r.outb io port value) es
  | r, .status _ :: es => commands io r es
  | r, .insw _ _ _ :: es => commands io r es
  | r, .outsw _ _ _ :: es => commands io r es

/-- The commands with an address. -/
def dataCommands (io : Nat) (r : AtaRegs) (es : List AtaEvent) : List AtaCommand :=
  (commands io r es).filter (fun c => decide (c.command ≠ ataCmdFlushExt))

/-- The transfers of blocks. -/
def transfers (es : List AtaEvent) : List AtaEvent :=
  es.filter (fun e =>
    match e with
    | .insw _ _ _ => true
    | .outsw _ _ _ => true
    | _ => false)

/-- No byte is written to a port. -/
def NoOutb (es : List AtaEvent) : Prop := ∀ port value, AtaEvent.outb port value ∉ es

section Device

variable {io : Nat} {r : AtaRegs} {es es' : List AtaEvent} {status : Nat → BitVec 8} {p p' : Nat}

/-- Events without a port write issue no command and leave the latches. -/
theorem commands_noOutb (h : NoOutb es) : commands io r (es ++ es') = commands io r es' := by
  induction es with
  | nil => rfl
  | cons e es ih =>
      have hrest : NoOutb es := fun port value hm => h port value (List.mem_cons_of_mem e hm)
      cases e with
      | outb port value => exact absurd List.mem_cons_self (h port value)
      | status b => exact ih hrest
      | insw port addr count => exact ih hrest
      | outsw port addr count => exact ih hrest

/-- Reading the status writes no port. -/
theorem seen_noOutb : NoOutb (seen status p p') := by
  intro port value hm
  obtain ⟨k, -, heq⟩ := List.mem_map.mp hm
  cases heq

/-- The transfers of events that follow each other. -/
theorem transfers_append : transfers (es ++ es') = transfers es ++ transfers es' :=
  List.filter_append _ _

/-- Reading the status transfers no words. -/
theorem transfers_seen : transfers (seen status p p') = [] := by
  refine List.filter_eq_nil_iff.mpr (fun e he => ?_)
  obtain ⟨k, -, rfl⟩ := List.mem_map.mp he
  exact Bool.false_ne_true

/-- A byte of a number, as the code cuts it out. -/
theorem and_0xFF (n k : Nat) : n >>> k &&& 0xFF = n / 2 ^ k % 256 := by
  rw [Nat.shiftRight_eq_div_pow]
  exact Nat.and_two_pow_sub_one_eq_mod _ 8

/-- A write elsewhere than to the command register reaches the latches only. -/
theorem commands_port {port value : Nat} (h : port ≠ io + 7) :
    commands io r (.outb port value :: es) = commands io (r.outb io port value) es := if_neg h

/-- A write to the command register issues what the latches hold. -/
theorem commands_command {value : Nat} :
    commands io r (.outb (io + 7) value :: es) = r.decode io value :: commands io r es := if_pos rfl

/-- The latch of an address port. -/
theorem outb_latch {port value : Nat} (h : io + 2 ≤ port ∧ port ≤ io + 5) :
    r.outb io port value = ⟨Function.update r.latest port value,
      Function.update r.previous port (r.latest port)⟩ := if_pos h

/-- The other ports leave the latches. -/
theorem outb_other {port value : Nat} (h : ¬ (io + 2 ≤ port ∧ port ≤ io + 5)) :
    r.outb io port value = r := if_neg h

/-- The byte that is written first is the upper one of its port. -/
theorem commands_bytes {ctrl : Nat} (hctrl : ctrl < io + 2 ∨ io + 7 < ctrl)
    (c h2 h3 h4 h5 d l2 l3 l4 l5 command : Nat) (es : List AtaEvent) (r : AtaRegs) :
    ∃ r', commands io r
        (.outb ctrl c :: .outb (io + 2) h2 :: .outb (io + 3) h3 :: .outb (io + 4) h4
          :: .outb (io + 5) h5 :: .outb (io + 6) d :: .outb (io + 2) l2 :: .outb (io + 3) l3
          :: .outb (io + 4) l4 :: .outb (io + 5) l5 :: .outb (io + 7) command :: es)
      = ⟨command, l3 + 2 ^ 8 * l4 + 2 ^ 16 * l5 + 2 ^ 24 * h3 + 2 ^ 32 * h4 + 2 ^ 40 * h5,
          if l2 + 2 ^ 8 * h2 = 0 then 65536 else l2 + 2 ^ 8 * h2⟩ :: commands io r' es := by
  rw [commands_port (by omega), outb_other (by omega), commands_port (by omega),
    outb_latch (by omega), commands_port (by omega), outb_latch (by omega),
    commands_port (by omega), outb_latch (by omega), commands_port (by omega),
    outb_latch (by omega), commands_port (by omega), outb_other (by omega),
    commands_port (by omega), outb_latch (by omega), commands_port (by omega),
    outb_latch (by omega), commands_port (by omega), outb_latch (by omega),
    commands_port (by omega), outb_latch (by omega), commands_command]
  refine ⟨_, congrArg (fun c => c :: _) ?_⟩
  simp [AtaRegs.decode]

/-- The control port lies outside of the channel's own eight. -/
theorem ataBusOf_ports (drive : BitVec 8) :
    (ataBusOf drive).ctrlBase < (ataBusOf drive).ioBase + 2 ∨
      (ataBusOf drive).ioBase + 7 < (ataBusOf drive).ctrlBase := by
  unfold ataBusOf ataBuses
  split
  · exact Or.inr (by decide)
  · exact Or.inr (by decide)

/-- The device gets the lower 48 bits of the LBA. -/
theorem commands_setup (dp : AtaDp) (drive : BitVec 8) (command : Nat) (es : List AtaEvent)
    (r : AtaRegs) :
    ∃ r', commands (ataBusOf drive).ioBase r (ataSetup (ataBusOf drive) dp drive command ++ es)
      = ⟨command, dp.lba.toNat % 2 ^ 48, if dp.count = 0 then 65536 else dp.count.toNat⟩
        :: commands (ataBusOf drive).ioBase r' es := by
  obtain ⟨r', hr⟩ := commands_bytes (ataBusOf_ports drive) 0x00 (dp.count.toNat >>> 8 &&& 0xFF)
    (dp.lba.toNat >>> 24 &&& 0xFF) (dp.lba.toNat >>> 32 &&& 0xFF) (dp.lba.toNat >>> 40 &&& 0xFF)
    (0x40 ||| (drive.toNat &&& 1) <<< 4) (dp.count.toNat &&& 0xFF) (dp.lba.toNat &&& 0xFF)
    (dp.lba.toNat >>> 8 &&& 0xFF) (dp.lba.toNat >>> 16 &&& 0xFF) command es r
  have hlow : ∀ n : Nat, n &&& 0xFF = n % 256 := fun n => Nat.and_two_pow_sub_one_eq_mod n 8
  refine ⟨r', hr.trans (congrArg (fun c => c :: _) ?_)⟩
  rw [and_0xFF, and_0xFF, and_0xFF, and_0xFF, and_0xFF, and_0xFF, hlow, hlow]
  have hcount := dp.count.isLt
  have hbytes : dp.count.toNat % 256 + 2 ^ 8 * (dp.count.toNat / 2 ^ 8 % 256) = dp.count.toNat := by
    omega
  have hlba : dp.lba.toNat % 256 + 2 ^ 8 * (dp.lba.toNat / 2 ^ 8 % 256)
      + 2 ^ 16 * (dp.lba.toNat / 2 ^ 16 % 256) + 2 ^ 24 * (dp.lba.toNat / 2 ^ 24 % 256)
      + 2 ^ 32 * (dp.lba.toNat / 2 ^ 32 % 256) + 2 ^ 40 * (dp.lba.toNat / 2 ^ 40 % 256)
      = dp.lba.toNat % 2 ^ 48 := by
    omega
  rw [hbytes, hlba]
  by_cases hzero : dp.count = 0
  · have hnat : dp.count.toNat = 0 := congrArg BitVec.toNat hzero
    rw [if_pos hzero, if_pos hnat]
  · have hnat : dp.count.toNat ≠ 0 := fun hc => hzero (BitVec.eq_of_toNat_eq hc)
    rw [if_neg hzero, if_neg hnat]

/-! ## The loop -/

/-- The loop over the blocks writes no port, when its transfers do not. -/
theorem ataBlocks_noOutb (fuel : Nat) {transfer : Nat → AtaEvent}
    (h : ∀ i port value, transfer i ≠ .outb port value) (n i p : Nat) :
    NoOutb (ataBlocks status fuel transfer n i p).1 := by
  induction n generalizing i p with
  | zero => exact fun _ _ hm => absurd hm List.not_mem_nil
  | succ n ih =>
      unfold ataBlocks
      dsimp only
      by_cases herr : status (ataWaitReady status ataTimeout p) &&& ataSrErr ≠ 0
      · rw [if_pos herr]
        exact seen_noOutb
      · rw [if_neg herr]
        cases pollDrq status fuel (ataWaitReady status ataTimeout p + 1) with
        | none => exact seen_noOutb
        | some next =>
            intro port value hm
            rcases List.mem_append.mp hm with hm | hm
            · exact seen_noOutb port value hm
            · rcases List.mem_cons.mp hm with hm | hm
              · exact h i port value hm.symm
              · exact ih (i + 1) next port value hm

/-- A loop that is finished has transferred each block. -/
theorem ataBlocks_transfers (fuel : Nat) {transfer : Nat → AtaEvent}
    (h : ∀ i, transfers [transfer i] = [transfer i]) {n i p p' : Nat}
    (hend : (ataBlocks status fuel transfer n i p).2 = .finished p') :
    transfers (ataBlocks status fuel transfer n i p).1 = (List.range' i n).map transfer := by
  induction n generalizing i p with
  | zero => rfl
  | succ n ih =>
      unfold ataBlocks at hend ⊢
      dsimp only at hend ⊢
      by_cases herr : status (ataWaitReady status ataTimeout p) &&& ataSrErr ≠ 0
      · rw [if_pos herr] at hend
        cases hend
      · rw [if_neg herr] at hend ⊢
        cases hpoll : pollDrq status fuel (ataWaitReady status ataTimeout p + 1) with
        | none =>
            rw [hpoll] at hend
            cases hend
        | some next =>
            rw [hpoll] at hend
            dsimp only at hend ⊢
            rw [transfers_append, transfers_seen, List.nil_append, List.range'_succ, List.map_cons,
              ← List.singleton_append, transfers_append, h, ih hend]
            rfl

/-- Without ERR no loop fails. -/
theorem ataBlocks_noErr (fuel : Nat) {transfer : Nat → AtaEvent}
    (h : ∀ k, status k &&& ataSrErr = 0) (n i p : Nat) :
    (ataBlocks status fuel transfer n i p).2 ≠ .failed := by
  induction n generalizing i p with
  | zero => exact fun hc => by cases hc
  | succ n ih =>
      unfold ataBlocks
      dsimp only
      rw [if_neg (fun hc => hc (h _))]
      cases pollDrq status fuel (ataWaitReady status ataTimeout p + 1) with
      | none => exact fun hc => by cases hc
      | some next => exact ih (i + 1) next

end Device

/-! ## What was asked -/

/-- Whatever the device returns, the call fails without a command, or it gives
    one command with the LBA that was asked; and if the device reports no error,
    as many blocks are transferred as the device was told, each to or from its
    place in the buffer. -/
def AddressesAsked (dir : AtaDirection) (dp : AtaDp) (buffer : Addr) (drive : BitVec 8) : Prop :=
  ∀ (status : Nat → BitVec 8) (fuel : Nat) (r : AtaRegs),
    let io := (ataBusOf drive).ioBase
    let call := ataSectors dir status fuel dp buffer drive
    (call.ret = some (-1) ∧ dataCommands io r call.events = []) ∨
      ∃ told, dataCommands io r call.events = [⟨dir.command, dp.lba.toNat, told⟩] ∧
        ((∀ k, status k &&& ataSrErr = 0) → call.ret ≠ none →
          transfers call.events
            = (List.range told).map (fun i => dir.block io (buffer + BitVec.ofNat 64 (512 * i))))

section Asked

variable {dir : AtaDirection} {status : Nat → BitVec 8} {fuel : Nat} {dp : AtaDp} {buffer : Addr}
  {drive : BitVec 8}

/-- A block is words moved, not a byte written. -/
theorem block_noOutb (dir : AtaDirection) (io : Nat) (a : Addr) (port value : Nat) :
    dir.block io a ≠ .outb port value := by
  cases dir with
  | read => exact fun h => by cases h
  | write => exact fun h => by cases h

/-- A block is one transfer. -/
theorem transfers_block (dir : AtaDirection) (io : Nat) (a : Addr) :
    transfers [dir.block io a] = [dir.block io a] := by
  cases dir with
  | read => rfl
  | write => rfl

/-- Nothing is transferred before the command. -/
theorem transfers_setup : transfers (dir.setup status dp drive) = [] := by
  unfold AtaDirection.setup
  rw [transfers_append, transfers_seen]
  rfl

/-- Nothing is transferred after the blocks. -/
theorem transfers_after (dir : AtaDirection) (io p : Nat) :
    transfers (dir.after status io p) = [] := by
  cases dir with
  | read => rfl
  | write => exact transfers_seen

/-- The call is its setup, the loop, and what follows it if it is finished. -/
theorem ataSectors_events (dir : AtaDirection) (status : Nat → BitVec 8) (fuel : Nat) (dp : AtaDp)
    (buffer : Addr) (drive : BitVec 8) :
    ∃ rest, (rest = [] ∨ ∃ p, rest = dir.after status (ataBusOf drive).ioBase p) ∧
      (ataSectors dir status fuel dp buffer drive).events
        = dir.setup status dp drive ++ ((dir.loop status fuel dp buffer drive).1 ++ rest) := by
  cases h : (dir.loop status fuel dp buffer drive).2 with
  | polling =>
      rw [ataSectors_polling h]
      exact ⟨[], Or.inl rfl, by rw [List.append_nil]⟩
  | failed =>
      rw [ataSectors_failed h]
      exact ⟨[], Or.inl rfl, by rw [List.append_nil]⟩
  | finished p =>
      rw [ataSectors_finished h]
      exact ⟨_, Or.inr ⟨p, rfl⟩, rfl⟩

/-- One command with an address, and its LBA is cut off. -/
theorem dataCommands_eq (dir : AtaDirection) (status : Nat → BitVec 8) (fuel : Nat) (dp : AtaDp)
    (buffer : Addr) (drive : BitVec 8) (r : AtaRegs) :
    dataCommands (ataBusOf drive).ioBase r (ataSectors dir status fuel dp buffer drive).events
      = [⟨dir.command, dp.lba.toNat % 2 ^ 48,
          if dp.count = 0 then 65536 else dp.count.toNat⟩] := by
  obtain ⟨rest, hrest, hevents⟩ := ataSectors_events dir status fuel dp buffer drive
  unfold AtaDirection.setup AtaDirection.loop at hevents
  unfold dataCommands
  rw [hevents, List.append_assoc, commands_noOutb seen_noOutb]
  obtain ⟨r', hr⟩ := commands_setup dp drive dir.command
    ((dir.loop status fuel dp buffer drive).1 ++ rest) r
  unfold AtaDirection.loop at hr
  rw [hr, commands_noOutb (ataBlocks_noOutb fuel (fun i => block_noOutb dir _ _) _ _ _)]
  have hkept : decide (dir.command ≠ ataCmdFlushExt) = true := by
    cases dir with
    | read => rfl
    | write => rfl
  -- the command that follows the loop has no address
  have hflush : (commands (ataBusOf drive).ioBase r' rest).filter
      (fun c => decide (c.command ≠ ataCmdFlushExt)) = [] := by
    rcases hrest with rfl | ⟨p, rfl⟩
    · rfl
    · cases dir with
      | read => rfl
      | write =>
          unfold AtaDirection.after
          rw [commands_command, ← List.append_nil (seen _ _ _), commands_noOutb seen_noOutb]
          rfl
  rw [List.filter_cons, if_pos hkept, hflush]

/-- A call that returns 0 has transferred as many blocks as it was asked. -/
theorem ataSectors_transfers (h : ∀ k, status k &&& ataSrErr = 0)
    (hret : (ataSectors dir status fuel dp buffer drive).ret ≠ none) :
    transfers (ataSectors dir status fuel dp buffer drive).events
      = (List.range dp.count.toNat).map
          (fun i => dir.block (ataBusOf drive).ioBase (buffer + BitVec.ofNat 64 (512 * i))) := by
  cases hend : (dir.loop status fuel dp buffer drive).2 with
  | polling =>
      rw [ataSectors_polling hend] at hret
      exact absurd rfl hret
  | failed => exact absurd hend (ataBlocks_noErr fuel h _ _ _)
  | finished p =>
      rw [ataSectors_finished hend, transfers_append, transfers_append, transfers_setup,
        transfers_after, List.nil_append, List.append_nil]
      unfold AtaDirection.loop at hend ⊢
      rw [ataBlocks_transfers fuel (fun i => transfers_block dir _ _) hend,
        ← List.range_eq_range']
      refine List.map_congr_left (fun i hi => ?_)
      have hcount := dp.count.isLt
      have hi := List.mem_range.mp hi
      unfold ataBlockAt
      rw [Nat.mod_eq_of_lt (by omega), Nat.mul_comm]

end Asked

section Quick

variable {status : Nat → BitVec 8} {p : Nat}

/-- A device that is ready at once. -/
theorem ataWaitReady_ready (h : AtaReady (status p)) :
    ataWaitReady status ataTimeout p = p + 1 := by
  unfold ataTimeout ataWaitReady
  exact if_pos h

/-- A device that always has data and no error. -/
def readyDevice : Nat → BitVec 8 := fun _ => ataSrDrdy ||| ataSrDrq

/-- The device is ready at the first poll. -/
theorem readyDevice_ready (p : Nat) : ataWaitReady readyDevice ataTimeout p = p + 1 := by
  have hready : AtaReady (ataSrDrdy ||| ataSrDrq) := by decide
  exact ataWaitReady_ready hready

/-- The device reports no error. -/
theorem readyDevice_noErr (k : Nat) : readyDevice k &&& ataSrErr = 0 := by
  show (ataSrDrdy ||| ataSrDrq) &&& ataSrErr = 0
  decide

/-- The device asks for data at the first poll. -/
theorem readyDevice_drq (p : Nat) : pollDrq readyDevice 1 p = some (p + 1) := by
  have hdrq : (ataSrDrdy ||| ataSrDrq) &&& ataSrDrq ≠ 0 := by decide
  exact if_pos hdrq

/-- The loop finishes on the device, however many blocks are left. -/
theorem readyDevice_finishes (transfer : Nat → AtaEvent) (n i p : Nat) :
    ∃ p', (ataBlocks readyDevice 1 transfer n i p).2 = .finished p' := by
  induction n generalizing i p with
  | zero => exact ⟨p, rfl⟩
  | succ n ih =>
      obtain ⟨p', hp⟩ := ih (i + 1) (p + 1 + 1 + 1)
      refine ⟨p', ?_⟩
      unfold ataBlocks
      dsimp only
      rw [readyDevice_ready, if_neg (fun hc => hc (readyDevice_noErr _)), readyDevice_drq]
      exact hp

/-- The calls return on the device. -/
theorem readyDevice_returns (dir : AtaDirection) (dp : AtaDp) (buffer : Addr) (drive : BitVec 8) :
    (ataSectors dir readyDevice 1 dp buffer drive).ret ≠ none := by
  obtain ⟨p, hp⟩ := readyDevice_finishes
    (fun i => dir.block (ataBusOf drive).ioBase (ataBlockAt buffer i)) dp.count.toNat 0
    (ataWaitReady readyDevice ataTimeout 0)
  rw [ataSectors_finished (p := p) hp]
  exact Option.some_ne_none 0

end Quick

/-- A call asks the device for what it was asked exactly when the LBA has 48 bits
    and the count is not zero. -/
theorem ata_addresses_iff (dir : AtaDirection) (dp : AtaDp) (buffer : Addr) (drive : BitVec 8) :
    AddressesAsked dir dp buffer drive ↔ dp.lba.toNat < 2 ^ 48 ∧ dp.count ≠ 0 := by
  constructor
  · intro h
    have hready := h readyDevice 1 ⟨fun _ => 0, fun _ => 0⟩
    dsimp only at hready
    rw [dataCommands_eq] at hready
    rcases hready with ⟨-, hnone⟩ | ⟨told, hcommand, htransfers⟩
    · cases hnone
    · injection hcommand with hcommand
      injection hcommand with _ hlba htold
      refine ⟨?_, fun hzero => ?_⟩
      · rw [← hlba]
        exact Nat.mod_lt _ (by decide)
      · -- no block is transferred for 65536 sectors
        rw [if_pos hzero] at htold
        have hall := htransfers readyDevice_noErr (readyDevice_returns dir dp buffer drive)
        rw [ataSectors_transfers readyDevice_noErr (readyDevice_returns dir dp buffer drive),
          hzero, ← htold] at hall
        have hlength := congrArg List.length hall
        rw [List.length_map, List.length_map, List.length_range, List.length_range] at hlength
        exact absurd hlength (by decide)
  · rintro ⟨hlba, hcount⟩ status fuel r
    refine Or.inr ⟨dp.count.toNat, ?_, fun hnoerr hret => ataSectors_transfers hnoerr hret⟩
    rw [dataCommands_eq, Nat.mod_eq_of_lt hlba, if_neg hcount]

/-- A read of one sector at 2^48 reads sector 0. -/
theorem ata_reads_other_sector :
    ¬ AddressesAsked .read ⟨0x1000000000000, 1⟩ 0 0x80 := by
  intro h
  rcases h readyDevice 1 ⟨fun _ => 0, fun _ => 0⟩ with ⟨-, hnone⟩ | ⟨told, hcommand, -⟩
  · rw [dataCommands_eq] at hnone
    cases hnone
  · rw [dataCommands_eq] at hcommand
    injection hcommand with hcommand
    injection hcommand with _ hlba _
    exact absurd hlba (by decide)

end Pfi
