import Pfi.AtaStatus

/-! # The disks behind the ATA ports

    A channel keeps the bytes that are written to its ports, and takes a command
    for the drive that is selected.  From then on each 256 words that go through
    the data port are the next sector, whatever status byte the channel has
    shown before: a device that drops words behind a fault bit is none of these
    channels.  Words that no command has asked for are no transfer, and a machine
    on which one is tried has no state.

    The eleven writes of a call leave a command for the lower 48 bits of the
    LBA on the drive that the number names (`exec_setup`), and the loop moves one
    sector after the other, until it is finished or refused (`exec_blocks`).  So
    a call is an operation on an abstract store of disks and memory, with some
    number of blocks, and the state that the channel was left in does not matter
    (`exec_call`).  Runs of calls follow by induction
    (`ata_runs_refine`), and a sector that was written is read back until it is
    written again (`ata_sector_stays`). -/

namespace Pfi

open ByteStore

/-! ## The store -/

/-- The bytes of the sectors of a drive. -/
abbrev Sectors := Nat → Nat → BitVec 8

/-- Memory, and the drives by the base of their channel and their number. -/
structure AtaStore where
  mem : Mem
  disk : Nat → Nat → Sectors

/-- A block between memory and a sector. -/
def AtaStore.block (s : AtaStore) (dir : AtaDirection) (io drive lba : Nat) (a : Addr) : AtaStore :=
  match dir with
  | .read =>
      { s with mem := fun p => if (p - a).toNat < 512 then s.disk io drive lba (p - a).toNat
          else s.mem p }
  | .write =>
      { s with disk := fun io' drive' lba' o =>
          if io' = io ∧ drive' = drive ∧ lba' = lba then s.mem (a + BitVec.ofNat 64 o)
          else s.disk io' drive' lba' o }

/-- `k` blocks from the `i`-th on. -/
def AtaStore.blocks (s : AtaStore) (dir : AtaDirection) (io drive lba : Nat) (buffer : Addr) :
    (i k : Nat) → AtaStore
  | _, 0 => s
  | i, k + 1 =>
      (s.block dir io drive (lba + i) (ataBlockAt buffer i)).blocks dir io drive lba buffer
        (i + 1) k

/-! ## The channels -/

/-- A command under way: the next sector, and how many are left. -/
structure AtaPending where
  dir : AtaDirection
  drive : Nat
  lba : Nat
  left : Nat

/-- The registers, the last byte that was written to the drive register, and the
    command. -/
structure AtaChannel where
  regs : AtaRegs
  select : Nat
  pending : Option AtaPending

def AtaDirection.ofCommand (command : Nat) : Option AtaDirection :=
  if command = ataCmdReadPioExt then some .read
  else if command = ataCmdWritePioExt then some .write
  else none

/-- A command for sectors needs the LBA bit of the drive register; a bit next to
    it says which drive. -/
def AtaChannel.accept (c : AtaChannel) (io command : Nat) : Option AtaPending :=
  let told := c.regs.decode io command
  match AtaDirection.ofCommand command with
  | some dir => if c.select.testBit 6 then some ⟨dir, c.select / 16 % 2, told.lba, told.sectors⟩
      else none
  | none => none

def AtaChannel.outb (c : AtaChannel) (io port value : Nat) : AtaChannel :=
  if port = io + 7 then { c with pending := c.accept io value }
  else if port = io + 6 then { c with select := value }
  else { c with regs := c.regs.outb io port value }

structure AtaMachine extends AtaStore where
  channel : Nat → AtaChannel

/-- The channel that a port belongs to; those of the control registers have no
    effect. -/
def channelOf (port : Nat) : Option Nat :=
  if 0x1F0 ≤ port ∧ port ≤ 0x1F7 then some 0x1F0
  else if 0x170 ≤ port ∧ port ≤ 0x177 then some 0x170
  else none

/-- 256 words through the data port.  A command under way takes or gives them:
    the channel is one that moves the words of a command. -/
def AtaMachine.transfer (s : AtaMachine) (dir : AtaDirection) (io : Nat) (a : Addr) (count : Nat) :
    Option AtaMachine :=
  match (s.channel io).pending with
  | some t =>
      if t.dir = dir ∧ t.left ≠ 0 ∧ count = 256 then
        some { s.toAtaStore.block dir io t.drive t.lba a with
          channel := Function.update s.channel io { s.channel io with
            pending := some { t with lba := t.lba + 1, left := t.left - 1 } } }
      else none
  | none => none

/-- What one access of the driver does to the channels.  A status byte may be any
    byte, and changes nothing: the calls act on what it says, and the channel
    moves the words of the command even behind one with `ERR` or `DF` set. -/
def AtaMachine.step (s : AtaMachine) : AtaEvent → Option AtaMachine
  | .outb port value =>
      match channelOf port with
      | some io => some { s with
          channel := Function.update s.channel io ((s.channel io).outb io port value) }
      | none => some s
  | .status _ => some s
  | .insw port a count => s.transfer .read port a count
  | .outsw port a count => s.transfer .write port a count

/-- The accesses of a call, one after the other. -/
def AtaMachine.exec (s : AtaMachine) (es : List AtaEvent) : Option AtaMachine :=
  es.foldlM AtaMachine.step s

/-! ## Single events -/

section Events

variable {s s' : AtaMachine} {es es' : List AtaEvent} {status : Nat → BitVec 8} {p p' io : Nat}
  {dir : AtaDirection}

theorem AtaMachine.exec_append (h : s.exec es = some s') : s.exec (es ++ es') = s'.exec es' := by
  unfold exec at h ⊢
  rw [List.foldlM_append, h]
  rfl

theorem AtaMachine.exec_cons {e : AtaEvent} (h : s.step e = some s') :
    s.exec (e :: es) = s'.exec es := by
  unfold exec
  rw [List.foldlM_cons, h]
  rfl

/-- Reading the status changes nothing. -/
theorem AtaMachine.exec_seen (s : AtaMachine) : s.exec (seen status p p') = some s := by
  unfold seen
  generalize List.range' p (p' - p) = ks
  induction ks with
  | nil => rfl
  | cons k ks ih => exact ih

/-- A write to a port of a channel. -/
theorem AtaMachine.step_outb {port value : Nat} (h : channelOf port = some io) :
    s.step (.outb port value) = some { s with
      channel := Function.update s.channel io ((s.channel io).outb io port value) } := by
  unfold step
  dsimp only
  rw [h]

theorem AtaMachine.step_outb_none {port value : Nat} (h : channelOf port = none) :
    s.step (.outb port value) = some s := by
  unfold step
  dsimp only
  rw [h]

end Events

/-! ## The command -/

/-- The effect of writes to the ports of a channel. -/
def AtaChannel.outbs (c : AtaChannel) (io : Nat) (ws : List (Nat × Nat)) : AtaChannel :=
  ws.foldl (fun c w => c.outb io w.1 w.2) c

def outbEvents (ws : List (Nat × Nat)) : List AtaEvent := ws.map (fun w => .outb w.1 w.2)

section Command

variable {s : AtaMachine} {c : AtaChannel} {io : Nat} {ws : List (Nat × Nat)}

theorem AtaMachine.exec_outbs (h : ∀ w ∈ ws, channelOf w.1 = some io) :
    s.exec (outbEvents ws)
      = some { s with channel := Function.update s.channel io ((s.channel io).outbs io ws) } := by
  induction ws generalizing s with
  | nil =>
      show some s = _
      rw [show (s.channel io).outbs io [] = s.channel io from rfl, Function.update_eq_self]
  | cons w ws ih =>
      have hstep := @step_outb s io w.1 w.2 (h w List.mem_cons_self)
      have hrest := @ih { s with
        channel := Function.update s.channel io ((s.channel io).outb io w.1 w.2) }
        (fun w hw => h w (List.mem_cons_of_mem _ hw))
      dsimp only at hrest
      rw [Function.update_self, Function.update_idem] at hrest
      exact (exec_cons hstep).trans hrest

/-- The registers take every byte that is not a command. -/
theorem AtaChannel.outb_regs {port value : Nat} (h : port ≠ io + 7) :
    (c.outb io port value).regs = c.regs.outb io port value := by
  unfold outb
  rw [if_neg h]
  by_cases hselect : port = io + 6
  · rw [if_pos hselect, outb_other (by omega)]
  · rw [if_neg hselect]

/-- The bytes that the device decodes are those in the registers. -/
theorem commands_outbs (h : ∀ w ∈ ws, w.1 ≠ io + 7) (es : List AtaEvent) :
    commands io c.regs (outbEvents ws ++ es) = commands io (c.outbs io ws).regs es := by
  induction ws generalizing c with
  | nil => rfl
  | cons w ws ih =>
      have hw := h w List.mem_cons_self
      show commands io c.regs (.outb w.1 w.2 :: (outbEvents ws ++ es)) = _
      rw [commands_port hw, ← AtaChannel.outb_regs (c := c) hw,
        ih (fun w hw => h w (List.mem_cons_of_mem _ hw))]
      rfl

theorem channelOf_bus (drive : BitVec 8) :
    channelOf (ataBusOf drive).ctrlBase = none ∧
      ∀ k, k ≤ 7 → channelOf ((ataBusOf drive).ioBase + k) = some (ataBusOf drive).ioBase := by
  unfold ataBusOf ataBuses
  split
  · refine ⟨by decide, fun k hk => if_pos ?_⟩
    dsimp only
    omega
  · refine ⟨by decide, fun k hk => (if_neg ?_).trans (if_pos ?_)⟩
    · dsimp only
      omega
    · dsimp only
      omega

/-- The nine bytes between the control register and the command. -/
def setupBytes (dp : AtaDp) (drive : BitVec 8) : List (Nat × Nat) :=
  let io := (ataBusOf drive).ioBase
  [(io + 2, dp.count.toNat >>> 8 &&& 0xFF), (io + 3, dp.lba.toNat >>> 24 &&& 0xFF),
    (io + 4, dp.lba.toNat >>> 32 &&& 0xFF), (io + 5, dp.lba.toNat >>> 40 &&& 0xFF),
    (io + 6, 0x40 ||| (drive.toNat &&& 1) <<< 4), (io + 2, dp.count.toNat &&& 0xFF),
    (io + 3, dp.lba.toNat &&& 0xFF), (io + 4, dp.lba.toNat >>> 8 &&& 0xFF),
    (io + 5, dp.lba.toNat >>> 16 &&& 0xFF)]

theorem ataSetup_eq (dp : AtaDp) (drive : BitVec 8) (command : Nat) :
    ataSetup (ataBusOf drive) dp drive command
      = .outb (ataBusOf drive).ctrlBase 0
        :: (outbEvents (setupBytes dp drive ++ [((ataBusOf drive).ioBase + 7, command)])) := rfl

theorem setupBytes_ports {dp : AtaDp} {drive : BitVec 8} :
    ∀ w ∈ setupBytes dp drive, w.1 ≠ (ataBusOf drive).ioBase + 7 ∧
      channelOf w.1 = some (ataBusOf drive).ioBase := by
  obtain ⟨-, hports⟩ := channelOf_bus drive
  intro w hw
  simp only [setupBytes, List.mem_cons, List.not_mem_nil, or_false] at hw
  rcases hw with rfl | rfl | rfl | rfl | rfl | rfl | rfl | rfl | rfl <;>
    exact ⟨by simp, hports _ (by decide)⟩

/-- The drive register says LBA, and which drive. -/
theorem setupBytes_select (c : AtaChannel) (dp : AtaDp) (drive : BitVec 8) :
    (c.outbs (ataBusOf drive).ioBase (setupBytes dp drive)).select.testBit 6 = true ∧
      (c.outbs (ataBusOf drive).ioBase (setupBytes dp drive)).select / 16 % 2
        = drive.toNat % 2 := by
  have hselect : (c.outbs (ataBusOf drive).ioBase (setupBytes dp drive)).select
      = 0x40 ||| (drive.toNat &&& 1) <<< 4 := by
    simp [setupBytes, AtaChannel.outbs, AtaChannel.outb]
  have hbit : drive.toNat &&& 1 = drive.toNat % 2 := Nat.and_one_is_mod _
  rw [hselect, hbit]
  rcases Nat.mod_two_eq_zero_or_one drive.toNat with h | h
  · rw [h]
    decide
  · rw [h]
    decide

/-- The eleven writes leave a command for the drive that was asked. -/
theorem AtaChannel.pending_setup (c : AtaChannel) (dir : AtaDirection) (dp : AtaDp)
    (drive : BitVec 8) :
    (c.outbs (ataBusOf drive).ioBase
        (setupBytes dp drive ++ [((ataBusOf drive).ioBase + 7, dir.command)])).pending
      = some ⟨dir, drive.toNat % 2, dp.lba.toNat % 2 ^ 48,
          if dp.count = 0 then 65536 else dp.count.toNat⟩ := by
  have hports := @setupBytes_ports dp drive
  obtain ⟨hbit, hdrive⟩ := setupBytes_select c dp drive
  obtain ⟨r', hr⟩ := commands_setup dp drive dir.command [] c.regs
  have hctrl : (ataBusOf drive).ctrlBase ≠ (ataBusOf drive).ioBase + 7 := by
    have hbus := ataBusOf_ports drive
    omega
  have hcommands : commands (ataBusOf drive).ioBase c.regs
        (ataSetup (ataBusOf drive) dp drive dir.command ++ [])
      = [(c.outbs (ataBusOf drive).ioBase (setupBytes dp drive)).regs.decode
          (ataBusOf drive).ioBase dir.command] := by
    rw [List.append_nil, ataSetup_eq, commands_port hctrl,
      outb_other (by have hbus := ataBusOf_ports drive; omega)]
    unfold outbEvents
    rw [List.map_append]
    exact (commands_outbs (fun w hw => (hports w hw).1) _).trans commands_command
  rw [hr] at hcommands
  have hdecode := (List.cons.inj hcommands).1
  have hcommand : AtaDirection.ofCommand dir.command = some dir := by
    cases dir <;> rfl
  unfold outbs at *
  rw [List.foldl_append]
  generalize (setupBytes dp drive).foldl _ c = c' at *
  show (c'.outb _ (_ + 7) dir.command).pending = _
  unfold outb
  rw [if_pos rfl]
  unfold accept
  dsimp only
  rw [hcommand, ← hdecode]
  dsimp only
  rw [if_pos hbit, hdrive]

/-- What comes before the loop. -/
theorem AtaMachine.exec_setup (s : AtaMachine) (dir : AtaDirection) (status : Nat → BitVec 8)
    (dp : AtaDp) (drive : BitVec 8) :
    ∃ c, s.exec (dir.setup status dp drive)
        = some { s with channel := Function.update s.channel (ataBusOf drive).ioBase c } ∧
      c.pending = some ⟨dir, drive.toNat % 2, dp.lba.toNat % 2 ^ 48,
        if dp.count = 0 then 65536 else dp.count.toNat⟩ := by
  obtain ⟨hctrl, hlast⟩ := channelOf_bus drive
  refine ⟨_, ?_, (s.channel (ataBusOf drive).ioBase).pending_setup dir dp drive⟩
  unfold AtaDirection.setup
  rw [exec_append s.exec_seen, ataSetup_eq, exec_cons (step_outb_none hctrl)]
  refine exec_outbs (fun w hw => ?_)
  rcases List.mem_append.mp hw with hw | hw
  · exact (setupBytes_ports w hw).2
  · rw [List.mem_singleton.mp hw]
    exact hlast 7 (Nat.le_refl 7)

end Command

/-! ## The blocks -/

section Blocks

variable {s : AtaMachine} {dir : AtaDirection} {io drive lba left : Nat} {buffer a : Addr}
  {status : Nat → BitVec 8} {fuel n i p : Nat}

/-- The channel has moved on to the next sector. -/
def AtaMachine.afterBlock (s : AtaMachine) (dir : AtaDirection) (io drive lba left : Nat)
    (a : Addr) : AtaMachine :=
  { s.toAtaStore.block dir io drive lba a with
    channel := Function.update s.channel io { s.channel io with
      pending := some ⟨dir, drive, lba + 1, left⟩ } }

theorem AtaMachine.afterBlock_pending (s : AtaMachine) (dir : AtaDirection)
    (io drive lba left : Nat) (a : Addr) :
    ((s.afterBlock dir io drive lba left a).channel io).pending
      = some ⟨dir, drive, lba + 1, left⟩ := by
  show (Function.update s.channel io _ io).pending = _
  rw [Function.update_self]

/-- A block that the command is for. -/
theorem AtaMachine.step_block (h : (s.channel io).pending = some ⟨dir, drive, lba, left + 1⟩) :
    s.step (dir.block io a) = some (s.afterBlock dir io drive lba left a) := by
  have htransfer : s.transfer dir io a 256 = some (s.afterBlock dir io drive lba left a) := by
    unfold transfer
    rw [h]
    dsimp only
    rw [if_pos ⟨rfl, Nat.succ_ne_zero left, rfl⟩, Nat.add_sub_cancel]
    rfl
  cases dir <;> exact htransfer

/-- A loop that polls for DRQ has moved nothing since the last block. -/
theorem ataBlocks_stuck_events {transfer : Nat → AtaEvent}
    (herr : ¬ status (checkAt status p) &&& ataSrErr ≠ 0)
    (hpoll : pollDrq status fuel (checkAt status p + 1) = none) :
    ataBlocks status fuel transfer (n + 1) i p
      = (seen status p (checkAt status p + 1 + fuel), .polling) := by
  unfold checkAt at herr hpoll
  rw [ataBlocks]
  dsimp only
  rw [if_neg herr, hpoll]
  rfl

/-- The loop moves the next sectors one by one, all of them exactly if it is
    finished. -/
theorem AtaMachine.exec_blocks
    (h : (s.channel io).pending = some ⟨dir, drive, lba + i, left⟩) (hleft : n ≤ left) :
    ∃ k s', s.exec (ataBlocks status fuel (fun i => dir.block io (ataBlockAt buffer i)) n i p).1
        = some s' ∧
      s'.toAtaStore = s.toAtaStore.blocks dir io drive lba buffer i k ∧ k ≤ n ∧
      (k = n ↔ ∃ q, (ataBlocks status fuel (fun i => dir.block io (ataBlockAt buffer i)) n i p).2
        = .finished q) := by
  induction n generalizing s i p left with
  | zero => exact ⟨0, s, rfl, rfl, Nat.le_refl 0, iff_of_true rfl ⟨p, rfl⟩⟩
  | succ n ih =>
      have hstop : ∀ q, s.exec (seen status p q) = some s := fun q => s.exec_seen
      by_cases herr : status (checkAt status p) &&& ataSrErr ≠ 0
      · rw [ataBlocks_refused herr]
        refine ⟨0, s, hstop _, rfl, Nat.zero_le _, iff_of_false (Nat.succ_ne_zero n).symm ?_⟩
        rintro ⟨q, hq⟩
        cases hq
      · cases hpoll : pollDrq status fuel (checkAt status p + 1) with
        | none =>
            rw [ataBlocks_stuck_events herr hpoll]
            refine ⟨0, s, hstop _, rfl, Nat.zero_le _, iff_of_false (Nat.succ_ne_zero n).symm ?_⟩
            rintro ⟨q, hq⟩
            cases hq
        | some next =>
            rw [ataBlocks_next herr hpoll]
            -- one sector, and the loop goes on with the next one
            obtain ⟨rest, rfl⟩ := Nat.exists_eq_add_of_le' hleft
            have hblock := step_block (a := ataBlockAt buffer i) h
            have hpending := s.afterBlock_pending dir io drive (lba + i) (rest + n)
              (ataBlockAt buffer i)
            obtain ⟨k, s', hexec, hstore, hk, hiff⟩ :=
              @ih _ (rest + n) (i + 1) next hpending (Nat.le_add_left n rest)
            refine ⟨k + 1, s', ?_, hstore, Nat.succ_le_succ hk, ?_⟩
            · exact (exec_append (hstop next)).trans ((exec_cons hblock).trans hexec)
            · rw [Nat.add_right_cancel_iff]
              exact hiff

end Blocks

/-! ## A call -/

/-- A call with its arguments, and what the device answers. -/
structure AtaRequest where
  dir : AtaDirection
  dp : AtaDp
  buffer : Addr
  drive : BitVec 8
  status : Nat → BitVec 8
  fuel : Nat

def AtaRequest.call (r : AtaRequest) : AtaCall :=
  ataSectors r.dir r.status r.fuel r.dp r.buffer r.drive

/-- The call as an operation on the store, with its first `k` blocks. -/
def AtaStore.request (s : AtaStore) (r : AtaRequest) (k : Nat) : AtaStore :=
  s.blocks r.dir (ataBusOf r.drive).ioBase (r.drive.toNat % 2) (r.dp.lba.toNat % 2 ^ 48) r.buffer
    0 k

section Call

variable {s : AtaMachine} {r : AtaRequest}

/-- The bytes behind the loop move nothing. -/
theorem AtaMachine.exec_after (s : AtaMachine) (dir : AtaDirection) (status : Nat → BitVec 8)
    (drive : BitVec 8) (p : Nat) :
    ∃ s', s.exec (dir.after status (ataBusOf drive).ioBase p) = some s' ∧
      s'.toAtaStore = s.toAtaStore := by
  cases dir with
  | read => exact ⟨s, rfl, rfl⟩
  | write =>
      have hstep := @step_outb s (ataBusOf drive).ioBase _ ataCmdFlushExt
        ((channelOf_bus drive).2 7 (Nat.le_refl 7))
      exact ⟨_, (exec_cons hstep).trans (exec_seen _), rfl⟩

/-- Whatever state the channels were left in, a call moves its first blocks, all
    of them exactly if it returns 0. -/
theorem AtaMachine.exec_call (s : AtaMachine) (r : AtaRequest) :
    ∃ k s', s.exec r.call.events = some s' ∧ s'.toAtaStore = s.toAtaStore.request r k ∧
      k ≤ r.dp.count.toNat ∧ (k = r.dp.count.toNat ↔ r.call.ret = some 0) := by
  obtain ⟨c, hsetup, hpending⟩ := s.exec_setup r.dir r.status r.dp r.drive
  have hleft : r.dp.count.toNat ≤ if r.dp.count = 0 then 65536 else r.dp.count.toNat := by
    have hcount := r.dp.count.isLt
    split <;> omega
  obtain ⟨k, s₁, hblocks, hstore, hk, hiff⟩ := @exec_blocks
    { s with channel := Function.update s.channel (ataBusOf r.drive).ioBase c } r.dir
    (ataBusOf r.drive).ioBase (r.drive.toNat % 2) (r.dp.lba.toNat % 2 ^ 48) _ r.buffer r.status
    r.fuel r.dp.count.toNat 0 (ataWaitReady r.status ataTimeout 0)
    (by dsimp only; rw [Function.update_self]; exact hpending) hleft
  have hloop : s.exec (r.dir.setup r.status r.dp r.drive
      ++ (r.dir.loop r.status r.fuel r.dp r.buffer r.drive).1) = some s₁ :=
    (exec_append hsetup).trans hblocks
  unfold AtaRequest.call
  cases hend : (r.dir.loop r.status r.fuel r.dp r.buffer r.drive).2 with
  | polling =>
      rw [ataSectors_polling hend]
      refine ⟨k, s₁, hloop, hstore, hk, iff_of_false (fun hc => ?_) (fun hc => by cases hc)⟩
      obtain ⟨q, hq⟩ := hiff.mp hc
      cases hend.symm.trans hq
  | failed =>
      rw [ataSectors_failed hend]
      refine ⟨k, s₁, hloop, hstore, hk, iff_of_false (fun hc => ?_) (fun hc => by cases hc)⟩
      obtain ⟨q, hq⟩ := hiff.mp hc
      cases hend.symm.trans hq
  | finished p =>
      obtain ⟨s₂, hafter, hsame⟩ := s₁.exec_after r.dir r.status r.drive p
      rw [ataSectors_finished hend]
      refine ⟨k, s₂, ?_, hsame.trans hstore, hk, iff_of_true (hiff.mpr ⟨p, hend⟩) rfl⟩
      dsimp only
      rw [← List.append_assoc]
      exact (exec_append hloop).trans hafter

end Call

/-! ## Runs -/

/-- The processor changes memory, or calls the driver. -/
inductive DiskAct where
  | work (mem : Mem)
  | call (r : AtaRequest)

def AtaMachine.act (s : AtaMachine) : DiskAct → Option AtaMachine
  | .work mem => some { s with mem := mem }
  | .call r => s.exec r.call.events

def AtaMachine.run (s : AtaMachine) (as : List DiskAct) : Option AtaMachine :=
  as.foldlM AtaMachine.act s

/-- The same on the store, a call with some number of blocks. -/
def AtaStore.act (s : AtaStore) : DiskAct × Nat → AtaStore
  | (.work mem, _) => { s with mem := mem }
  | (.call r, k) => s.request r k

/-- The numbers of blocks are those of calls that return what they return. -/
def DiskAct.Moves : DiskAct × Nat → Prop
  | (.work _, _) => True
  | (.call r, k) => k ≤ r.dp.count.toNat ∧ (k = r.dp.count.toNat ↔ r.call.ret = some 0)

/-! ### Sectors -/

section Sector

variable {s : AtaStore} {io drive lba i k j o : Nat} {buffer : Addr}

theorem ataBlockAt_eq (hi : i < 2 ^ 16) :
    ataBlockAt buffer i = buffer + BitVec.ofNat 64 (512 * i) := by
  unfold ataBlockAt
  rw [Nat.mod_eq_of_lt (by omega), Nat.mul_comm]

/-- Reading leaves the disks, and writing leaves memory. -/
theorem AtaStore.blocks_disk : (s.blocks .read io drive lba buffer i k).disk = s.disk := by
  induction k generalizing s i with
  | zero => rfl
  | succ k ih => exact ih

/-- A sector that is not one of those that are written. -/
theorem AtaStore.blocks_disk_ne {io' drive' n : Nat}
    (h : ¬ (io' = io ∧ drive' = drive ∧ ∃ j, i ≤ j ∧ j < i + k ∧ n = lba + j)) :
    (s.blocks .write io drive lba buffer i k).disk io' drive' n = s.disk io' drive' n := by
  induction k generalizing s i with
  | zero => rfl
  | succ k ih =>
      have hfirst : ¬ (io' = io ∧ drive' = drive ∧ n = lba + i) := by
        rintro ⟨hio, hdrive, hn⟩
        exact h ⟨hio, hdrive, i, Nat.le_refl i, by omega, hn⟩
      have hrest : ¬ (io' = io ∧ drive' = drive ∧
          ∃ j, i + 1 ≤ j ∧ j < i + 1 + k ∧ n = lba + j) := by
        rintro ⟨hio, hdrive, j, hlo, hhi, hn⟩
        exact h ⟨hio, hdrive, j, by omega, by omega, hn⟩
      refine (ih hrest).trans ?_
      funext o
      exact if_neg hfirst

/-- A sector that is written has the bytes of its block. -/
theorem AtaStore.blocks_disk_eq (hlo : i ≤ j) (hhi : j < i + k) :
    (s.blocks .write io drive lba buffer i k).disk io drive (lba + j) o
      = s.mem (ataBlockAt buffer j + BitVec.ofNat 64 o) := by
  induction k generalizing s i with
  | zero => omega
  | succ k ih =>
      rcases Nat.eq_or_lt_of_le hlo with rfl | hlt
      · -- the later blocks are other sectors
        have hlater : ¬ (io = io ∧ drive = drive ∧
            ∃ j, i + 1 ≤ j ∧ j < i + 1 + k ∧ lba + i = lba + j) := by
          rintro ⟨-, -, j, hlo, -, hn⟩
          omega
        show ((s.block .write io drive (lba + i) _).blocks .write io drive lba buffer
          (i + 1) k).disk io drive (lba + i) o = _
        rw [AtaStore.blocks_disk_ne hlater]
        exact if_pos ⟨rfl, rfl, rfl⟩
      · exact ih hlt (by omega)

/-- Bytes out of the blocks stay. -/
theorem AtaStore.blocks_read_apart {p : Addr}
    (h : ∀ j, i ≤ j → j < i + k → ¬ Range.Has ⟨ataBlockAt buffer j, 512⟩ p) :
    (s.blocks .read io drive lba buffer i k).mem p = s.mem p := by
  induction k generalizing s i with
  | zero => rfl
  | succ k ih =>
      refine (ih (fun j hlo hhi => h j (by omega) (by omega))).trans ?_
      exact if_neg (h i (Nat.le_refl i) (by omega))

/-- A byte of a block that is read is that of its sector. -/
theorem AtaStore.blocks_read (hlo : i ≤ j) (hhi : j < i + k) (hk : i + k ≤ 2 ^ 16) (ho : o < 512) :
    (s.blocks .read io drive lba buffer i k).mem (ataBlockAt buffer j + BitVec.ofNat 64 o)
      = s.disk io drive (lba + j) o := by
  induction k generalizing s i with
  | zero => omega
  | succ k ih =>
      rcases Nat.eq_or_lt_of_le hlo with rfl | hlt
      · have hplace :
            (ataBlockAt buffer i + BitVec.ofNat 64 o - ataBlockAt buffer i).toNat = o := by
          bv_omega
        -- the later blocks are behind this one
        have hlater : ∀ j, i + 1 ≤ j → j < i + 1 + k →
            ¬ Range.Has ⟨ataBlockAt buffer j, 512⟩ (ataBlockAt buffer i + BitVec.ofNat 64 o) := by
          intro j hlo hhi hc
          rw [ataBlockAt_eq (by omega), ataBlockAt_eq (by omega)] at hc
          unfold Range.Has at hc
          dsimp only at hc
          bv_omega
        show ((s.block .read io drive (lba + i) _).blocks .read io drive lba buffer (i + 1) k).mem
          _ = _
        rw [AtaStore.blocks_read_apart hlater]
        show (if _ < 512 then _ else _) = _
        rw [hplace, if_pos ho]
      · exact ih hlt (by omega) (by omega)

end Sector

section Runs

variable {s : AtaMachine}

/-- One step of a run. -/
theorem AtaMachine.act_store (s : AtaMachine) (a : DiskAct) :
    ∃ k s', s.act a = some s' ∧ s'.toAtaStore = s.toAtaStore.act (a, k) ∧ DiskAct.Moves (a, k) := by
  cases a with
  | work mem => exact ⟨0, { s with mem := mem }, rfl, rfl, trivial⟩
  | call r =>
      obtain ⟨k, s', hexec, hstore, hk⟩ := s.exec_call r
      exact ⟨k, s', hexec, hstore, hk⟩

/-- From any state of the channels, in every run of calls on any drives, with
    whatever the devices answer and whatever the processor does to memory in
    between: no word is transferred that the devices were not told of, and disks
    and memory are at the end what the operations on the store make of them, with
    all blocks of each call that returns 0 and fewer of the others. -/
theorem ata_runs_refine (s : AtaMachine) (as : List DiskAct) :
    ∃ s' ks, s.run as = some s' ∧ ks.length = as.length ∧
      s'.toAtaStore = (as.zip ks).foldl AtaStore.act s.toAtaStore ∧
      ∀ x ∈ as.zip ks, DiskAct.Moves x := by
  induction as generalizing s with
  | nil => exact ⟨s, [], rfl, rfl, rfl, fun x hx => absurd hx List.not_mem_nil⟩
  | cons a as ih =>
      obtain ⟨k, s₁, hact, hstore, hmoves⟩ := s.act_store a
      obtain ⟨s', ks, hrun, hlen, hfold, hall⟩ := ih s₁
      refine ⟨s', k :: ks, ?_, congrArg Nat.succ hlen, ?_, fun x hx => ?_⟩
      · unfold AtaMachine.run at hrun ⊢
        rw [List.foldlM_cons, hact]
        exact hrun
      · rw [hfold, hstore]
        rfl
      · rcases List.mem_cons.mp hx with rfl | hx
        · exact hmoves
        · exact hall x hx

/-- The drives by the lower two bits of their number. -/
theorem ataBusOf_mod (drive : BitVec 8) : ataBusOf drive = ataBuses (drive.toNat / 2 % 2) := by
  unfold ataBusOf
  congr 1
  rw [Int.shiftRight_eq_div_pow]
  omega

theorem ataBusOf_iff {d d' : BitVec 8} :
    (ataBusOf d).ioBase = (ataBusOf d').ioBase ∧ d.toNat % 2 = d'.toNat % 2 ↔
      d.toNat % 4 = d'.toNat % 4 := by
  have hbase : ∀ bus < 2, ∀ bus' < 2,
      ((ataBuses bus).ioBase = (ataBuses bus').ioBase ↔ bus = bus') := by
    decide
  rw [ataBusOf_mod, ataBusOf_mod, hbase _ (Nat.mod_lt _ (by decide)) _ (Nat.mod_lt _ (by decide))]
  omega

/-- A call writes to the `n`-th sector of a drive. -/
def AtaRequest.Writes (r : AtaRequest) (drive : BitVec 8) (n : Nat) : Prop :=
  r.dir = .write ∧ r.drive.toNat % 4 = drive.toNat % 4 ∧
    ∃ i, i < r.dp.count.toNat ∧ n = r.dp.lba.toNat % 2 ^ 48 + i

/-- A sector that a run does not write to stays. -/
theorem AtaMachine.run_sector {as : List DiskAct} {drive : BitVec 8} {n : Nat}
    (h : ∀ r, DiskAct.call r ∈ as → ¬ r.Writes drive n) (s : AtaMachine) :
    ∃ s', s.run as = some s' ∧
      s'.disk (ataBusOf drive).ioBase (drive.toNat % 2) n
        = s.disk (ataBusOf drive).ioBase (drive.toNat % 2) n := by
  induction as generalizing s with
  | nil => exact ⟨s, rfl, rfl⟩
  | cons a as ih =>
      obtain ⟨k, s₁, hact, hstore, hmoves⟩ := s.act_store a
      obtain ⟨s', hrun, hsector⟩ := ih (fun r hr => h r (List.mem_cons_of_mem a hr)) s₁
      refine ⟨s', ?_, hsector.trans ?_⟩
      · unfold AtaMachine.run at hrun ⊢
        rw [List.foldlM_cons, hact]
        exact hrun
      · rw [hstore]
        cases a with
        | work mem => rfl
        | call r =>
            have hcall := h r List.mem_cons_self
            obtain ⟨dir, dp, buffer, drive', status, fuel⟩ := r
            cases dir with
            | read => exact congrFun (congrFun (congrFun AtaStore.blocks_disk _) _) _
            | write =>
                refine AtaStore.blocks_disk_ne ?_
                rintro ⟨hio, hdrive, j, -, hj, hn⟩
                have hjk : j < k := by omega
                exact hcall ⟨rfl, (ataBusOf_iff.mp ⟨hio, hdrive⟩).symm, j,
                  Nat.lt_of_lt_of_le hjk hmoves.1, hn⟩

/-- A sector that a call has written, and returned 0, is read back by every later
    call that returns 0, at its place in the buffer, as long as no call writes to
    it: whatever else is read and written on the same drive and the others,
    whatever status bytes the channels show, and whatever happens to memory.  The
    channels move the words of every command (`AtaMachine.transfer`). -/
theorem ata_sector_stays {w r : AtaRequest} {mid : List DiskAct} (hw : w.dir = .write)
    (hr : r.dir = .read) (hwritten : w.call.ret = some 0) (hread : r.call.ret = some 0)
    (hdrive : w.drive.toNat % 4 = r.drive.toNat % 4) {i j : Nat} (hi : i < w.dp.count.toNat)
    (hj : j < r.dp.count.toNat)
    (hsame : w.dp.lba.toNat % 2 ^ 48 + i = r.dp.lba.toNat % 2 ^ 48 + j)
    (hmid : ∀ x, DiskAct.call x ∈ mid → ¬ x.Writes w.drive (w.dp.lba.toNat % 2 ^ 48 + i))
    (s : AtaMachine) :
    ∃ s', s.run (.call w :: mid ++ [.call r]) = some s' ∧ ∀ o, o < 512 →
      s'.mem (r.buffer + BitVec.ofNat 64 (512 * j) + BitVec.ofNat 64 o)
        = s.mem (w.buffer + BitVec.ofNat 64 (512 * i) + BitVec.ofNat 64 o) := by
  obtain ⟨k, s₁, hexec₁, hstore₁, -, hk⟩ := s.exec_call w
  have hk := hk.mpr hwritten
  obtain ⟨s₂, hrun₂, hsector⟩ := AtaMachine.run_sector hmid s₁
  obtain ⟨k', s₃, hexec₃, hstore₃, -, hk'⟩ := s₂.exec_call r
  have hk' := hk'.mpr hread
  obtain ⟨hbus, hdev⟩ := ataBusOf_iff.mpr hdrive
  refine ⟨s₃, ?_, fun o ho => ?_⟩
  · unfold AtaMachine.run at hrun₂ ⊢
    rw [List.cons_append, List.foldlM_cons]
    show (s.exec w.call.events).bind _ = _
    rw [hexec₁]
    show (List.foldlM AtaMachine.act s₁ (mid ++ [.call r])) = _
    rw [List.foldlM_append, hrun₂]
    show (s₂.exec r.call.events).bind _ = _
    rw [hexec₃]
    rfl
  · have hcount := r.dp.count.isLt
    have hcount' := w.dp.count.isLt
    have hmem : s₃.mem = (s₂.toAtaStore.request r k').mem := congrArg AtaStore.mem hstore₃
    have hdisk : s₁.disk = (s.toAtaStore.request w k).disk := congrArg AtaStore.disk hstore₁
    rw [hmem, ← ataBlockAt_eq (show j < 2 ^ 16 by omega),
      ← ataBlockAt_eq (show i < 2 ^ 16 by omega)]
    unfold AtaStore.request at hdisk ⊢
    rw [hr, AtaStore.blocks_read (Nat.zero_le j) (by omega) (by omega) ho, ← hsame, ← hbus, ← hdev,
      hsector, hdisk, hw]
    exact AtaStore.blocks_disk_eq (Nat.zero_le i) (by omega)

theorem readyDevice_succeeds (r : AtaRequest) (hstatus : r.status = readyDevice)
    (hfuel : r.fuel = 1) : r.call.ret = some 0 := by
  obtain ⟨dir, dp, buffer, drive, status, fuel⟩ := r
  obtain rfl : status = readyDevice := hstatus
  obtain rfl : fuel = 1 := hfuel
  obtain ⟨p, hp⟩ := readyDevice_finishes
    (fun i => dir.block (ataBusOf drive).ioBase (ataBlockAt buffer i)) dp.count.toNat 0
    (ataWaitReady readyDevice ataTimeout 0)
  exact congrArg AtaCall.ret (ataSectors_finished (p := p) hp)

/-- Sectors 5 and 6 of a drive are written, then sector 6 of the other one, and
    memory is cleared.  Sectors 4 to 6 are read to another place. -/
def writeTwo : AtaRequest := ⟨.write, ⟨5, 2⟩, 0x1000, 0x80, readyDevice, 1⟩
def writeOther : AtaRequest := ⟨.write, ⟨6, 1⟩, 0x2000, 0x81, readyDevice, 1⟩
def readThree : AtaRequest := ⟨.read, ⟨4, 3⟩, 0x8000, 0x80, readyDevice, 1⟩

/-- Empty disks, and registers as they are after a reset. -/
def resetDisks : AtaMachine where
  mem p := p.setWidth 8
  disk _ _ _ _ := 0
  channel _ := ⟨⟨fun _ => 0, fun _ => 0⟩, 0, none⟩

theorem ata_sector_stays_two : ∃ s',
    resetDisks.run [.call writeTwo, .work (fun _ => 0), .call writeOther, .call readThree]
        = some s' ∧
      ∀ o, o < 512 → s'.mem (0x8000 + BitVec.ofNat 64 (512 * 2) + BitVec.ofNat 64 o)
        = resetDisks.mem (0x1000 + BitVec.ofNat 64 (512 * 1) + BitVec.ofNat 64 o) := by
  have hmid : ∀ x, DiskAct.call x ∈ [.work (fun _ => 0), .call writeOther] →
      ¬ x.Writes writeTwo.drive (writeTwo.dp.lba.toNat % 2 ^ 48 + 1) := by
    intro x hx hwrites
    rcases List.mem_cons.mp hx with hx | hx
    · cases hx
    · obtain rfl := DiskAct.call.inj (List.mem_singleton.mp hx)
      exact absurd hwrites.2.1 (by decide)
  exact ata_sector_stays (w := writeTwo) (r := readThree) (i := 1) (j := 2) rfl rfl
    (readyDevice_succeeds _ rfl rfl) (readyDevice_succeeds _ rfl rfl) rfl (by decide) (by decide)
    rfl hmid resetDisks

end Runs

end Pfi
