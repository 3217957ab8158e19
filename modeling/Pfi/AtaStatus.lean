import Pfi.Ata

/-! # What a successful ATA call has seen

    Three status bytes decide about a block: the one that ends the wait for a
    ready device, the next one, in which only ERR is looked at, and the one that
    ends the poll for DRQ, in which only DRQ is looked at.  So a fault that comes
    up after the second byte goes unnoticed, and so does a device fault (DF) at
    any time, a device that is still busy after the timeout, and whatever the
    status says after the flush.

    The loop is followed block by block on the stream.  `Fails` says that some
    block is refused, and `Calm` that each block is started on a byte without
    BSY, DF and ERR; by induction on the blocks they are how the loop ends
    (`ataBlocks_failed`) and whether all its transfers are guarded
    (`ataBlocks_guarded_iff`).  A call that comes back does what it should
    exactly if it is refused, or everything is calm (`ata_success_iff`). -/

namespace Pfi

open ByteStore

/-! ## Status bytes -/

/-- Not busy, no device fault and no error. -/
def AtaQuiet (b : BitVec 8) : Prop :=
  b &&& ataSrBsy = 0 ∧ b &&& ataSrErr = 0 ∧ b &&& ataSrDf = 0

instance (b : BitVec 8) : Decidable (AtaQuiet b) := inferInstanceAs (Decidable (_ ∧ _))

/-- Each transfer comes right after a status byte that is quiet and has DRQ.
    `last` is that byte, if one was read since the last access to another
    port. -/
def Guarded : (last : Option (BitVec 8)) → List AtaEvent → Prop
  | _, [] => True
  | _, .status b :: es => Guarded (some b) es
  | _, .outb _ _ :: es => Guarded none es
  | last, .insw _ _ _ :: es =>
      (∃ b, last = some b ∧ AtaQuiet b ∧ b &&& ataSrDrq ≠ 0) ∧ Guarded none es
  | last, .outsw _ _ _ :: es =>
      (∃ b, last = some b ∧ AtaQuiet b ∧ b &&& ataSrDrq ≠ 0) ∧ Guarded none es

/-- The flush is followed by status bytes of which the last one is quiet. -/
def FlushSeen (io : Nat) (es : List AtaEvent) : Prop :=
  ∃ before polled b, es = before ++ .outb (io + 7) ataCmdFlushExt :: (polled ++ [.status b]) ∧
    (∀ e ∈ polled, ∃ b', e = .status b') ∧ AtaQuiet b

/-- Success means that all was well, and otherwise the call stops with -1 where
    it sees an error. -/
structure SuccessMeansSuccess (dir : AtaDirection) (io : Nat) (call : AtaCall) : Prop where
  guarded : call.ret = some 0 → Guarded none call.events
  flushed : call.ret = some 0 → dir = .write → FlushSeen io call.events
  stopped : call.ret ≠ some 0 → call.ret = some (-1) ∧
    ∃ before b, call.events = before ++ [.status b] ∧ b &&& ataSrErr ≠ 0

/-! ## The stream -/

/-- `d` is the first position from `q` on with DRQ. -/
def FirstDrq (status : Nat → BitVec 8) (q d : Nat) : Prop :=
  q ≤ d ∧ status d &&& ataSrDrq ≠ 0 ∧ ∀ k, q ≤ k → k < d → status k &&& ataSrDrq = 0

/-- The position of the byte in which ERR is looked at. -/
def checkAt (status : Nat → BitVec 8) (p : Nat) : Nat := ataWaitReady status ataTimeout p

/-- From `p` on, one of `n` blocks is refused. -/
def Fails (status : Nat → BitVec 8) : (n p : Nat) → Prop
  | 0, _ => False
  | n + 1, p => status (checkAt status p) &&& ataSrErr ≠ 0 ∨
      ∃ d, FirstDrq status (checkAt status p + 1) d ∧ Fails status n (d + 1)

/-- From `p` on, each of `n` blocks is started on a quiet byte, and `after` holds
    behind them. -/
def Calm (status : Nat → BitVec 8) (after : Nat → Prop) : (n p : Nat) → Prop
  | 0, p => after p
  | n + 1, p => ∃ d, FirstDrq status (checkAt status p + 1) d ∧ AtaQuiet (status d) ∧
      Calm status after n (d + 1)

/-- The last byte of the wait after the flush is quiet. -/
def CalmFlush (status : Nat → BitVec 8) (dir : AtaDirection) (p : Nat) : Prop :=
  dir = .write → AtaQuiet (status (ataWaitReady status ataTimeout p - 1))

section Stream

variable {status : Nat → BitVec 8} {fuel n i p p' q d d' : Nat}
  {transfer : Nat → AtaEvent} {last : Option (BitVec 8)} {es : List AtaEvent}

/-- There is one first status with the bit. -/
theorem FirstDrq.unique (h : FirstDrq status q d) (h' : FirstDrq status q d') : d = d' := by
  obtain ⟨hq, hdrq, hbefore⟩ := h
  obtain ⟨hq', hdrq', hbefore'⟩ := h'
  rcases Nat.lt_trichotomy d d' with hlt | heq | hlt
  · exact absurd (hbefore' d hq hlt) hdrq
  · exact heq
  · exact absurd (hbefore d' hq' hlt) hdrq'

/-- The poll ends on the first byte with DRQ. -/
theorem pollDrq_first (h : pollDrq status fuel q = some p') :
    ∃ d, FirstDrq status q d ∧ p' = d + 1 := by
  induction fuel generalizing q with
  | zero => cases h
  | succ fuel ih =>
      unfold pollDrq at h
      by_cases hdrq : status q &&& ataSrDrq ≠ 0
      · rw [if_pos hdrq] at h
        injection h with h
        exact ⟨q, ⟨Nat.le_refl q, hdrq, fun k hk hk' => absurd hk' (Nat.not_lt.mpr hk)⟩, h.symm⟩
      · rw [if_neg hdrq] at h
        obtain ⟨d, ⟨hle, hd, hbefore⟩, rfl⟩ := ih h
        refine ⟨d, ⟨Nat.le_of_succ_le hle, hd, fun k hk hk' => ?_⟩, rfl⟩
        rcases Nat.eq_or_lt_of_le hk with rfl | hlt
        · exact Decidable.not_not.mp hdrq
        · exact hbefore k hlt hk'

/-- The wait reads on. -/
theorem ataWaitReady_le (timeout : Nat) : p ≤ ataWaitReady status timeout p := by
  induction timeout generalizing p with
  | zero => exact Nat.le_refl p
  | succ timeout ih =>
      unfold ataWaitReady
      split
      · exact Nat.le_succ p
      · exact Nat.le_of_succ_le ih

/-- At least one byte is read. -/
theorem ataWaitReady_lt (status : Nat → BitVec 8) (p : Nat) :
    p < ataWaitReady status ataTimeout p := by
  unfold ataTimeout ataWaitReady
  split
  · exact Nat.lt_succ_self p
  · exact ataWaitReady_le _

/-! ## Guards -/

/-- One more status is read. -/
theorem seen_succ (h : p ≤ q) :
    seen status p (q + 1) = seen status p q ++ [.status (status q)] := by
  unfold seen
  rw [Nat.succ_sub h, List.range'_concat, List.map_append, Nat.one_mul, Nat.add_sub_cancel' h]
  rfl

/-- After some status bytes the last one counts. -/
theorem guarded_seen (h : p ≤ q) :
    Guarded last (seen status p (q + 1) ++ es) ↔ Guarded (some (status q)) es := by
  rw [seen_succ h, List.append_assoc]
  unfold seen
  generalize List.range' p (q - p) = ks
  induction ks generalizing last with
  | nil => exact Iff.rfl
  | cons k ks ih => exact ih

/-- An event is a transfer. -/
def IsTransfer (e : AtaEvent) : Prop := ∀ last es,
  Guarded last (e :: es) ↔ (∃ b, last = some b ∧ AtaQuiet b ∧ b &&& ataSrDrq ≠ 0) ∧ Guarded none es

/-- A block is a transfer. -/
theorem block_isTransfer (dir : AtaDirection) (io : Nat) (a : Addr) :
    IsTransfer (dir.block io a) := by
  cases dir with
  | read => exact fun last es => Iff.rfl
  | write => exact fun last es => Iff.rfl

/-! ## The loop -/

/-- One block that is not refused and gets its data. -/
theorem ataBlocks_next (herr : ¬ status (checkAt status p) &&& ataSrErr ≠ 0)
    (hpoll : pollDrq status fuel (checkAt status p + 1) = some p') :
    ataBlocks status fuel transfer (n + 1) i p
      = (seen status p p' ++ transfer i :: (ataBlocks status fuel transfer n (i + 1) p').1,
          (ataBlocks status fuel transfer n (i + 1) p').2) := by
  unfold checkAt at herr hpoll
  rw [ataBlocks]
  dsimp only
  rw [if_neg herr, hpoll]

/-- A status with ERR ends the loop. -/
theorem ataBlocks_refused (herr : status (checkAt status p) &&& ataSrErr ≠ 0) :
    ataBlocks status fuel transfer (n + 1) i p
      = (seen status p (checkAt status p + 1), .failed) := by
  unfold checkAt at herr
  rw [ataBlocks]
  dsimp only
  rw [if_pos herr]
  rfl

/-- A device that never asks for data keeps the loop polling. -/
theorem ataBlocks_stuck (herr : ¬ status (checkAt status p) &&& ataSrErr ≠ 0)
    (hpoll : pollDrq status fuel (checkAt status p + 1) = none) :
    (ataBlocks status fuel transfer (n + 1) i p).2 = .polling := by
  unfold checkAt at herr hpoll
  rw [ataBlocks]
  dsimp only
  rw [if_neg herr, hpoll]

/-- A loop that fails stops on a byte with ERR. -/
theorem ataBlocks_failed (h : (ataBlocks status fuel transfer n i p).2 = .failed) :
    Fails status n p ∧ ∃ before b, (ataBlocks status fuel transfer n i p).1
      = before ++ [.status b] ∧ b &&& ataSrErr ≠ 0 := by
  induction n generalizing i p with
  | zero => cases h
  | succ n ih =>
      by_cases herr : status (checkAt status p) &&& ataSrErr ≠ 0
      · rw [ataBlocks_refused herr]
        exact ⟨Or.inl herr, _, _, seen_succ (Nat.le_of_lt (ataWaitReady_lt status p)), herr⟩
      · cases hpoll : pollDrq status fuel (checkAt status p + 1) with
        | none =>
            rw [ataBlocks_stuck herr hpoll] at h
            cases h
        | some p' =>
            rw [ataBlocks_next herr hpoll] at h ⊢
            obtain ⟨d, hd, rfl⟩ := pollDrq_first hpoll
            obtain ⟨hfails, before, b, hlast, hb⟩ := ih h
            refine ⟨Or.inr ⟨d, hd, hfails⟩,
              seen status p (d + 1) ++ transfer i :: before, b, ?_, hb⟩
            rw [hlast, List.append_assoc, List.cons_append]

/-- A loop that is finished has refused no block, and its transfers are guarded
    when each is started on a quiet byte. -/
theorem ataBlocks_guarded_iff (after : Nat → Prop) (htransfer : ∀ i, IsTransfer (transfer i))
    (h : (ataBlocks status fuel transfer n i p).2 = .finished p') (last : Option (BitVec 8))
    (es : List AtaEvent) (hes : ∀ last, Guarded last es) :
    ¬ Fails status n p ∧
      (Calm status after n p ↔
        Guarded last ((ataBlocks status fuel transfer n i p).1 ++ es) ∧ after p') := by
  induction n generalizing i p last with
  | zero =>
      injection h with h
      subst h
      exact ⟨fun hf => hf, ⟨fun ha => ⟨hes last, ha⟩, fun ha => ha.2⟩⟩
  | succ n ih =>
      by_cases herr : status (checkAt status p) &&& ataSrErr ≠ 0
      · rw [ataBlocks_refused herr] at h
        cases h
      · cases hpoll : pollDrq status fuel (checkAt status p + 1) with
        | none =>
            rw [ataBlocks_stuck herr hpoll] at h
            cases h
        | some next =>
            rw [ataBlocks_next herr hpoll] at h ⊢
            obtain ⟨d, hd, rfl⟩ := pollDrq_first hpoll
            obtain ⟨hfails, hcalm⟩ := ih h none
            have hle : p ≤ d :=
              Nat.le_trans (Nat.le_succ_of_le (Nat.le_of_lt (ataWaitReady_lt status p))) hd.1
            refine ⟨?_, ?_⟩
            · rintro (hc | ⟨d', hd', hc⟩)
              · exact herr hc
              · rw [hd'.unique hd] at hc
                exact hfails hc
            · dsimp only
              rw [List.append_assoc, List.cons_append, guarded_seen hle, htransfer]
              constructor
              · rintro ⟨d', hd', hquiet, hrest⟩
                rw [hd'.unique hd] at hquiet hrest
                obtain ⟨hguarded, hafter⟩ := hcalm.mp hrest
                exact ⟨⟨⟨_, rfl, hquiet, hd.2.1⟩, hguarded⟩, hafter⟩
              · rintro ⟨⟨⟨b, hb, hquiet, -⟩, hguarded⟩, hafter⟩
                injection hb with hb
                rw [← hb] at hquiet
                exact ⟨d, hd, hquiet, hcalm.mpr ⟨hguarded, hafter⟩⟩

end Stream

/-! ## A call -/

section Call

variable {dir : AtaDirection} {status : Nat → BitVec 8} {fuel : Nat} {dp : AtaDp} {buffer : Addr}
  {drive : BitVec 8} {io p : Nat} {es : List AtaEvent}

/-- What comes before the loop transfers nothing. -/
theorem guarded_setup :
    Guarded none (dir.setup status dp drive ++ es) ↔ Guarded none es := by
  obtain ⟨q, hq⟩ := Nat.exists_eq_add_of_lt (ataWaitReady_lt status 0)
  unfold AtaDirection.setup
  rw [hq, List.append_assoc, guarded_seen (Nat.zero_le _)]
  exact Iff.rfl

/-- Nor does what comes after it. -/
theorem guarded_after (last : Option (BitVec 8)) : Guarded last (dir.after status io p) := by
  cases dir with
  | read => trivial
  | write =>
      obtain ⟨q, hq⟩ := Nat.exists_eq_add_of_lt (ataWaitReady_lt status p)
      show Guarded none (seen status p (ataWaitReady status ataTimeout p))
      rw [hq, ← List.append_nil (seen _ _ _), guarded_seen (Nat.le_add_right p q)]
      trivial

/-- The byte that ends the wait after the flush is the last one. -/
theorem flushSeen_iff (before : List AtaEvent) (hdir : dir = .write) :
    FlushSeen io (before ++ dir.after status io p) ↔
      AtaQuiet (status (ataWaitReady status ataTimeout p - 1)) := by
  subst hdir
  obtain ⟨q, hq⟩ := Nat.exists_eq_add_of_lt (ataWaitReady_lt status p)
  have hafter : AtaDirection.after .write status io p
      = .outb (io + 7) ataCmdFlushExt :: (seen status p (p + q) ++ [.status (status (p + q))]) := by
    unfold AtaDirection.after
    rw [hq, seen_succ (Nat.le_add_right p q)]
  rw [hafter, hq, Nat.add_sub_cancel]
  constructor
  · rintro ⟨before', polled, b, heq, -, hquiet⟩
    have hlast := congrArg List.getLast? heq
    simp only [List.getLast?_append, List.getLast?_cons,
      Option.some_or, Option.getD_some] at hlast
    injection hlast with hlast
    injection hlast with hlast
    rw [hlast]
    exact hquiet
  · intro hquiet
    refine ⟨before, _, _, rfl, fun e he => ?_, hquiet⟩
    obtain ⟨k, -, rfl⟩ := List.mem_map.mp he
    exact ⟨_, rfl⟩

/-- A call that comes back keeps its promise exactly if some block is refused, or
    if each block is started on a byte without BSY, DF and ERR and the wait after
    the flush ends on one. -/
theorem ata_success_iff (dir : AtaDirection) (status : Nat → BitVec 8) (fuel : Nat) (dp : AtaDp)
    (buffer : Addr) (drive : BitVec 8)
    (hends : (ataSectors dir status fuel dp buffer drive).ret ≠ none) :
    SuccessMeansSuccess dir (ataBusOf drive).ioBase (ataSectors dir status fuel dp buffer drive) ↔
      Fails status dp.count.toNat (checkAt status 0) ∨
        Calm status (CalmFlush status dir) dp.count.toNat (checkAt status 0) := by
  cases hend : (dir.loop status fuel dp buffer drive).2 with
  | polling =>
      rw [ataSectors_polling hend] at hends
      exact absurd rfl hends
  | failed =>
      rw [ataSectors_failed hend]
      obtain ⟨hfails, before, b, hlast, hb⟩ := ataBlocks_failed hend
      refine ⟨fun _ => Or.inl hfails, fun _ => ⟨fun hz => ?_, fun hz => ?_, fun _ => ⟨rfl, ?_⟩⟩⟩
      · exact absurd (Option.some.inj hz) (by decide)
      · exact absurd (Option.some.inj hz) (by decide)
      · refine ⟨dir.setup status dp drive ++ before, b, ?_, hb⟩
        rw [List.append_assoc, ← hlast]
        rfl
  | finished p =>
      rw [ataSectors_finished hend]
      obtain ⟨hfails, hcalm⟩ := ataBlocks_guarded_iff (CalmFlush status dir)
        (fun i => block_isTransfer dir _ _) hend none
        (dir.after status (ataBusOf drive).ioBase p) guarded_after
      have hnone : ¬ Fails status dp.count.toNat (checkAt status 0) := hfails
      rw [or_iff_right hnone]
      refine Iff.trans ?_ hcalm.symm
      constructor
      · intro h
        refine ⟨guarded_setup.mp (h.guarded rfl), fun hdir => ?_⟩
        have hflushed := h.flushed rfl hdir
        dsimp only at hflushed
        rw [← List.append_assoc] at hflushed
        exact (flushSeen_iff _ hdir).mp hflushed
      · rintro ⟨hguarded, hquiet⟩
        refine ⟨fun _ => guarded_setup.mpr hguarded, fun _ hdir => ?_, fun hne => absurd rfl hne⟩
        dsimp only
        rw [← List.append_assoc]
        exact (flushSeen_iff _ hdir).mpr (hquiet hdir)

theorem ata_success_one :
    SuccessMeansSuccess .write 0x1F0 (ataSectors .write readyDevice 1 ⟨0, 2⟩ 0 0x80) := by
  have hdrq : (ataSrDrdy ||| ataSrDrq) &&& ataSrDrq ≠ 0 := by decide
  have hquiet : AtaQuiet (ataSrDrdy ||| ataSrDrq) := by decide
  have hfirst : ∀ q, FirstDrq readyDevice q q :=
    fun q => ⟨Nat.le_refl q, hdrq, fun k hk hk' => absurd hk' (Nat.not_lt.mpr hk)⟩
  have hcalm : Calm readyDevice (CalmFlush readyDevice .write) 2 (checkAt readyDevice 0) :=
    ⟨_, hfirst _, hquiet, _, hfirst _, hquiet, fun _ => hquiet⟩
  exact (ata_success_iff .write readyDevice 1 ⟨0, 2⟩ 0 0x80
    (readyDevice_returns .write ⟨0, 2⟩ 0 0x80)).mpr (Or.inr hcalm)

/-- A device fault that is there all the time. -/
def faultyDevice : Nat → BitVec 8 := fun _ => ataSrDrdy ||| ataSrDf ||| ataSrDrq

theorem ata_fault_unseen :
    (ataSectors .read faultyDevice 1 ⟨0, 1⟩ 0 0x80).ret = some 0 ∧
      ¬ SuccessMeansSuccess .read 0x1F0 (ataSectors .read faultyDevice 1 ⟨0, 1⟩ 0 0x80) := by
  have herr : ¬ (ataSrDrdy ||| ataSrDf ||| ataSrDrq) &&& ataSrErr ≠ 0 := by decide
  have hdrq : (ataSrDrdy ||| ataSrDf ||| ataSrDrq) &&& ataSrDrq ≠ 0 := by decide
  have hfault : ¬ AtaQuiet (ataSrDrdy ||| ataSrDf ||| ataSrDrq) := by decide
  have hpoll : ∀ q, pollDrq faultyDevice 1 q = some (q + 1) := fun q => if_pos hdrq
  have hend : (AtaDirection.loop .read faultyDevice 1 ⟨0, 1⟩ 0 0x80).2
      = .finished (checkAt faultyDevice (checkAt faultyDevice 0) + 1 + 1) := by
    unfold AtaDirection.loop
    exact congrArg Prod.snd (ataBlocks_next (n := 0) herr (hpoll _))
  have hret := ataSectors_finished hend
  rw [hret]
  refine ⟨rfl, fun h => ?_⟩
  have hguarded := guarded_setup.mp (h.guarded rfl)
  obtain ⟨-, hcalm⟩ := ataBlocks_guarded_iff (fun _ => True)
    (fun i => block_isTransfer .read _ _) hend none _ guarded_after
  obtain ⟨d, -, hquiet, -⟩ := hcalm.mpr ⟨hguarded, trivial⟩
  exact hfault hquiet

end Call

end Pfi
