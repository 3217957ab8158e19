import Pfi.ApBoot

/-! # A boot in which every core checks in

    The handshake of `smp_init` with the started cores is safe as long as the
    cores read the mailbox on time, which is a condition on the cores.  Two
    conditions on the BSP alone imply it: no wait for `ap_boot_flag` ends
    before the flag is set, and no core is started twice, which happens when
    an APIC id is listed twice.

    Under them at most one core is on its way at any time, the one that the
    BSP waits for, and the mailbox is written for that core; all others are
    off or have set the flag.  This is `CalmOk`, and from it the cores act on
    time (`CalmOk.apOnTime`), and a core that has been registered is online
    when `smp_init` goes on to the next one (`CalmOk.online`). -/

namespace Pfi

open Run

/-! ## The conditions -/

/-- The interrupt goes to a core that is off, and the wait ends with the flag
    set. -/
def Boot.Calm (apicIds : List Nat) (s : Boot) : BootAct → Prop
  | .bsp b =>
      (s.pc = .sendIpi → s.aps (apicIds.getD s.i 0) = .off) ∧
        (s.pc = .spin → b = true → s.apBootFlag ≠ none)
  | .ap _ _ => True

instance decidableCalm (apicIds : List Nat) (s : Boot) :
    (act : BootAct) → Decidable (s.Calm apicIds act)
  | .bsp b =>
      inferInstanceAs (Decidable ((s.pc = .sendIpi → s.aps (apicIds.getD s.i 0) = .off) ∧
        (s.pc = .spin → b = true → s.apBootFlag ≠ none)))
  | .ap _ _ => isTrue trivial

/-! ## The invariant -/

/-- The BSP waits for the core that it has started. -/
def Boot.Waits (s : Boot) : Prop := s.pc = .checkFlag ∨ s.pc = .spin

/-- Both words of the mailbox are those of the core that is booted. -/
def Boot.Mailed (s : Boot) : Prop := s.mail510For = some s.i ∧ s.mail520For = some s.i

/-- What the BSP has prepared for the core that it boots: the flag is clear
    until that core is started. -/
def Boot.Prepared (s : Boot) : BspPc → Prop
  | .allocStack => s.apBootFlag = none
  | .allocState _ => s.apBootFlag = none
  | .allocIdle _ _ => s.apBootFlag = none
  | .mailStack cs => s.apBootFlag = none ∧ cs.coreIdx = s.i
  | .mailState cs => s.apBootFlag = none ∧ cs.coreIdx = s.i ∧ s.mail510For = some s.i
  | .register cs => s.apBootFlag = none ∧ cs.coreIdx = s.i ∧ s.Mailed
  | .sendIpi => s.apBootFlag = none ∧ s.Mailed
  | .checkFlag => s.Mailed
  | .spin => s.Mailed
  | _ => True

/-- A core is off, has set the flag, or is the one that the BSP waits for. -/
def Boot.Settled (s : Boot) (pc : ApPc) : Prop :=
  pc = .off ∨ (∃ r, pc = .online r) ∨ (s.Waits ∧ s.apBootFlag = none ∧ pc.index = some s.i)

structure CalmOk (apicIds : List Nat) (s : Boot) : Prop extends BootOk apicIds s where
  prepared : s.Prepared s.pc
  settled : ∀ a, s.Settled (s.aps a)
  started : ∀ i cs a, s.cores i = some cs → apicIds[i]? = some a →
    ¬ (s.pc = .sendIpi ∧ i = s.i) → (s.aps a).index = some i
  coreIdx : ∀ i cs, s.cores i = some cs → cs.coreIdx = i
  listed : ∀ i cs, s.cores i = some cs → ∃ a, apicIds[i]? = some a

section Calm

variable {apicIds : List Nat} {s : Boot}

theorem calmOk_init : CalmOk apicIds {} := by
  refine { bootOk_init with
    prepared := trivial, settled := ?_, started := ?_, coreIdx := ?_, listed := ?_ }
  · intro a
    exact Or.inl rfl
  · intro i cs a hcs
    cases hcs
  · intro i cs hcs
    cases hcs
  · intro i cs hcs
    cases hcs

/-- The heap moves on. -/
theorem CalmOk.grow (h : CalmOk apicIds s) {n : Nat} (hn : s.heapKernel ≤ n) :
    CalmOk apicIds { s with heapKernel := n } :=
  { h.toBootOk.grow hn with
    prepared := h.prepared, settled := h.settled, started := h.started, coreIdx := h.coreIdx
    listed := h.listed }

theorem Boot.not_waits {pc : BspPc} (hpc : s.pc = pc) (hcheck : pc ≠ .checkFlag)
    (hspin : pc ≠ .spin) : ¬ s.Waits := by
  rintro (hw | hw)
  · exact hcheck (hpc.symm.trans hw)
  · exact hspin (hpc.symm.trans hw)

/-- While no core is awaited, each is off or online. -/
theorem CalmOk.at_rest (h : CalmOk apicIds s) (hwaits : ¬ s.Waits) (a : Nat) :
    s.aps a = .off ∨ ∃ r, s.aps a = .online r := by
  rcases h.settled a with hoff | hon | ⟨hw, -⟩
  · exact Or.inl hoff
  · exact Or.inr hon
  · exact absurd hw hwaits

/-- A registered core is online when none is awaited. -/
theorem CalmOk.online (h : CalmOk apicIds s) (hwaits : ¬ s.Waits) (hpc : s.pc ≠ .sendIpi)
    {i a : Nat} {cs : CoreState} (hcs : s.cores i = some cs) (ha : apicIds[i]? = some a) :
    ∃ r, s.aps a = .online r ∧ r.index = i := by
  have hindex := h.started i cs a hcs ha (fun hc => hpc hc.1)
  rcases h.at_rest hwaits a with hoff | ⟨r, hr⟩
  · rw [hoff] at hindex
    cases hindex
  · rw [hr] at hindex
    exact ⟨r, hr, Option.some.inj hindex⟩

/-- While a core is awaited, the mailbox is that core's. -/
theorem CalmOk.mailed (h : CalmOk apicIds s) (hw : s.Waits) : s.Mailed := by
  have hprep := h.prepared
  rcases hw with hpc | hpc
  · rw [hpc] at hprep
    exact hprep
  · rw [hpc] at hprep
    exact hprep

/-- The core that is awaited finds its own words in the mailbox. -/
theorem CalmOk.apOnTime (h : CalmOk apicIds s) (a : Nat) : s.ApOnTime (s.aps a) := by
  rcases h.settled a with hoff | ⟨r, hr⟩ | ⟨hw, -, hindex⟩
  · rw [hoff]
    trivial
  · rw [hr]
    trivial
  · cases hpc : s.aps a with
    | off => trivial
    | trampoline i =>
        rw [hpc] at hindex
        exact (h.mailed hw).1.trans hindex.symm
    | entry i rsp =>
        rw [hpc] at hindex
        exact (h.mailed hw).1.trans hindex.symm
    | readCore i rsp kernelStack =>
        rw [hpc] at hindex
        exact (h.mailed hw).2.trans hindex.symm
    | allocEmergency r => trivial
    | allocMemoryEmergency r => trivial
    | setFlag r =>
        rw [hpc] at hindex
        refine Or.inr (Eq.trans ?_ hindex.symm)
        rcases hw with hbsp | hbsp
        · rw [Boot.booting, hbsp]
        · rw [Boot.booting, hbsp]
    | online r => trivial

/-! ## The steps of the BSP -/

/-- A step of the BSP that neither registers a core nor starts one, when none
    is awaited. -/
theorem CalmOk.quiet (h : CalmOk apicIds s) {s' : Boot} (hok : BootOk apicIds s')
    (hwaits : ¬ s.Waits) (hpc : s.pc ≠ .sendIpi) (haps : s'.aps = s.aps)
    (hcores : s'.cores = s.cores) (hprep : s'.Prepared s'.pc) : CalmOk apicIds s' := by
  refine { hok with
    prepared := hprep, settled := ?_, started := ?_, coreIdx := ?_, listed := ?_ }
  · intro a
    rw [haps]
    rcases h.at_rest hwaits a with hoff | hon
    · exact Or.inl hoff
    · exact Or.inr (Or.inl hon)
  · intro i cs a hcs ha _
    rw [hcores] at hcs
    rw [haps]
    exact h.started i cs a hcs ha (fun hc => hpc hc.1)
  · intro i cs hcs
    rw [hcores] at hcs
    exact h.coreIdx i cs hcs
  · intro i cs hcs
    rw [hcores] at hcs
    exact h.listed i cs hcs

/-- Only two steps of the BSP touch the cores or their table. -/
theorem Boot.bsp_frame (bspApicId : Nat) (b : Bool) (hregister : ∀ cs, s.pc ≠ .register cs)
    (hipi : s.pc ≠ .sendIpi) :
    (s.bsp apicIds bspApicId b).aps = s.aps ∧ (s.bsp apicIds bspApicId b).cores = s.cores := by
  cases halloc : s.allocates apicIds s.pc with
  | some next =>
      obtain ⟨n, -, hstep | ⟨hstep, -⟩⟩ := Boot.bsp_alloc bspApicId b halloc
      · rw [hstep]
        exact ⟨rfl, rfl⟩
      · rw [hstep]
        exact ⟨rfl, rfl⟩
  | none =>
      unfold Boot.bsp
      cases hpc : s.pc with
      | next =>
          cases hid : apicIds[s.i]? with
          | none => exact ⟨rfl, rfl⟩
          | some id =>
              dsimp only
              split
              · exact ⟨rfl, rfl⟩
              · exact ⟨rfl, rfl⟩
      | clearFlag => exact ⟨rfl, rfl⟩
      | mailStack cs => exact ⟨rfl, rfl⟩
      | mailState cs => exact ⟨rfl, rfl⟩
      | register cs => exact absurd hpc (hregister cs)
      | sendIpi => exact absurd hpc hipi
      | checkFlag =>
          dsimp only
          split
          · exact ⟨rfl, rfl⟩
          · exact ⟨rfl, rfl⟩
      | spin =>
          dsimp only
          split
          · exact ⟨rfl, rfl⟩
          · exact ⟨rfl, rfl⟩
      | report =>
          cases s.apBootFlag with
          | none => exact ⟨rfl, rfl⟩
          | some a => exact ⟨rfl, rfl⟩
      | done => exact ⟨rfl, rfl⟩
      | _ =>
          rw [hpc] at halloc
          cases halloc

/-- A step of the BSP leaves a core where it is, or starts it. -/
theorem Boot.bsp_aps (bspApicId : Nat) (b : Bool) (a : Nat) :
    (s.bsp apicIds bspApicId b).aps a = s.aps a ∨
      ∃ i, (s.bsp apicIds bspApicId b).aps a = .trampoline i := by
  by_cases hipi : s.pc = .sendIpi
  · rw [Boot.bsp, hipi]
    dsimp only
    by_cases ha : a = apicIds.getD s.i 0
    · rw [ha, Function.update_self]
      exact Or.inr ⟨s.i, rfl⟩
    · rw [Function.update_of_ne ha]
      exact Or.inl rfl
  · by_cases hregister : ∃ cs, s.pc = .register cs
    · obtain ⟨cs, hpc⟩ := hregister
      rw [Boot.bsp, hpc]
      exact Or.inl rfl
    · obtain ⟨haps, -⟩ : (s.bsp apicIds bspApicId b).aps = s.aps ∧ _ :=
        s.bsp_frame bspApicId b (fun cs hpc => hregister ⟨cs, hpc⟩) hipi
      rw [haps]
      exact Or.inl rfl

/-- A core that is not being started was there before the step. -/
theorem Boot.aps_of_bsp {bspApicId a : Nat} {b : Bool} {pc : ApPc}
    (h : (s.bsp apicIds bspApicId b).aps a = pc) (hpc : ∀ i, pc ≠ .trampoline i) :
    s.aps a = pc := by
  rcases s.bsp_aps bspApicId b a with hsame | ⟨i, hi⟩
  · exact hsame.symm.trans h
  · exact absurd (h.symm.trans hi) (hpc i)

/-- An allocation leaves the flag alone, and the last one fixes the index. -/
theorem CalmOk.prepare_alloc (h : CalmOk apicIds s) {size : Nat} {pc : Nat → BspPc}
    (halloc : s.allocates apicIds s.pc = some (size, pc)) (n v : Nat) :
    Boot.Prepared { s with heapKernel := n, pc := pc v } (pc v) := by
  have hprep := h.prepared
  cases hpc : s.pc with
  | allocStack =>
      rw [hpc] at hprep halloc
      obtain ⟨-, rfl⟩ := Prod.mk.inj (Option.some.inj halloc)
      exact hprep
  | allocState apStack =>
      rw [hpc] at hprep halloc
      obtain ⟨-, rfl⟩ := Prod.mk.inj (Option.some.inj halloc)
      exact hprep
  | allocIdle apStack apState =>
      rw [hpc] at hprep halloc
      obtain ⟨-, rfl⟩ := Prod.mk.inj (Option.some.inj halloc)
      exact ⟨hprep, rfl⟩
  | _ =>
      rw [hpc] at halloc
      cases halloc

/-- The BSP prepares the next core. -/
theorem CalmOk.prepare (h : CalmOk apicIds s) (bspApicId : Nat) (b : Bool)
    (hwaits : ¬ s.Waits) (hregister : ∀ cs, s.pc ≠ .register cs) (hipi : s.pc ≠ .sendIpi) :
    Boot.Prepared (s.bsp apicIds bspApicId b) (s.bsp apicIds bspApicId b).pc := by
  cases halloc : s.allocates apicIds s.pc with
  | some next =>
      obtain ⟨n, -, hstep | ⟨hstep, -⟩⟩ := Boot.bsp_alloc bspApicId b halloc
      · rw [hstep]
        trivial
      · rw [hstep]
        exact h.prepare_alloc halloc n s.heapKernel
  | none =>
      have hprep := h.prepared
      generalize hs' : s.bsp apicIds bspApicId b = s'
      unfold Boot.bsp at hs'
      -- the other steps touch the mailbox only
      cases hpc : s.pc with
      | next =>
          rw [hpc] at hs'
          cases hid : apicIds[s.i]? with
          | none =>
              simp only [hid] at hs'
              rw [← hs']
              trivial
          | some id =>
              simp only [hid] at hs'
              by_cases hskip : (s.cores s.i).isSome ∨ id = bspApicId
              · rw [if_pos hskip] at hs'
                rw [← hs']
                trivial
              · rw [if_neg hskip] at hs'
                rw [← hs']
                trivial
      | clearFlag =>
          rw [hpc] at hs'
          rw [← hs']
          exact rfl
      | mailStack cs =>
          rw [hpc] at hprep hs'
          rw [← hs']
          exact ⟨hprep.1, hprep.2, rfl⟩
      | mailState cs =>
          rw [hpc] at hprep hs'
          rw [← hs']
          exact ⟨hprep.1, hprep.2.1, hprep.2.2, rfl⟩
      | register cs => exact absurd hpc (hregister cs)
      | sendIpi => exact absurd hpc hipi
      | checkFlag => exact absurd (Or.inl hpc) hwaits
      | spin => exact absurd (Or.inr hpc) hwaits
      | report =>
          rw [hpc] at hs'
          cases hflag : s.apBootFlag with
          | none =>
              simp only [hflag] at hs'
              rw [← hs']
              trivial
          | some a =>
              simp only [hflag] at hs'
              rw [← hs']
              trivial
      | done =>
          rw [hpc] at hs'
          rw [← hs', hpc]
          trivial
      | _ =>
          rw [hpc] at halloc
          cases halloc

/-- A core that is being registered is the next to be started. -/
theorem CalmOk.registered (h : CalmOk apicIds s) {cs : CoreState} (hpc : s.pc = .register cs) :
    CalmOk apicIds
      { s with cores := Function.update s.cores s.i (some cs), pc := .sendIpi } := by
  have hprep := h.prepared
  have hbsp := h.bsp
  rw [hpc] at hprep hbsp
  obtain ⟨hflag, hindex, hmailed⟩ := hprep
  have hrest := h.at_rest (Boot.not_waits hpc BspPc.noConfusion BspPc.noConfusion)
  refine { h.toBootOk.register hpc with
    prepared := ⟨hflag, hmailed⟩, settled := ?_, started := ?_, coreIdx := ?_, listed := ?_ }
  · intro a
    rcases hrest a with hoff | hon
    · exact Or.inl hoff
    · exact Or.inr (Or.inl hon)
  · intro i ct a hct ha hne
    -- the new core is not started yet, and nothing is asked of it
    have hi : i ≠ s.i := fun hi => hne ⟨rfl, hi⟩
    dsimp only at hct
    rw [Function.update_of_ne hi] at hct
    refine h.started i ct a hct ha ?_
    rintro ⟨hipi, -⟩
    rw [hpc] at hipi
    cases hipi
  · intro i ct hct
    dsimp only at hct
    by_cases hi : i = s.i
    · rw [hi, Function.update_self] at hct
      rw [hi, ← hindex, Option.some.inj hct]
    · rw [Function.update_of_ne hi] at hct
      exact h.coreIdx i ct hct
  · intro i ct hct
    dsimp only at hct
    by_cases hi : i = s.i
    · rw [hi]
      exact ⟨_, hbsp.1.2⟩
    · rw [Function.update_of_ne hi] at hct
      exact h.listed i ct hct

/-- The core that is started was off, so it is the only one on its way. -/
theorem CalmOk.sent (h : CalmOk apicIds s) (hpc : s.pc = .sendIpi) (bspApicId : Nat) (b : Bool)
    (hoff : s.aps (apicIds.getD s.i 0) = .off) :
    CalmOk apicIds (s.bsp apicIds bspApicId b) := by
  have hstep : s.bsp apicIds bspApicId b =
      { s with
        aps := Function.update s.aps (apicIds.getD s.i 0) (.trampoline s.i)
        pc := .checkFlag } := by
    rw [Boot.bsp, hpc]
  have hok := h.toBootOk.bspStep bspApicId b
  have hprep := h.prepared
  have hbsp := h.bsp
  rw [hpc] at hprep hbsp
  have hrest := h.at_rest (Boot.not_waits hpc (by decide) (by decide))
  rw [hstep] at hok ⊢
  refine { hok with
    prepared := hprep.2, settled := ?_, started := ?_, coreIdx := h.coreIdx, listed := h.listed }
  · intro a
    dsimp only
    by_cases ha : a = apicIds.getD s.i 0
    · rw [ha, Function.update_self]
      exact Or.inr (Or.inr ⟨Or.inl rfl, hprep.1, rfl⟩)
    · rw [Function.update_of_ne ha]
      rcases hrest a with hoff | hon
      · exact Or.inl hoff
      · exact Or.inr (Or.inl hon)
  · intro i cs a hcs ha _
    dsimp only
    by_cases hi : i = s.i
    · have hid : a = apicIds.getD s.i 0 := by
        rw [hi, hbsp.2] at ha
        exact (Option.some.inj ha).symm
      rw [hid, hi, Function.update_self]
      rfl
    · have hindex := h.started i cs a hcs ha (fun hc => hi hc.2)
      -- a core that was started before is not off
      have hne : a ≠ apicIds.getD s.i 0 := by
        intro hc
        rw [hc, hoff] at hindex
        cases hindex
      rw [Function.update_of_ne hne]
      exact hindex

/-- The BSP goes on waiting, or the flag is set. -/
theorem CalmOk.wait (h : CalmOk apicIds s) {pc : BspPc} (hok : BootOk apicIds { s with pc := pc })
    (hw : s.Waits) (hpc : pc = .spin ∨ (pc = .report ∧ s.apBootFlag ≠ none)) :
    CalmOk apicIds { s with pc := pc } := by
  have hipi : s.pc ≠ .sendIpi := fun hc => Boot.not_waits hc (by decide) (by decide) hw
  refine { hok with
    prepared := ?_, settled := ?_, started := ?_, coreIdx := h.coreIdx, listed := h.listed }
  · rcases hpc with rfl | ⟨rfl, -⟩
    · exact h.mailed hw
    · trivial
  · intro a
    rcases h.settled a with hoff | hon | ⟨-, hflag, hindex⟩
    · exact Or.inl hoff
    · exact Or.inr (Or.inl hon)
    -- a core that is on its way has not set the flag, so the wait goes on
    · rcases hpc with rfl | ⟨-, hset⟩
      · exact Or.inr (Or.inr ⟨Or.inr rfl, hflag, hindex⟩)
      · exact absurd hflag hset
  · intro i cs a hcs ha _
    exact h.started i cs a hcs ha (fun hc => hipi hc.1)

theorem CalmOk.bspStep (h : CalmOk apicIds s) (bspApicId : Nat) {b : Bool}
    (hcalm : s.Calm apicIds (.bsp b)) : CalmOk apicIds (s.bsp apicIds bspApicId b) := by
  have hok := h.toBootOk.bspStep bspApicId b
  by_cases hw : s.Waits
  · have hwait := hw
    rcases hwait with hpc | hpc
    · have hstep : s.bsp apicIds bspApicId b =
          if s.apBootFlag = none then { s with pc := .spin } else { s with pc := .report } := by
        rw [Boot.bsp, hpc]
      rw [hstep] at hok ⊢
      by_cases hflag : s.apBootFlag = none
      · rw [if_pos hflag] at hok ⊢
        exact h.wait hok hw (Or.inl rfl)
      · rw [if_neg hflag] at hok ⊢
        exact h.wait hok hw (Or.inr ⟨rfl, hflag⟩)
    · have hstep : s.bsp apicIds bspApicId b =
          if s.apBootFlag = none ∧ b = false then s else { s with pc := .report } := by
        rw [Boot.bsp, hpc]
      rw [hstep] at hok ⊢
      by_cases hmore : s.apBootFlag = none ∧ b = false
      · rw [if_pos hmore]
        exact h
      · rw [if_neg hmore] at hok ⊢
        refine h.wait hok hw (Or.inr ⟨rfl, ?_⟩)
        intro hflag
        cases b with
        | false => exact hmore ⟨hflag, rfl⟩
        | true => exact hcalm.2 hpc rfl hflag
  · by_cases hipi : s.pc = .sendIpi
    · exact h.sent hipi bspApicId b (hcalm.1 hipi)
    · by_cases hregister : ∃ cs, s.pc = .register cs
      · obtain ⟨cs, hpc⟩ := hregister
        rw [Boot.bsp, hpc]
        exact h.registered hpc
      · have hregister : ∀ cs, s.pc ≠ .register cs := fun cs hpc => hregister ⟨cs, hpc⟩
        obtain ⟨haps, hcores⟩ := Boot.bsp_frame bspApicId b hregister hipi
        exact h.quiet hok hw hipi haps hcores (h.prepare bspApicId b hw hregister hipi)

/-! ## The steps of the cores -/

/-- An AP goes on as the core that it was started as, and only the store to
    the flag touches what the BSP sees. -/
theorem Boot.ap_cases (s : Boot) (a : Nat) (b : Bool) :
    s.ap a b = s ∨ ∃ pc n flag, s.heapKernel ≤ n ∧ pc.index = (s.aps a).index ∧
      s.ap a b
        = { s with
            heapKernel := n, apBootFlag := flag, aps := Function.update s.aps a pc } ∧
      (flag = s.apBootFlag ∨ ∃ r, pc = .online r ∧ flag = some a) := by
  unfold Boot.ap
  cases hpc : s.aps a with
  | off => exact Or.inl rfl
  | trampoline i =>
      exact Or.inr ⟨.entry i s.mail510, _, _, Nat.le_refl _, rfl, rfl, Or.inl rfl⟩
  | entry i rsp =>
      exact Or.inr ⟨.readCore i rsp s.mail510, _, _, Nat.le_refl _, rfl, rfl, Or.inl rfl⟩
  | readCore i rsp kernelStack =>
      exact Or.inr
        ⟨.allocEmergency ⟨i, rsp, kernelStack, s.mail520⟩, _, _, Nat.le_refl _, rfl, rfl,
          Or.inl rfl⟩
  | allocEmergency r =>
      obtain ⟨v, n, halloc, hn, -⟩ := s.avmfAlloc_cases pageSize b
      simp only [halloc]
      exact Or.inr ⟨.allocMemoryEmergency r, n, s.apBootFlag, hn, rfl, rfl, Or.inl rfl⟩
  | allocMemoryEmergency r =>
      obtain ⟨v, n, halloc, hn, -⟩ := s.avmfAlloc_cases pageSize b
      simp only [halloc]
      exact Or.inr ⟨.setFlag r, n, s.apBootFlag, hn, rfl, rfl, Or.inl rfl⟩
  | setFlag r =>
      exact Or.inr ⟨.online r, s.heapKernel, some a, Nat.le_refl _, rfl, rfl, Or.inr ⟨r, rfl, rfl⟩⟩
  | online r => exact Or.inl rfl

/-- The cores need no condition of their own. -/
theorem CalmOk.apStep (h : CalmOk apicIds s) (a : Nat) (b : Bool) : CalmOk apicIds (s.ap a b) := by
  have hok := h.toBootOk.ap (h.apOnTime a) b
  rcases h.settled a with hoff | ⟨r, hr⟩ | ⟨hw, hflag, hindex⟩
  · rw [Boot.ap, hoff]
    exact h
  · rw [Boot.ap, hr]
    exact h
  · rcases s.ap_cases a b with hsame | ⟨pc, n, flag, -, hpc, hstep, hset⟩
    · rw [hsame]
      exact h
    · rw [hstep] at hok ⊢
      refine { hok with
        prepared := ?_, settled := ?_, started := ?_, coreIdx := h.coreIdx, listed := h.listed }
      · have hprep := h.prepared
        dsimp only
        rcases hw with hwait | hwait
        · rw [hwait] at hprep ⊢
          exact hprep
        · rw [hwait] at hprep ⊢
          exact hprep
      · intro c
        dsimp only
        by_cases hc : c = a
        · rw [hc, Function.update_self]
          rcases hset with hkept | ⟨r, hr, -⟩
          · exact Or.inr (Or.inr ⟨hw, hkept.trans hflag, hpc.trans hindex⟩)
          · exact Or.inr (Or.inl ⟨r, hr⟩)
        · rw [Function.update_of_ne hc]
          rcases h.settled c with hoff | hon | ⟨-, -, hother⟩
          · exact Or.inl hoff
          · exact Or.inr (Or.inl hon)
          -- no two cores were started for one index
          · exact absurd rfl (h.toBootOk.index_ne hc hother hindex)
      · intro i cs c hcs hid hne
        dsimp only
        have hstarted := h.started i cs c hcs hid hne
        by_cases hc : c = a
        · rw [hc, Function.update_self, hpc, ← hc]
          exact hstarted
        · rw [Function.update_of_ne hc]
          exact hstarted

theorem CalmOk.step (h : CalmOk apicIds s) (bspApicId : Nat) {act : BootAct}
    (hcalm : s.Calm apicIds act) : CalmOk apicIds (s.step apicIds bspApicId act) := by
  cases act with
  | bsp b =>
      show CalmOk apicIds (s.bsp apicIds bspApicId b)
      exact h.bspStep bspApicId hcalm
  | ap a b => exact h.apStep a b

end Calm

/-! ## Every calm boot -/

/-- When every wait ends with the flag and no core is started twice, the cores
    read the mailbox and set the flag on time. -/
theorem on_time_of_calm {apicIds : List Nat} {bspApicId : Nat} {acts : List BootAct}
    (hcalm : Along (Boot.step apicIds bspApicId) (Boot.Calm apicIds) {} acts) :
    Along (Boot.step apicIds bspApicId) Boot.OnTime {} acts := by
  refine along_of_invariant ?_ ?_ (calmOk_init : CalmOk apicIds {}) hcalm
  · intro s act h _
    cases act with
    | bsp b => trivial
    | ap a b => exact h.apOnTime a
  · intro s act h hok
    exact h.step bspApicId hok

end Pfi
