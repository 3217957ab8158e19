import Pfi.DeviceSearch
import Pfi.ModuleTable

/-! # Binding drivers to devices

    The scan of `pcie_init` looks up a driver for each function in turn, and
    registers it with the function's data unless it is registered already.  A
    turn that registers nothing leaves the registered modules alone, also when
    the registration fails behind the writes; one that does appends a module
    that was not there (`registerBody_cases`).  So every module is there once,
    and its data stays that of the turn that registered it.

    This data describes the function if the function is present, which is not
    looked at, and if the upper halves of the first and the class dword agree,
    since `device_id` is taken from the wrong one of them.  The drivers are
    bound to their devices exactly if every turn that registers one is of this
    kind (`drivers_bound_iff`). -/

namespace Pfi

open Run

/-! ## The scan -/

/-- The state of `pcie.c` and `module.c`. -/
structure BindState where
  bus : ConfigBus
  sys : ModuleSys

/-- The arguments of the lookup. -/
def driverQuery (data classData : Nat) : DriverQuery :=
  { cls := classOf classData
    subclass := subclassOf classData
    useSubclass := 1
    progif := progifOf classData
    useProgif := 1
    revision := revisionOf classData
    useRevision := 1
    vendor := vendorOf data
    useVendor := 1 }

/-- What is written to `m->Modules.driver_module.pcie_device`. -/
def recordedDevice (g : ConfigFunction) (data classData bar0 : Nat) : PcieDevice :=
  { vendorId := vendorOf data
    deviceId := classData >>> 16 &&& 0xFFFF
    classCode := classOf classData
    subclass := subclassOf classData
    progIf := progifOf classData
    bus := g.bus
    slot := g.slot
    func := g.func
    bar0 := bar0 }

def ModuleSys.setDevice (s : ModuleSys) (module : ByteStore.Addr) (device : PcieDevice) :
    ModuleSys :=
  { s with
    module := fun a =>
      if a = module then { s.module a with pcieDevice := device } else s.module a }

/-- The body of the loops, with what `avmf_alloc` answers if it is called. -/
def registerBody (mcfg : Option (List AcpiMcfgEntry)) (replies : ConfigFunction → Option AllocReply)
    (s : BindState) (g : ConfigFunction) : BindState :=
  let data := s.bus.pcieRead mcfg g.bus g.slot g.func 0
  let classData := data.2.pcieRead mcfg g.bus g.slot g.func 0x08
  match moduleGetFirstApplicableDriver s.sys (driverQuery data.1 classData.1) with
  | none => ⟨classData.2, s.sys⟩
  | some m =>
      if (s.sys.module m).type ≠ .driver then ⟨classData.2, s.sys⟩
      else if moduleAlreadyInitialized s.sys m ≠ 0 then ⟨classData.2, s.sys⟩
      else
        let bar0 := classData.2.pcieRead mcfg g.bus g.slot g.func 0x10
        let sys := s.sys.setDevice m (recordedDevice g data.1 classData.1 bar0.1)
        ⟨bar0.2, (moduleRegister sys m (replies g)).2⟩

/-- The three loops, which are there only if there is an MCFG table. -/
def pcieInitScan (entries : List AcpiMcfgEntry) (replies : ConfigFunction → Option AllocReply)
    (s : BindState) : BindState :=
  exec (registerBody (some entries) replies) s pciFunctions

/-! ## Devices -/

/-- The device that a function is. -/
def deviceOf (c : ConfigBus) (mcfg : Option (List AcpiMcfgEntry)) (g : ConfigFunction) :
    PcieDevice :=
  { vendorId := c.config mcfg g 0 &&& 0xFFFF
    deviceId := c.config mcfg g 0 >>> 16 &&& 0xFFFF
    classCode := classOf (c.config mcfg g 0x08)
    subclass := subclassOf (c.config mcfg g 0x08)
    progIf := progifOf (c.config mcfg g 0x08)
    bus := g.bus
    slot := g.slot
    func := g.func
    bar0 := c.config mcfg g 0x10 }

/-- The module's data is that of a present function that it matches. -/
def AosModule.Describes (mod : AosModule) (c : ConfigBus) (mcfg : Option (List AcpiMcfgEntry)) :
    Prop :=
  ∃ g ∈ pciFunctions, vendorOf (c.config mcfg g 0) ≠ 0xFFFF ∧
    mod.Applies (driverQuery (c.config mcfg g 0) (c.config mcfg g 0x08)) ∧
    mod.pcieDevice = deviceOf c mcfg g

structure DriversBound (c : ConfigBus) (mcfg : Option (List AcpiMcfgEntry)) (s : ModuleSys) :
    Prop where
  once : s.elements.Nodup
  described : ∀ m ∈ s.elements, (s.module m).Describes c mcfg

/-- The function's turn registers a module. -/
def RegistersAt (mcfg : Option (List AcpiMcfgEntry)) (replies : ConfigFunction → Option AllocReply)
    (s : BindState) (g : ConfigFunction) : Prop :=
  ∃ m, moduleGetFirstApplicableDriver s.sys
      (driverQuery (s.bus.config mcfg g 0) (s.bus.config mcfg g 0x08)) = some m ∧
    m ∉ s.sys.elements ∧ ¬ (s.sys.Full ∧ replies g = none)

/-- The function is present, and its device id is also the upper half of its
    class dword. -/
def ConfigBus.Bindable (c : ConfigBus) (mcfg : Option (List AcpiMcfgEntry)) (g : ConfigFunction) :
    Prop :=
  vendorOf (c.config mcfg g 0) ≠ 0xFFFF ∧
    c.config mcfg g 0x08 >>> 16 &&& 0xFFFF = c.config mcfg g 0 >>> 16 &&& 0xFFFF

/-! ## One turn -/

section Turn

variable {c : ConfigBus} {mcfg : Option (List AcpiMcfgEntry)}
  {replies : ConfigFunction → Option AllocReply} {s : BindState} {g : ConfigFunction}

theorem moduleAlreadyInitialized_zero (s : ModuleSys) (module : ByteStore.Addr) :
    moduleAlreadyInitialized s module ≠ 0 ↔ module ∈ s.elements := by
  rw [← moduleAlreadyInitialized_iff]
  unfold moduleAlreadyInitialized
  split
  · exact iff_of_true (by decide) rfl
  · exact iff_of_false (by decide) (by decide)

theorem ConfigBus.SameSpace.config {c' : ConfigBus} (h : c.SameSpace c') (g : ConfigFunction)
    (offset : Nat) : c'.config mcfg g offset = c.config mcfg g offset :=
  (h.pcieRead g.bus g.slot g.func offset).1

/-- The registered modules, but for one that comes to them. -/
structure KeepsModules (s s' : ModuleSys) : Prop where
  vector : s'.VectorOk
  same : ∀ a ∈ s.elements, s'.module a = s.module a

/-- A turn registers nothing and keeps what is registered, or it registers one
    more module with what was read. -/
theorem registerBody_cases (hbus : c.SameSpace s.bus) (h : s.sys.VectorOk)
    (hreply : s.sys.ReplyOk (replies g)) :
    let s' := registerBody mcfg replies s g
    c.SameSpace s'.bus ∧ KeepsModules s.sys s'.sys ∧
      ((¬ RegistersAt mcfg replies s g ∧ s'.sys.elements = s.sys.elements) ∨
        (RegistersAt mcfg replies s g ∧ ∃ m, m ∉ s.sys.elements ∧
          s'.sys.elements = s.sys.elements ++ [m] ∧
          (s'.sys.module m).Applies (driverQuery (c.config mcfg g 0) (c.config mcfg g 0x08)) ∧
          (s'.sys.module m).pcieDevice = recordedDevice g (c.config mcfg g 0)
            (c.config mcfg g 0x08) (c.config mcfg g 0x10))) := by
  -- the three reads give what the space holds and leave it
  obtain ⟨hdata, h₁⟩ := @ConfigBus.SameSpace.read c s.bus mcfg hbus g 0
  dsimp only
  unfold RegistersAt
  rw [hbus.config, hbus.config]
  unfold registerBody
  rw [hdata]
  generalize (s.bus.pcieRead mcfg g.bus g.slot g.func 0).2 = c₁ at h₁
  obtain ⟨hclass, h₂⟩ := @ConfigBus.SameSpace.read c c₁ mcfg h₁ g 0x08
  dsimp only
  rw [hclass]
  generalize (c₁.pcieRead mcfg g.bus g.slot g.func 0x08).2 = c₂ at h₂
  dsimp only
  have hkeep : KeepsModules s.sys s.sys := ⟨h, fun a _ => rfl⟩
  cases hfind : moduleGetFirstApplicableDriver s.sys
      (driverQuery (c.config mcfg g 0) (c.config mcfg g 0x08)) with
  | none =>
      refine ⟨h₂, hkeep, Or.inl ⟨?_, rfl⟩⟩
      rintro ⟨m, hm, -⟩
      cases hm
  | some m =>
      have hfound : s.sys.table.find? (fun a => decide ((s.sys.module a).Applies
          (driverQuery (c.config mcfg g 0) (c.config mcfg g 0x08)))) = some m := hfind
      have hpass := List.find?_some hfound
      have happlies := of_decide_eq_true hpass
      dsimp only
      rw [if_neg (not_not_intro happlies.1)]
      -- a module that is in use already is not registered again
      by_cases hinit : moduleAlreadyInitialized s.sys m ≠ 0
      · rw [if_pos hinit]
        refine ⟨h₂, hkeep, Or.inl ⟨?_, rfl⟩⟩
        rintro ⟨m', hm', hnew, -⟩
        rw [← Option.some.inj hm'] at hnew
        exact hnew ((moduleAlreadyInitialized_zero s.sys m).mp hinit)
      · have hnew : m ∉ s.sys.elements :=
          fun hmem => hinit ((moduleAlreadyInitialized_zero s.sys m).mpr hmem)
        obtain ⟨hbar, h₃⟩ := @ConfigBus.SameSpace.read c c₂ mcfg h₂ g 0x10
        rw [if_neg hinit, hbar]
        generalize (c₂.pcieRead mcfg g.bus g.slot g.func 0x10).2 = c₃ at h₃
        dsimp only
        generalize hdevice : recordedDevice g (c.config mcfg g 0) (c.config mcfg g 0x08)
          (c.config mcfg g 0x10) = device
        have hok : (s.sys.setDevice m device).VectorOk := ⟨h.fits, h.null, h.low, h.room⟩
        have hother : ∀ a ∈ s.sys.elements,
            a ≠ m ∧ (s.sys.setDevice m device).module a = s.sys.module a := by
          intro a ha
          have hne : a ≠ m := fun heq => hnew (heq ▸ ha)
          exact ⟨hne, if_neg hne⟩
        -- the vector may be full and not grow
        rcases moduleRegister_cases hok hreply m with
          ⟨hfull, hnone, hres⟩ | ⟨hroom, -, hok', happend, hflag⟩
        · rw [hres]
          refine ⟨h₃, ⟨hok, fun a ha => (hother a ha).2⟩, Or.inl ⟨?_, rfl⟩⟩
          rintro ⟨m', -, -, hc⟩
          exact hc ⟨hfull, hnone⟩
        · have hmodule : (moduleRegister (s.sys.setDevice m device) m (replies g)).2.module m
              = { s.sys.module m with pcieDevice := device, registered := 1 } := by
            rw [hflag.module, if_pos rfl]
            unfold ModuleSys.setDevice
            dsimp only
            rw [if_pos rfl]
          refine ⟨h₃, ⟨hok', fun a ha => ?_⟩, Or.inr ⟨⟨m, rfl, hnew, hroom⟩, m, hnew, happend,
            ?_, ?_⟩⟩
          · obtain ⟨hne, hsame⟩ := hother a ha
            rw [hflag.module, if_neg hne]
            exact hsame
          · rw [hmodule]
            exact happlies
          · rw [hmodule]

/-- One turn: the drivers are bound after it exactly if they were, and a function
    whose turn registers one is bindable. -/
theorem driversBound_step (hg : g ∈ pciFunctions) (hbus : c.SameSpace s.bus)
    (h : s.sys.VectorOk) (hreply : s.sys.ReplyOk (replies g)) :
    DriversBound c mcfg (registerBody mcfg replies s g).sys ↔
      DriversBound c mcfg s.sys ∧ (RegistersAt mcfg replies s g → c.Bindable mcfg g) := by
  obtain ⟨-, hkeep, hcases⟩ := @registerBody_cases c mcfg replies s g hbus h hreply
  -- a turn that registers nothing changes no module
  rcases hcases with ⟨hnone, hsame⟩ | ⟨hreg, m, hnew, happend, happlies, hdevice⟩
  · rw [and_iff_left (fun hreg => absurd hreg hnone)]
    constructor
    · rintro ⟨honce, hdescribed⟩
      rw [hsame] at honce hdescribed
      refine ⟨honce, fun a ha => ?_⟩
      rw [← hkeep.same a ha]
      exact hdescribed a ha
    · rintro ⟨honce, hdescribed⟩
      refine ⟨?_, fun a ha => ?_⟩
      · rw [hsame]
        exact honce
      · rw [hsame] at ha
        rw [hkeep.same a ha]
        exact hdescribed a ha
  · -- the new module's data names the function
    have hnamed : ((registerBody mcfg replies s g).sys.module m).Describes c mcfg ↔
        c.Bindable mcfg g := by
      unfold AosModule.Describes
      rw [hdevice]
      constructor
      · rintro ⟨g', -, hpresent, -, heq⟩
        have hfun : g = g' := by
          cases g
          cases g'
          exact ConfigFunction.mk.injEq .. ▸ ⟨congrArg PcieDevice.bus heq,
            congrArg PcieDevice.slot heq, congrArg PcieDevice.func heq⟩
        subst hfun
        exact ⟨hpresent, congrArg PcieDevice.deviceId heq⟩
      · rintro ⟨hpresent, hid⟩
        refine ⟨g, hg, hpresent, happlies, ?_⟩
        unfold recordedDevice deviceOf
        rw [hid]
        rfl
    constructor
    · rintro ⟨honce, hdescribed⟩
      rw [happend] at honce hdescribed
      refine ⟨⟨(List.nodup_append.mp honce).1, fun a ha => ?_⟩, fun _ => ?_⟩
      · rw [← hkeep.same a ha]
        exact hdescribed a (List.mem_append_left _ ha)
      · exact hnamed.mp (hdescribed m (List.mem_append_right _ (List.mem_singleton.mpr rfl)))
    · rintro ⟨⟨honce, hdescribed⟩, hbind⟩
      refine ⟨?_, fun a ha => ?_⟩
      · rw [happend]
        exact List.nodup_append.mpr ⟨honce, List.nodup_singleton m, fun a ha b hb heq =>
          hnew (by rw [← List.mem_singleton.mp hb, ← heq]; exact ha)⟩
      · rw [happend] at ha
        rcases List.mem_append.mp ha with ha | ha
        · rw [hkeep.same a ha]
          exact hdescribed a ha
        · rw [List.mem_singleton.mp ha]
          exact hnamed.mpr (hbind hreg)

end Turn

/-! ## The whole scan -/

/-- The turns of some functions. -/
theorem driversBound_run {c : ConfigBus} {mcfg : Option (List AcpiMcfgEntry)}
    {replies : ConfigFunction → Option AllocReply} {s : BindState} {gs : List ConfigFunction}
    (hgs : ∀ g ∈ gs, g ∈ pciFunctions) (hbus : c.SameSpace s.bus) (h : s.sys.VectorOk)
    (hreplies : Along (registerBody mcfg replies) (fun s g => s.sys.ReplyOk (replies g)) s gs) :
    DriversBound c mcfg (exec (registerBody mcfg replies) s gs).sys ↔
      DriversBound c mcfg s.sys ∧
        Along (registerBody mcfg replies)
          (fun s g => RegistersAt mcfg replies s g → c.Bindable mcfg g) s gs := by
  induction gs generalizing s with
  | nil => exact (and_iff_left trivial).symm
  | cons g gs ih =>
      obtain ⟨hreply, hrest⟩ := hreplies
      obtain ⟨hbus', hkeep, -⟩ := @registerBody_cases c mcfg replies s g hbus h hreply
      rw [exec_cons,
        ih (fun g' hg' => hgs g' (List.mem_cons_of_mem g hg')) hbus' hkeep.vector hrest,
        driversBound_step (hgs g List.mem_cons_self) hbus h hreply, and_assoc]
      exact Iff.rfl

theorem driversBound_empty {s : ModuleSys} (hcount : s.registeredModuleCount = 0) (c : ConfigBus)
    (mcfg : Option (List AcpiMcfgEntry)) : DriversBound c mcfg s := by
  have hempty := ModuleSys.elements_empty hcount
  refine ⟨?_, fun m hm => ?_⟩
  · rw [hempty]
    exact List.nodup_nil
  · rw [hempty] at hm
    exact absurd hm List.not_mem_nil

/-- After the scan every registered module is there once, with the data of a
    present function that it matches, exactly if each function whose turn
    registers a module is present and has its device id in its class dword
    too. -/
theorem drivers_bound_iff (entries : List AcpiMcfgEntry)
    (replies : ConfigFunction → Option AllocReply) (s : BindState)
    (hnull : s.sys.registeredModules = 0) (hcount : s.sys.registeredModuleCount = 0)
    (hcap : s.sys.registeredModuleCap = 0)
    (hreplies : Along (registerBody (some entries) replies)
      (fun s g => s.sys.ReplyOk (replies g)) s pciFunctions) :
    DriversBound s.bus (some entries) (pcieInitScan entries replies s).sys ↔
      Along (registerBody (some entries) replies)
        (fun t g => RegistersAt (some entries) replies t g → s.bus.Bindable (some entries) g)
        s pciFunctions := by
  unfold pcieInitScan
  rw [driversBound_run (fun g hg => hg) ⟨rfl, rfl⟩ (ModuleSys.vectorOk_empty hnull hcount hcap)
    hreplies]
  exact and_iff_right (driversBound_empty hcount _ _)

section Examples

/-- Every function of the bus has these configuration bytes. -/
def uniformBus (bytes : Nat → BitVec 8) : ConfigBus :=
  { space := fun b => bytes b.reg
    window := fun _ => ⟨0, 0, 0, 0⟩ }

/-- A block for the first call, and no memory after that. -/
def oneReply (g : ConfigFunction) : Option AllocReply :=
  if g = ⟨0, 0, 0⟩ then some ⟨0x10000, fun _ => 0, fun _ => 0⟩ else none

theorem uniformBus_config (bytes : Nat → BitVec 8) {g : ConfigFunction} (hg : g ∈ pciFunctions)
    {offset : Nat} (hoffset : offset < 256) :
    (uniformBus bytes).config (some []) g offset
      = (uniformBus bytes).loadBytes (dwordBytes 0 0 0 (offset / 4 * 4)) := by
  have hports : (uniformBus bytes).config (some []) g offset
      = (uniformBus bytes).config none g offset := rfl
  rw [hports, ConfigBus.config_ports hg hoffset]
  rfl

theorem exists_pciFunctions : ∃ gs, pciFunctions = ⟨0, 0, 0⟩ :: gs ∧
    ∀ g ∈ gs, g ≠ (⟨0, 0, 0⟩ : ConfigFunction) := by
  obtain ⟨gs, hgs⟩ : ∃ gs, pciFunctions = ⟨0, 0, 0⟩ :: gs := ⟨pciFunctions.tail, rfl⟩
  refine ⟨gs, hgs, fun g hg heq => ?_⟩
  have hsorted := pciFunctions_sorted
  rw [hgs] at hsorted
  have hbefore := (List.pairwise_cons.mp hsorted).1 g hg
  rw [heq] at hbefore
  exact ConfigFunction.Before.asymm _ _ hbefore hbefore

theorem oneReply_ok (c : ConfigBus) :
    Along (registerBody (some []) oneReply) (fun s g => s.sys.ReplyOk (oneReply g))
      ⟨c, oneModule⟩ pciFunctions := by
  obtain ⟨gs, hgs, hother⟩ := exists_pciFunctions
  rw [hgs]
  refine ⟨?_, along_of_forall (fun g hg s => ?_)⟩
  · rintro r - ⟨⟩
    have hend : (0x10000 : ByteStore.Addr).toNat + oneModule.asked ≤ 2 ^ 64 := by decide
    exact ⟨by decide, hend, fun p _ hp => Nat.not_lt_zero _ hp⟩
  · rintro r - hr
    unfold oneReply at hr
    rw [if_neg (hother g hg)] at hr
    cases hr

/-- Vendor 0x8086, and class 0x01 with subclass 0x06. -/
def ahciBytes (deviceId : BitVec 16) (reg : Nat) : BitVec 8 :=
  if reg = 0 then 0x86
  else if reg = 1 then 0x80
  else if reg = 2 then deviceId.setWidth 8
  else if reg = 3 then (deviceId >>> 8).setWidth 8
  else if reg = 0x0A then 0x06
  else if reg = 0x0B then 0x01
  else 0

/-- Device id 0x0106. -/
theorem drivers_bound_same_id :
    DriversBound (uniformBus (ahciBytes 0x0106)) (some [])
      (pcieInitScan [] oneReply ⟨uniformBus (ahciBytes 0x0106), oneModule⟩).sys := by
  refine (drivers_bound_iff [] oneReply ⟨uniformBus (ahciBytes 0x0106), oneModule⟩ rfl rfl rfl
    (oneReply_ok _)).mpr (along_of_forall (fun g hg s _ => ?_))
  unfold ConfigBus.Bindable
  dsimp only
  rw [uniformBus_config _ hg (by decide), uniformBus_config _ hg (by decide)]
  exact ⟨by decide, by decide⟩

/-- Device id 0x2922. -/
theorem drivers_bound_class_id :
    ¬ DriversBound (uniformBus (ahciBytes 0x2922)) (some [])
      (pcieInitScan [] oneReply ⟨uniformBus (ahciBytes 0x2922), oneModule⟩).sys := by
  intro h
  obtain ⟨-, halong⟩ := (@driversBound_run _ _ oneReply
    ⟨uniformBus (ahciBytes 0x2922), oneModule⟩ _ (fun g hg => hg) ⟨rfl, rfl⟩
    (ModuleSys.vectorOk_empty rfl rfl rfl) (oneReply_ok _)).mp h
  obtain ⟨gs, hgs, -⟩ := exists_pciFunctions
  rw [hgs] at halong
  have hregisters : RegistersAt (some []) oneReply ⟨uniformBus (ahciBytes 0x2922), oneModule⟩
      ⟨0, 0, 0⟩ := by
    refine ⟨0x2000, ?_, List.not_mem_nil, fun hc => absurd hc.2 (by decide)⟩
    decide +kernel
  have hid := (halong.1 hregisters).2
  exact absurd hid (by decide +kernel)

end Examples

end Pfi
