import Pfi.Builtins
import Pfi.HeapLinks

/-! # Registered modules

    `module_register` appends a pointer to a vector: an array from `avmf_alloc`
    with a count and a capacity.  A full vector moves to a new block with room
    for 16 more, and the old block is freed; if `avmf_alloc` fails, nothing has
    been changed yet.

    The array is followed in memory.  The new block does not meet the old one,
    so the copy takes the elements over as they are (`elements_grown`), and
    because a block lies above the first page the product of the element size
    and the capacity never wraps.  One call either fails and changes nothing or
    appends its module (`moduleRegister_cases`); so after any calls the array
    holds the modules of those that succeeded, in their order
    (`registered_modules_faithful`). -/

namespace Pfi

open ByteStore StringOps Words Run

/-! ## Modules -/

/-- `enum AOS_ModuleTypes` -/
inductive AosModuleType where
  | driver
  | executableRuntime
deriving DecidableEq

/-- `pcie_device_t` -/
structure PcieDevice where
  vendorId : Nat
  deviceId : Nat
  classCode : Nat
  subclass : Nat
  progIf : Nat
  bus : Nat
  slot : Nat
  func : Nat
  bar0 : Nat
deriving DecidableEq

/-- `struct AOS_Module`, as far as it is looked at. -/
structure AosModule where
  type : AosModuleType
  registered : Nat
  targetClass : Nat
  targetSubclass : Nat
  targetProgifclass : Nat
  targetUseProgifclass : Nat
  targetRevision : Nat
  targetUseRevision : Nat
  targetVendor : Nat
  targetUseVendor : Nat
  pcieDevice : PcieDevice
deriving DecidableEq

/-- The arguments of the lookup functions. -/
structure DriverQuery where
  cls : Nat
  subclass : Nat
  useSubclass : Nat
  progif : Nat
  useProgif : Nat
  revision : Nat
  useRevision : Nat
  vendor : Nat
  useVendor : Nat

/-- The tests of the loops. -/
def AosModule.Applies (mod : AosModule) (q : DriverQuery) : Prop :=
  mod.type = .driver ∧ mod.targetClass = q.cls ∧
    ¬ (q.useSubclass = 1 ∧ mod.targetSubclass ≠ q.subclass) ∧
    ¬ (q.useProgif = 1 ∧ mod.targetUseProgifclass = 1 ∧ mod.targetProgifclass ≠ q.progif) ∧
    ¬ (q.useRevision = 1 ∧ mod.targetUseRevision = 1 ∧ mod.targetRevision ≠ q.revision) ∧
    ¬ (q.useVendor = 1 ∧ mod.targetUseVendor = 1 ∧ mod.targetVendor ≠ q.vendor)

instance (mod : AosModule) (q : DriverQuery) : Decidable (mod.Applies q) :=
  inferInstanceAs (Decidable (_ ∧ _))

/-! ## The state of `module.c` -/

structure ModuleSys where
  mem : Mem
  /-- The structure at an address. -/
  module : Addr → AosModule
  modules : Addr
  moduleCount : Nat
  registeredModules : Addr := 0
  registeredModuleCount : Nat := 0
  registeredModuleCap : Nat := 0

/-- `sizeof(struct AOS_Module)` -/
abbrev sizeofAosModule : Nat := 72

/-- `&modules[i]`, for all modules of the table. -/
def ModuleSys.table (s : ModuleSys) : List Addr :=
  (List.range s.moduleCount).map (fun i => s.modules + BitVec.ofNat 64 (sizeofAosModule * i))

/-- `&registered_modules[i]` -/
def ModuleSys.elementAt (s : ModuleSys) (i : Nat) : Addr :=
  s.registeredModules + BitVec.ofNat 64 (8 * i)

/-- The modules that the array holds. -/
def ModuleSys.elements (s : ModuleSys) : List Addr :=
  words s.mem s.registeredModules s.registeredModuleCount

def moduleGetFirstApplicableDriver (s : ModuleSys) (q : DriverQuery) : Option Addr :=
  s.table.find? (fun a => decide ((s.module a).Applies q))

def moduleGetFirstApplicableRegisteredDriver (s : ModuleSys) (q : DriverQuery) : Option Addr :=
  s.elements.find? (fun a => decide ((s.module a).Applies q))

def moduleAlreadyInitialized (s : ModuleSys) (module : Addr) : Nat :=
  if s.elements.any (fun a => decide (a = module)) = true then 1 else 0

/-! ## Registering -/

/-- What `avmf_alloc` answers: a block, and what is read in it and, later, where
    the freed block was. -/
structure AllocReply where
  base : Addr
  fresh : Mem
  left : Mem

/-- Other memory comes to be in a range. -/
def overlay (m : Mem) (r : Range) (m' : Mem) : Mem := fun p => if r.Has p then m' p else m p

theorem overlay_other {m m' : Mem} {r : Range} {p : Addr} (h : ¬ r.Has p) :
    overlay m r m' p = m p := if_neg h

/-- `!registered_modules || registered_module_count >= registered_module_cap` -/
def ModuleSys.Full (s : ModuleSys) : Prop :=
  s.registeredModules = 0 ∨ s.registeredModuleCap ≤ s.registeredModuleCount

instance (s : ModuleSys) : Decidable s.Full := inferInstanceAs (Decidable (_ ∨ _))

/-- The size that is asked for. -/
def ModuleSys.asked (s : ModuleSys) : Nat := mul64 8 (add64 s.registeredModuleCap 16)

/-- The block of the array. -/
def ModuleSys.block (s : ModuleSys) : Range := ⟨s.registeredModules, 8 * s.registeredModuleCap⟩

/-- The vector in its new block. -/
def ModuleSys.grown (s : ModuleSys) (r : AllocReply) : ModuleSys :=
  let m := overlay s.mem ⟨r.base, s.asked⟩ r.fresh
  let m := if s.registeredModules = 0 then m
    else overlay (memcpyTo m r.base s.registeredModules
      (BitVec.ofNat 64 (mul64 8 s.registeredModuleCount))) s.block r.left
  { s with
    mem := m
    registeredModules := r.base
    registeredModuleCap := add64 s.registeredModuleCap 16 }

/-- `registered_modules[registered_module_count++] = module` and the flag. -/
def ModuleSys.append (s : ModuleSys) (module : Addr) : ModuleSys :=
  { s with
    mem := store64 s.mem (s.elementAt s.registeredModuleCount) module
    registeredModuleCount := add64 s.registeredModuleCount 1
    module := fun a => if a = module then { s.module a with registered := 1 } else s.module a }

/-- `module_register`, with the answer of `avmf_alloc`. -/
def moduleRegister (s : ModuleSys) (module : Addr) (reply : Option AllocReply) : Nat × ModuleSys :=
  if s.Full then
    match reply with
    | none => (0, s)
    | some r => (1, (s.grown r).append module)
  else (1, s.append module)

/-- What `avmf_alloc` promises: the block is above the first page, does not wrap
    and does not meet the block of the array. -/
def ModuleSys.ReplyOk (s : ModuleSys) (reply : Option AllocReply) : Prop :=
  ∀ r, s.Full → reply = some r →
    4096 ≤ r.base.toNat ∧ r.base.toNat + s.asked ≤ 2 ^ 64 ∧ Range.Apart ⟨r.base, s.asked⟩ s.block

/-- Two blocks that are live in the memory system, one of them with the array. -/
theorem ModuleSys.replyOk_of_live {s : ModuleSys} {t : Sys} {r : AllocReply} {new : Block}
    (h : t.Ok) (hnew : new ∈ t.live) (hbase : r.base.toNat = new.virt) (hsize : s.asked ≤ new.size)
    (hold : s.registeredModuleCap = 0 ∨ ∃ old ∈ t.live, old.virt ≠ new.virt ∧
      s.registeredModules.toNat = old.virt ∧ 8 * s.registeredModuleCap ≤ old.size) :
    s.ReplyOk (some r) := by
  rintro r' - ⟨⟩
  obtain ⟨-, hend, hne, -⟩ := h.block hnew
  have hpage := (h.agrees.placed new hnew).virtPage
  refine ⟨by omega, by omega, ?_⟩
  rcases hold with hcap | ⟨old, hmem, hother, hptr, hcap⟩
  · intro p _ hp
    unfold Range.Has ModuleSys.block at hp
    dsimp only at hp
    rw [hcap] at hp
    exact Nat.not_lt_zero _ hp
  · have hapart := h.owned.blocks_apart hnew hmem hother
    have hend' := (h.block hmem).2.1
    unfold Apart at hapart
    by_cases hbelow : new.virt + new.size ≤ old.virt
    · refine apart_of_le ?_ ?_
      · show r.base.toNat + s.asked ≤ s.registeredModules.toNat
        omega
      · show s.registeredModules.toNat + 8 * s.registeredModuleCap ≤ 2 ^ 64
        omega
    · refine (apart_of_le ?_ ?_).symm
      · show s.registeredModules.toNat + 8 * s.registeredModuleCap ≤ r.base.toNat
        omega
      · show r.base.toNat + s.asked ≤ 2 ^ 64
        omega

/-! ## One call -/

/-- The count is within the capacity, and the capacity within the block. -/
structure ModuleSys.VectorOk (s : ModuleSys) : Prop where
  fits : s.registeredModuleCount ≤ s.registeredModuleCap
  null : s.registeredModules = 0 → s.registeredModuleCap = 0
  low : s.registeredModules ≠ 0 → 4096 ≤ s.registeredModules.toNat
  room : s.registeredModules.toNat + 8 * s.registeredModuleCap ≤ 2 ^ 64

section Call

variable {s : ModuleSys} {r : AllocReply} {module : Addr} {reply : Option AllocReply}

/-- No sum and no product wraps. -/
theorem ModuleSys.VectorOk.cap_lt (h : s.VectorOk) : 8 * (s.registeredModuleCap + 16) < 2 ^ 64 := by
  have hroom := h.room
  by_cases hnull : s.registeredModules = 0
  · have hcap := h.null hnull
    omega
  · have hlow := h.low hnull
    omega

theorem ModuleSys.VectorOk.asked_eq (h : s.VectorOk) :
    s.asked = 8 * (s.registeredModuleCap + 16) := by
  have hcap := h.cap_lt
  unfold asked mul64
  rw [add64_of_lt (by omega), Nat.mod_eq_of_lt hcap]

/-- The elements that are there already stay. -/
theorem ModuleSys.VectorOk.elements_append (h : s.VectorOk)
    (hroom : s.registeredModuleCount < s.registeredModuleCap) (module : Addr) :
    (s.append module).elements = s.elements ++ [module] := by
  have hend := h.room
  have hcount : (s.append module).registeredModuleCount = s.registeredModuleCount + 1 :=
    add64_of_lt (by omega)
  unfold elements
  rw [hcount]
  exact words_store64 (by omega) module

/-- A byte of the old array, in the new block.  No byte is in both blocks, so the
    copy reads what was there before. -/
theorem ModuleSys.VectorOk.grown_byte (h : s.VectorOk) (hfull : s.Full)
    (hreply : s.ReplyOk (some r)) (hne : s.registeredModules ≠ 0) {o : Nat}
    (ho : o < 8 * s.registeredModuleCount) :
    (s.grown r).mem (place false r.base o) = s.mem (place false s.registeredModules o) := by
  obtain ⟨hlow, hend, hapart⟩ := hreply r hfull rfl
  have hfits := h.fits
  have hcap := h.cap_lt
  have hroom := h.room
  have hasked := h.asked_eq
  have hbytes : (BitVec.ofNat 64 (mul64 8 s.registeredModuleCount)).toNat
      = 8 * s.registeredModuleCount := by
    unfold mul64
    rw [BitVec.toNat_ofNat, Nat.mod_mod, Nat.mod_eq_of_lt (by omega)]
  have hplace : ∀ (a : Addr) i, (place false a i - a).toNat = i % 2 ^ 64 := by
    intro a i
    unfold place
    rw [if_neg Bool.false_ne_true, BitVec.add_comm, BitVec.add_sub_cancel, BitVec.toNat_ofNat]
  have hold : ∀ i, i < 8 * s.registeredModuleCount →
      s.block.Has (place false s.registeredModules i) := by
    intro i hi
    show (place false s.registeredModules i - s.registeredModules).toNat
      < 8 * s.registeredModuleCap
    rw [hplace, Nat.mod_eq_of_lt (by omega)]
    omega
  have hnew : ∀ i, i < 8 * s.registeredModuleCount →
      Range.Has ⟨r.base, s.asked⟩ (place false r.base i) := by
    intro i hi
    show (place false r.base i - r.base).toNat < s.asked
    rw [hplace, Nat.mod_eq_of_lt (by omega)]
    omega
  have hunread : Unread false r.base s.registeredModules (8 * s.registeredModuleCount) := by
    intro i j hi hj heq
    have hmeet := hnew j (by omega)
    rw [← heq] at hmeet
    exact hapart _ hmeet (hold i hi)
  have hmem : (s.grown r).mem = overlay (movs (overlay s.mem ⟨r.base, s.asked⟩ r.fresh) false r.base
      s.registeredModules (8 * s.registeredModuleCount)) s.block r.left := by
    rw [← hbytes]
    exact if_neg hne
  rw [hmem, movs_eq_moved (by omega) hunread, overlay_other (hapart _ (hnew o ho))]
  unfold moved
  rw [offset_place (by omega), if_pos ho, overlay_other (fun hc => hapart _ hc (hold o ho))]

/-- The copy in the new block has the elements of the old one. -/
theorem ModuleSys.VectorOk.elements_grown (h : s.VectorOk) (hfull : s.Full)
    (hreply : s.ReplyOk (some r)) : (s.grown r).elements = s.elements := by
  have hempty : s.registeredModules = 0 → s.registeredModuleCount = 0 := by
    intro hnull
    have hfits := h.fits
    have hzero := h.null hnull
    omega
  have hbytes : ∀ o, o < 8 * s.registeredModuleCount →
      (s.grown r).mem (r.base + BitVec.ofNat 64 o)
        = s.mem (s.registeredModules + BitVec.ofNat 64 o) := by
    intro o ho
    have hne : s.registeredModules ≠ 0 := by
      intro hnull
      have hzero := hempty hnull
      omega
    have hbyte := h.grown_byte hfull hreply hne ho
    rw [place_up, place_up] at hbyte
    exact hbyte
  have hwords := words_eq_of_bytes hbytes
  exact hwords

/-- The new block has room for 16 more. -/
theorem ModuleSys.VectorOk.grown (h : s.VectorOk) (hfull : s.Full) (hreply : s.ReplyOk (some r)) :
    (s.grown r).VectorOk ∧ (s.grown r).registeredModuleCount < (s.grown r).registeredModuleCap := by
  obtain ⟨hlow, hend, -⟩ := hreply r hfull rfl
  have hfits := h.fits
  have hcap := h.cap_lt
  rw [h.asked_eq] at hend
  have hcap' : (s.grown r).registeredModuleCap = s.registeredModuleCap + 16 :=
    add64_of_lt (by omega)
  have hcount : (s.grown r).registeredModuleCount = s.registeredModuleCount := rfl
  have hbase : (s.grown r).registeredModules = r.base := rfl
  refine ⟨⟨?_, fun hnull => ?_, fun _ => ?_, ?_⟩, ?_⟩
  · rw [hcap', hcount]
    omega
  · rw [hbase] at hnull
    rw [hnull] at hlow
    exact absurd hlow (by decide)
  · rw [hbase]
    exact hlow
  · rw [hbase, hcap']
    exact hend
  · rw [hcap', hcount]
    omega

theorem ModuleSys.VectorOk.append (h : s.VectorOk)
    (hroom : s.registeredModuleCount < s.registeredModuleCap) (module : Addr) :
    (s.append module).VectorOk := by
  have hend := h.room
  refine ⟨?_, h.null, h.low, h.room⟩
  show add64 s.registeredModuleCount 1 ≤ s.registeredModuleCap
  rw [add64_of_lt (by omega)]
  exact hroom

/-- The table of modules and the structures, but for the flag of one of them. -/
structure ModuleSys.Flagged (s : ModuleSys) (module : Addr) (s' : ModuleSys) : Prop where
  modules : s'.modules = s.modules
  count : s'.moduleCount = s.moduleCount
  module : ∀ a, s'.module a = if a = module then { s.module a with registered := 1 } else s.module a

/-- A call fails and changes nothing, or it appends the module. -/
theorem moduleRegister_cases (h : s.VectorOk) (hreply : s.ReplyOk reply) (module : Addr) :
    (s.Full ∧ reply = none ∧ moduleRegister s module reply = (0, s)) ∨
      (¬ (s.Full ∧ reply = none) ∧ (moduleRegister s module reply).1 = 1 ∧
        (moduleRegister s module reply).2.VectorOk ∧
        (moduleRegister s module reply).2.elements = s.elements ++ [module] ∧
        s.Flagged module (moduleRegister s module reply).2) := by
  by_cases hfull : s.Full
  · cases hr : reply with
    | none => exact Or.inl ⟨hfull, rfl, if_pos hfull⟩
    | some r =>
        have hres : moduleRegister s module (some r) = (1, (s.grown r).append module) :=
          if_pos hfull
        rw [hr] at hreply
        obtain ⟨hok, hlt⟩ := h.grown hfull hreply
        rw [hres]
        refine Or.inr ⟨fun hc => Option.some_ne_none r hc.2, rfl, hok.append hlt module, ?_,
          ⟨rfl, rfl, fun a => rfl⟩⟩
        rw [hok.elements_append hlt, h.elements_grown hfull hreply]
  · have hres : moduleRegister s module reply = (1, s.append module) := if_neg hfull
    have hlt : s.registeredModuleCount < s.registeredModuleCap := by
      unfold ModuleSys.Full at hfull
      push Not at hfull
      exact hfull.2
    rw [hres]
    exact Or.inr ⟨fun hc => hfull hc.1, rfl, h.append hlt module, h.elements_append hlt module,
      ⟨rfl, rfl, fun a => rfl⟩⟩

end Call

/-! ## Runs -/

/-- A call with the answer of `avmf_alloc` in it. -/
structure RegisterOp where
  module : Addr
  reply : Option AllocReply

def registerStep (s : ModuleSys) (op : RegisterOp) : ModuleSys :=
  (moduleRegister s op.module op.reply).2

/-- The modules of the calls that return 1. -/
def registeredBy (s : ModuleSys) : List RegisterOp → List Addr
  | [] => []
  | op :: ops =>
      let rest := registeredBy (registerStep s op) ops
      if (moduleRegister s op.module op.reply).1 = 1 then op.module :: rest else rest

/-- The vector holds the modules that were registered, and its readers see
    them. -/
structure ModuleSys.Faithful (s : ModuleSys) (registered : List Addr) : Prop where
  fits : s.registeredModuleCount ≤ s.registeredModuleCap
  elements : s.elements = registered
  initialized : ∀ module, moduleAlreadyInitialized s module = 1 ↔ module ∈ registered
  lookup : ∀ q, moduleGetFirstApplicableRegisteredDriver s q
    = registered.find? (fun a => decide ((s.module a).Applies q))

section Runs

variable {s : ModuleSys}

theorem moduleAlreadyInitialized_iff (s : ModuleSys) (module : Addr) :
    moduleAlreadyInitialized s module = 1 ↔ module ∈ s.elements := by
  unfold moduleAlreadyInitialized
  by_cases hany : s.elements.any (fun a => decide (a = module)) = true
  · rw [if_pos hany]
    obtain ⟨a, ha, heq⟩ := List.any_eq_true.mp hany
    rw [of_decide_eq_true heq] at ha
    exact ⟨fun _ => ha, fun _ => rfl⟩
  · rw [if_neg hany]
    refine ⟨fun h => absurd h (by decide), fun hmem => absurd ?_ hany⟩
    exact List.any_eq_true.mpr ⟨module, hmem, decide_eq_true rfl⟩

theorem ModuleSys.VectorOk.faithful (h : s.VectorOk) : s.Faithful s.elements :=
  ⟨h.fits, rfl, moduleAlreadyInitialized_iff s, fun _ => rfl⟩

/-- The vector before the first call. -/
theorem ModuleSys.vectorOk_empty (hnull : s.registeredModules = 0)
    (hcount : s.registeredModuleCount = 0) (hcap : s.registeredModuleCap = 0) : s.VectorOk := by
  refine ⟨?_, fun _ => hcap, fun hne => absurd hnull hne, ?_⟩
  · rw [hcount]
    exact Nat.zero_le _
  · rw [hnull, hcap]
    decide

theorem ModuleSys.elements_empty (hcount : s.registeredModuleCount = 0) : s.elements = [] := by
  unfold ModuleSys.elements
  rw [hcount]
  rfl

/-- After a run the array holds what it held before and what was registered. -/
theorem ModuleSys.VectorOk.run (h : s.VectorOk) {ops : List RegisterOp}
    (hreplies : Along registerStep (fun s op => s.ReplyOk op.reply) s ops) :
    (exec registerStep s ops).VectorOk ∧
      (exec registerStep s ops).elements = s.elements ++ registeredBy s ops := by
  induction ops generalizing s with
  | nil => exact ⟨h, (List.append_nil _).symm⟩
  | cons op ops ih =>
      obtain ⟨hreply, hrest⟩ := hreplies
      rw [exec_cons]
      unfold registeredBy
      unfold registerStep at hrest ⊢
      rcases moduleRegister_cases h hreply op.module with
        ⟨-, -, hres⟩ | ⟨-, hone, hok, happend, -⟩
      · rw [hres] at hrest ⊢
        dsimp only
        rw [if_neg (by decide)]
        exact ih h hrest
      · obtain ⟨hok', hel⟩ := ih hok hrest
        rw [if_pos hone]
        refine ⟨hok', hel.trans ?_⟩
        rw [happend, List.append_assoc]
        rfl

end Runs

/-- From an empty vector on, whatever blocks `avmf_alloc` gives and whenever it
    fails, the vector holds the modules of the calls that succeeded, in their
    order, a call that fails changes nothing, and both lookups take the first
    module of their list for which the same tests hold. -/
theorem registered_modules_faithful (s : ModuleSys) (hnull : s.registeredModules = 0)
    (hcount : s.registeredModuleCount = 0) (hcap : s.registeredModuleCap = 0)
    {ops : List RegisterOp}
    (hreplies : Along registerStep (fun s op => s.ReplyOk op.reply) s ops) :
    (exec registerStep s ops).Faithful (registeredBy s ops) ∧
      (∀ module reply, (moduleRegister (exec registerStep s ops) module reply).1 ≠ 1 →
        moduleRegister (exec registerStep s ops) module reply = (0, exec registerStep s ops)) ∧
      ∀ q, moduleGetFirstApplicableDriver (exec registerStep s ops) q
        = (exec registerStep s ops).table.find?
            (fun a => decide (((exec registerStep s ops).module a).Applies q)) := by
  obtain ⟨hok, helements⟩ := (ModuleSys.vectorOk_empty hnull hcount hcap).run hreplies
  rw [ModuleSys.elements_empty hcount, List.nil_append] at helements
  refine ⟨?_, fun module reply hne => ?_, fun q => rfl⟩
  · rw [← helements]
    exact hok.faithful
  · unfold moduleRegister at hne ⊢
    by_cases hfull : (exec registerStep s ops).Full
    · rw [if_pos hfull] at hne ⊢
      cases reply with
      | none => rfl
      | some r => exact absurd rfl hne
    · rw [if_neg hfull] at hne
      exact absurd rfl hne

/-- A driver for every device of class 0x01. -/
def storageDriver : AosModule :=
  { type := .driver, registered := 0, targetClass := 0x01, targetSubclass := 0x06
    targetProgifclass := 0x01, targetUseProgifclass := 0, targetRevision := 0
    targetUseRevision := 0, targetVendor := 0, targetUseVendor := 0
    pcieDevice := ⟨0, 0, 0, 0, 0, 0, 0, 0, 0⟩ }

/-- One module in the table, and nothing registered. -/
def oneModule : ModuleSys :=
  { mem := fun _ => 0, module := fun _ => storageDriver, modules := 0x2000, moduleCount := 1 }

/-- It is registered 17 times: the first call finds no memory, the next one
    does, and the last one of them finds the vector full and moves it. -/
def growingCalls : List RegisterOp :=
  ⟨0x2000, none⟩ :: List.replicate 16 ⟨0x2000, some ⟨0x10000, fun _ => 0, fun _ => 0⟩⟩
    ++ [⟨0x2000, some ⟨0x20000, fun _ => 0, fun _ => 0⟩⟩]

theorem registered_modules_second :
    (exec registerStep oneModule growingCalls).Faithful (List.replicate 17 0x2000) := by
  have hfirst : ∀ (s : ModuleSys) (op : RegisterOp), ¬ s.Full → s.ReplyOk op.reply :=
    fun s op hfull r hr => absurd hr hfull
  have hreplies : Along registerStep (fun s op => s.ReplyOk op.reply) oneModule
      growingCalls := by
    refine And.intro (fun r _ hr => by cases hr) (And.intro ?_ ?_)
    · rintro r - ⟨⟩
      exact ⟨by decide, by decide, fun p _ hp => Nat.not_lt_zero _ hp⟩
    · iterate 15 refine And.intro (hfirst _ _ (by decide)) ?_
      refine And.intro ?_ trivial
      rintro r - ⟨⟩
      exact ⟨by decide, by decide, (apart_of_le (by decide) (by decide)).symm⟩
  exact (registered_modules_faithful oneModule rfl rfl rfl hreplies).1

end Pfi
