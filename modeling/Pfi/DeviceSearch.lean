import Pfi.ConfigSpace
import Pfi.FirstMatch

/-! # Searching a device

    `pcie_find`, `pcie_find_ex` and `pcie_find_rex` are one triple loop with
    different filters: what vendor ids they skip, and what they ask of the
    class dword.  The reads leave the configuration space as it is, so each of
    them returns the first function in the order of the loops that its filter
    accepts (`PcieQuery.run_eq`).

    The filters are not those that the arguments describe.  `pcie_find` does
    not skip functions that are absent; `pcie_find_ex` takes the vendor into
    account only when `use_vendor` is 1; and `pcie_find_rex` does so when
    `use_vendor` is 0, and only then.  A search still gives the right function
    exactly when each function on which its filter is wrong comes after one
    that is accepted rightly (`pcie_find_first_iff`). -/

namespace Pfi

open Words FirstMatch

/-! ## The functions of the bus -/

/-- A bus, a slot and a function. -/
structure ConfigFunction where
  bus : Nat
  slot : Nat
  func : Nat
deriving DecidableEq

/-- The lexicographic order. -/
def ConfigFunction.Before (g h : ConfigFunction) : Prop :=
  g.bus < h.bus ∨ g.bus = h.bus ∧ (g.slot < h.slot ∨ g.slot = h.slot ∧ g.func < h.func)

/-- `PCI_MAX_BUS`, `PCI_MAX_SLOT` and `PCI_MAX_FUNC`. -/
abbrev pciMaxBus : Nat := 256
abbrev pciMaxSlot : Nat := 32
abbrev pciMaxFunc : Nat := 8

/-- The functions in the order of the loops. -/
def pciFunctions : List ConfigFunction :=
  (List.range pciMaxBus).flatMap (fun b => (List.range pciMaxSlot).flatMap (fun s =>
    (List.range pciMaxFunc).map (fun f => ⟨b, s, f⟩)))

/-- The dword that `pcie_read` gives. -/
def ConfigBus.config (c : ConfigBus) (mcfg : Option (List AcpiMcfgEntry)) (g : ConfigFunction)
    (offset : Nat) : Nat :=
  (c.pcieRead mcfg g.bus g.slot g.func offset).1

def vendorOf (data : Nat) : Nat := data &&& 0xFFFF
def classOf (classData : Nat) : Nat := classData >>> 24 &&& 0xFF
def subclassOf (classData : Nat) : Nat := classData >>> 16 &&& 0xFF
def progifOf (classData : Nat) : Nat := classData >>> 8 &&& 0xFF
def revisionOf (classData : Nat) : Nat := classData &&& 0xFF

/-! ## The loops -/

/-- What `*bus`, `*slot`, `*func` and `*bar0` hold. -/
structure PcieFound where
  bus : Nat
  slot : Nat
  func : Nat
  bar0 : Nat
deriving DecidableEq

/-- The body of the loops: `skip` is the condition on the vendor id under which
    the class is not read, `hit` the one on the class dword. -/
def findBody (mcfg : Option (List AcpiMcfgEntry)) (skip hit : Nat → Bool) (c : ConfigBus)
    (g : ConfigFunction) : Option PcieFound × ConfigBus :=
  let data := c.pcieRead mcfg g.bus g.slot g.func 0
  if skip (vendorOf data.1) = true then (none, data.2)
  else
    let classData := data.2.pcieRead mcfg g.bus g.slot g.func 0x08
    if hit classData.1 = true then
      let bar0 := classData.2.pcieRead mcfg g.bus g.slot g.func 0x10
      (some ⟨g.bus, g.slot, g.func, bar0.1⟩, bar0.2)
    else (none, classData.2)

/-- The three loops; what is returned, the outputs and the bus. -/
def findLoops (c : ConfigBus) (mcfg : Option (List AcpiMcfgEntry)) (skip hit : Nat → Bool)
    (out : PcieFound) : Nat × PcieFound × ConfigBus :=
  let r := firstOf (fun c b => firstOf (fun c s => firstOf (findBody mcfg skip hit)
    ((List.range pciMaxFunc).map (fun f => ⟨b, s, f⟩)) c) (List.range pciMaxSlot) c)
    (List.range pciMaxBus) c
  match r.1 with
  | some found => (1, found, r.2)
  | none => (0, out, r.2)

/-- The search by class and vendor. -/
def pcieFind (c : ConfigBus) (mcfg : Option (List AcpiMcfgEntry)) (out : PcieFound)
    (targetClass targetVendor useVendor : Nat) : Nat × PcieFound × ConfigBus :=
  findLoops c mcfg (fun vendor => decide (useVendor ≠ 0 ∧ vendor ≠ targetVendor))
    (fun classData => decide (classOf classData = targetClass)) out

/-- The search by class, subclass, programming interface and vendor. -/
def pcieFindEx (c : ConfigBus) (mcfg : Option (List AcpiMcfgEntry)) (out : PcieFound)
    (targetClass targetSubclass targetProgifclass targetVendor useVendor : Nat) :
    Nat × PcieFound × ConfigBus :=
  findLoops c mcfg
    (fun vendor => decide (vendor = 0xFFFF ∨ useVendor = 1 ∧ vendor ≠ targetVendor))
    (fun classData => decide (classOf classData = targetClass ∧
      subclassOf classData = targetSubclass ∧ progifOf classData = targetProgifclass)) out

/-- The same with the revision. -/
def pcieFindRex (c : ConfigBus) (mcfg : Option (List AcpiMcfgEntry)) (out : PcieFound)
    (targetClass targetSubclass targetProgifclass targetRevision targetVendor useVendor : Nat) :
    Nat × PcieFound × ConfigBus :=
  findLoops c mcfg
    (fun vendor => decide (vendor = 0xFFFF ∨ useVendor = 0 ∧ vendor ≠ targetVendor))
    (fun classData => decide (classOf classData = targetClass ∧
      subclassOf classData = targetSubclass ∧ progifOf classData = targetProgifclass ∧
      revisionOf classData = targetRevision)) out

/-! ## Queries -/

/-- A call of one of the three with its arguments. -/
inductive PcieQuery where
  | find (targetClass targetVendor useVendor : Nat)
  | findEx (targetClass targetSubclass targetProgifclass targetVendor useVendor : Nat)
  | findRex (targetClass targetSubclass targetProgifclass targetRevision targetVendor
      useVendor : Nat)

/-- The call of a query. -/
def PcieQuery.run (c : ConfigBus) (mcfg : Option (List AcpiMcfgEntry)) (out : PcieFound) :
    PcieQuery → Nat × PcieFound × ConfigBus
  | .find cls vendor use => pcieFind c mcfg out cls vendor use
  | .findEx cls sub progif vendor use => pcieFindEx c mcfg out cls sub progif vendor use
  | .findRex cls sub progif rev vendor use => pcieFindRex c mcfg out cls sub progif rev vendor use

/-- The criteria on the class dword. -/
def PcieQuery.MatchesClass (classData : Nat) : PcieQuery → Prop
  | .find cls _ _ => classOf classData = cls
  | .findEx cls sub progif _ _ => classOf classData = cls ∧ subclassOf classData = sub ∧
      progifOf classData = progif
  | .findRex cls sub progif rev _ _ => classOf classData = cls ∧ subclassOf classData = sub ∧
      progifOf classData = progif ∧ revisionOf classData = rev

/-- The vendor that a query asks for. -/
def PcieQuery.targetVendor : PcieQuery → Nat
  | .find _ vendor _ => vendor
  | .findEx _ _ _ vendor _ => vendor
  | .findRex _ _ _ _ vendor _ => vendor

/-- Whether the vendor counts. -/
def PcieQuery.useVendor : PcieQuery → Nat
  | .find _ _ use => use
  | .findEx _ _ _ _ use => use
  | .findRex _ _ _ _ _ use => use

/-- The vendor ids that the loop skips. -/
def PcieQuery.Skips (vendor : Nat) : PcieQuery → Prop
  | .find _ target use => use ≠ 0 ∧ vendor ≠ target
  | .findEx _ _ _ target use => vendor = 0xFFFF ∨ use = 1 ∧ vendor ≠ target
  | .findRex _ _ _ _ target use => vendor = 0xFFFF ∨ use = 0 ∧ vendor ≠ target

instance (classData : Nat) : ∀ q : PcieQuery, Decidable (q.MatchesClass classData)
  | .find _ _ _ => inferInstanceAs (Decidable (_ = _))
  | .findEx _ _ _ _ _ => inferInstanceAs (Decidable (_ ∧ _ ∧ _))
  | .findRex _ _ _ _ _ _ => inferInstanceAs (Decidable (_ ∧ _ ∧ _ ∧ _))

instance (vendor : Nat) : ∀ q : PcieQuery, Decidable (q.Skips vendor)
  | .find _ _ _ => inferInstanceAs (Decidable (_ ∧ _))
  | .findEx _ _ _ _ _ => inferInstanceAs (Decidable (_ ∨ _))
  | .findRex _ _ _ _ _ _ => inferInstanceAs (Decidable (_ ∨ _))

/-- The vendor ids that should be skipped: that of an absent function, and any
    other than the target where the vendor is used. -/
def PcieQuery.Excludes (vendor : Nat) (q : PcieQuery) : Prop :=
  vendor = 0xFFFF ∨ q.useVendor ≠ 0 ∧ vendor ≠ q.targetVendor

instance (vendor : Nat) (q : PcieQuery) : Decidable (q.Excludes vendor) :=
  inferInstanceAs (Decidable (_ ∨ _))

/-- The vendor ids on which the two differ. -/
def PcieQuery.Misjudges (vendor : Nat) : PcieQuery → Prop
  | .find _ target use => vendor = 0xFFFF ∧ (use = 0 ∨ target = 0xFFFF)
  | .findEx _ _ _ target use => vendor ≠ 0xFFFF ∧ vendor ≠ target ∧ use ≠ 0 ∧ use ≠ 1
  | .findRex _ _ _ _ target _ => vendor ≠ 0xFFFF ∧ vendor ≠ target

/-- They are the ids on which only one of the two skips. -/
theorem PcieQuery.misjudges_iff (q : PcieQuery) (vendor : Nat) :
    q.Misjudges vendor ↔ ¬ (q.Skips vendor ↔ q.Excludes vendor) := by
  cases q with
  | find _ target use =>
      simp only [Misjudges, Skips, Excludes, useVendor, targetVendor]
      omega
  | findEx _ _ _ target use =>
      simp only [Misjudges, Skips, Excludes, useVendor, targetVendor]
      omega
  | findRex _ _ _ _ target use =>
      simp only [Misjudges, Skips, Excludes, useVendor, targetVendor]
      omega

/-- A present function that meets the criteria. -/
def PcieQuery.Wanted (q : PcieQuery) (c : ConfigBus) (mcfg : Option (List AcpiMcfgEntry))
    (g : ConfigFunction) : Prop :=
  ¬ q.Excludes (vendorOf (c.config mcfg g 0)) ∧ q.MatchesClass (c.config mcfg g 0x08)

/-- A function that the loop takes. -/
def PcieQuery.Accepts (q : PcieQuery) (c : ConfigBus) (mcfg : Option (List AcpiMcfgEntry))
    (g : ConfigFunction) : Prop :=
  ¬ q.Skips (vendorOf (c.config mcfg g 0)) ∧ q.MatchesClass (c.config mcfg g 0x08)

instance (q : PcieQuery) (c : ConfigBus) (mcfg : Option (List AcpiMcfgEntry)) (g : ConfigFunction) :
    Decidable (q.Wanted c mcfg g) := inferInstanceAs (Decidable (_ ∧ _))

instance (q : PcieQuery) (c : ConfigBus) (mcfg : Option (List AcpiMcfgEntry)) (g : ConfigFunction) :
    Decidable (q.Accepts c mcfg g) := inferInstanceAs (Decidable (_ ∧ _))

/-- The call returns 1 with the first function that is wanted and its BAR0, or
    0 with the outputs untouched where there is none. -/
structure PcieQuery.FindsFirst (q : PcieQuery) (c : ConfigBus) (mcfg : Option (List AcpiMcfgEntry))
    (out : PcieFound) : Prop where
  found : (q.run c mcfg out).1 = 1 ↔ ∃ g ∈ pciFunctions, q.Wanted c mcfg g
  first : (q.run c mcfg out).1 = 1 → ∃ g ∈ pciFunctions, q.Wanted c mcfg g ∧
    (∀ h ∈ pciFunctions, h.Before g → ¬ q.Wanted c mcfg h) ∧
    (q.run c mcfg out).2.1 = ⟨g.bus, g.slot, g.func, c.config mcfg g pciBar0⟩
  missing : (q.run c mcfg out).1 ≠ 1 → (q.run c mcfg out).1 = 0 ∧ (q.run c mcfg out).2.1 = out

/-! ## The order of the loops -/

section Order

/-- The order is strict. -/
theorem ConfigFunction.Before.asymm (g h : ConfigFunction) (hlt : g.Before h) : ¬ h.Before g := by
  unfold Before at *
  omega

/-- All functions are in the list. -/
theorem mem_pciFunctions {g : ConfigFunction} :
    g ∈ pciFunctions ↔ g.bus < 256 ∧ g.slot < 32 ∧ g.func < 8 := by
  unfold pciFunctions
  simp only [List.mem_flatMap, List.mem_map, List.mem_range]
  constructor
  · rintro ⟨b, hb, s, hs, f, hf, rfl⟩
    exact ⟨hb, hs, hf⟩
  · rintro ⟨hb, hs, hf⟩
    exact ⟨g.bus, hb, g.slot, hs, g.func, hf, rfl⟩

/-- The loops go through the functions in their order. -/
theorem pciFunctions_sorted : pciFunctions.Pairwise ConfigFunction.Before := by
  unfold pciFunctions
  refine List.pairwise_flatMap.mpr ⟨fun b _ => ?_, List.pairwise_lt_range.imp ?_⟩
  · refine List.pairwise_flatMap.mpr ⟨fun s _ => ?_, List.pairwise_lt_range.imp ?_⟩
    · refine List.pairwise_map.mpr (List.pairwise_lt_range.imp (fun hlt => ?_))
      exact Or.inr ⟨rfl, Or.inr ⟨rfl, hlt⟩⟩
    · intro s s' hlt g hg h hh
      obtain ⟨f, -, rfl⟩ := List.mem_map.mp hg
      obtain ⟨f', -, rfl⟩ := List.mem_map.mp hh
      exact Or.inr ⟨rfl, Or.inl hlt⟩
  · intro b b' hlt g hg h hh
    obtain ⟨s, -, hg⟩ := List.mem_flatMap.mp hg
    obtain ⟨f, -, rfl⟩ := List.mem_map.mp hg
    obtain ⟨s', -, hh⟩ := List.mem_flatMap.mp hh
    obtain ⟨f', -, rfl⟩ := List.mem_map.mp hh
    exact Or.inl hlt

end Order

/-! ## Reads -/

/-- The buses differ at port 0xCF8 at most. -/
structure ConfigBus.SameSpace (c c' : ConfigBus) : Prop where
  space : c'.space = c.space
  window : c'.window = c.window

section Reads

variable {c c' : ConfigBus} {mcfg : Option (List AcpiMcfgEntry)} {skip hit : Nat → Bool}

/-- The same space gives the same bytes. -/
theorem ConfigBus.SameSpace.loadBytes (h : c.SameSpace c') (bs : List ConfigByte) :
    c'.loadBytes bs = c.loadBytes bs := by
  induction bs with
  | nil => rfl
  | cons b bs ih =>
      unfold ConfigBus.loadBytes
      rw [ih, h.space]

/-- A read changes the address at most, and does not depend on it. -/
theorem ConfigBus.SameSpace.pcieRead (h : c.SameSpace c') (bus slot func offset : Nat) :
    (c'.pcieRead mcfg bus slot func offset).1 = (c.pcieRead mcfg bus slot func offset).1 ∧
      c.SameSpace (c'.pcieRead mcfg bus slot func offset).2 := by
  unfold ConfigBus.pcieRead Pfi.pcieRead
  cases (mcfg.getD [])[getSegment mcfg bus]? with
  | some e =>
      have hbytes : c'.windowBytes (ecamAddress e bus slot func offset)
          = c.windowBytes (ecamAddress e bus slot func offset) := by
        unfold windowBytes
        rw [h.window]
      refine ⟨?_, h⟩
      show c'.loadBytes _ = c.loadBytes _
      rw [hbytes, h.loadBytes]
  | none =>
      generalize legacyAddress bus slot func offset = a
      have hstep : ∀ d : ConfigBus, d.run [.outl 0xCF8 a, .inl 0xCFC]
          = ConfigBus.step { d with address := a } (.inl 0xCFC) := fun _ => rfl
      rw [hstep, hstep]
      unfold ConfigBus.step
      dsimp only
      by_cases hbit : (0xCFC : Nat) = 0xCFC ∧ a.testBit 31 = true
      · rw [if_pos hbit, if_pos hbit]
        refine ⟨?_, ⟨h.space, h.window⟩⟩
        have hsame : ConfigBus.SameSpace { c with address := a } { c' with address := a } :=
          ⟨h.space, h.window⟩
        exact hsame.loadBytes _
      · rw [if_neg hbit, if_neg hbit]
        exact ⟨rfl, ⟨h.space, h.window⟩⟩

/-- A read gives what the space holds, and leaves it. -/
theorem ConfigBus.SameSpace.read (h : c.SameSpace c') (g : ConfigFunction) (offset : Nat) :
    c'.pcieRead mcfg g.bus g.slot g.func offset
        = (c.config mcfg g offset, (c'.pcieRead mcfg g.bus g.slot g.func offset).2) ∧
      c.SameSpace (c'.pcieRead mcfg g.bus g.slot g.func offset).2 := by
  obtain ⟨hvalue, hsame⟩ := @ConfigBus.SameSpace.pcieRead c c' mcfg h g.bus g.slot g.func offset
  exact ⟨Prod.ext hvalue rfl, hsame⟩

/-- What the body finds, and that it leaves the space. -/
theorem findBody_eq (h : c.SameSpace c') (g : ConfigFunction) :
    (findBody mcfg skip hit c' g).1
        = (if (!skip (vendorOf (c.config mcfg g 0)) && hit (c.config mcfg g 0x08)) = true then
            some ⟨g.bus, g.slot, g.func, c.config mcfg g pciBar0⟩ else none) ∧
      c.SameSpace (findBody mcfg skip hit c' g).2 := by
  obtain ⟨hdata, h₁⟩ := @ConfigBus.SameSpace.read c c' mcfg h g 0
  unfold findBody
  rw [hdata]
  generalize (c'.pcieRead mcfg g.bus g.slot g.func 0).2 = c₁ at h₁
  dsimp only
  by_cases hskip : skip (vendorOf (c.config mcfg g 0)) = true
  · rw [if_pos hskip, hskip]
    exact ⟨rfl, h₁⟩
  · obtain ⟨hclass, h₂⟩ := @ConfigBus.SameSpace.read c c₁ mcfg h₁ g 0x08
    rw [if_neg hskip, Bool.eq_false_iff.mpr hskip, hclass]
    generalize (c₁.pcieRead mcfg g.bus g.slot g.func 0x08).2 = c₂ at h₂
    dsimp only
    by_cases hhit : hit (c.config mcfg g 0x08) = true
    · obtain ⟨hbar, h₃⟩ := @ConfigBus.SameSpace.read c c₂ mcfg h₂ g 0x10
      rw [if_pos hhit, hhit, hbar]
      exact ⟨rfl, h₃⟩
    · rw [if_neg hhit, Bool.eq_false_iff.mpr hhit]
      exact ⟨rfl, h₂⟩

/-- The loops return the first function that the filter accepts. -/
theorem findLoops_eq (c : ConfigBus) (mcfg : Option (List AcpiMcfgEntry)) (skip hit : Nat → Bool)
    (out : PcieFound) :
    ((findLoops c mcfg skip hit out).1, (findLoops c mcfg skip hit out).2.1)
      = ((pciFunctions.find? (fun g => !skip (vendorOf (c.config mcfg g 0)) &&
          hit (c.config mcfg g 0x08))).map
            (fun g => (1, PcieFound.mk g.bus g.slot g.func (c.config mcfg g pciBar0)))).getD
              (0, out) := by
  have hflat : firstOf (fun c b => firstOf (fun c s => firstOf (findBody mcfg skip hit)
      ((List.range pciMaxFunc).map (fun f => ⟨b, s, f⟩)) c) (List.range pciMaxSlot) c)
        (List.range pciMaxBus) c = firstOf (findBody mcfg skip hit) pciFunctions c := by
    unfold pciFunctions
    rw [← firstOf_flatMap]
    congr 1
    funext c b
    exact firstOf_flatMap _ _
  have hscan := (@firstOf_eq ConfigBus ConfigFunction PcieFound (findBody mcfg skip hit) c
    pciFunctions c.SameSpace _ _ (fun s a hs => (findBody_eq hs a).1)
    (fun s a hs => (findBody_eq hs a).2) ⟨rfl, rfl⟩).1
  unfold findLoops
  rw [hflat]
  dsimp only
  generalize firstOf (findBody mcfg skip hit) pciFunctions c = r at hscan
  rw [hscan]
  cases pciFunctions.find? _ with
  | none => rfl
  | some g => rfl

end Reads

/-! ## The first match -/

section First

variable {q : PcieQuery} {c : ConfigBus} {mcfg : Option (List AcpiMcfgEntry)} {out : PcieFound}

/-- A query finds the first function that it accepts. -/
theorem PcieQuery.run_eq (q : PcieQuery) (c : ConfigBus) (mcfg : Option (List AcpiMcfgEntry))
    (out : PcieFound) :
    ((q.run c mcfg out).1, (q.run c mcfg out).2.1)
      = ((pciFunctions.find? (fun g => decide (q.Accepts c mcfg g))).map
            (fun g => (1, PcieFound.mk g.bus g.slot g.func (c.config mcfg g pciBar0)))).getD
              (0, out) := by
  have hloops : q.run c mcfg out = findLoops c mcfg (fun vendor => decide (q.Skips vendor))
      (fun classData => decide (q.MatchesClass classData)) out := by
    cases q <;> rfl
  have hfilter : (fun g => !decide (q.Skips (vendorOf (c.config mcfg g 0))) &&
        decide (q.MatchesClass (c.config mcfg g 0x08)))
      = (fun g => decide (q.Accepts c mcfg g)) := by
    funext g
    rw [← decide_not, ← Bool.decide_and]
    exact decide_eq_decide.mpr Iff.rfl
  rw [hloops, findLoops_eq, hfilter]

/-- The call finds the first wanted function when its filter and the criteria
    have the same first match. -/
theorem PcieQuery.findsFirst_iff_agree :
    q.FindsFirst c mcfg out ↔
      pciFunctions.find? (fun g => decide (q.Accepts c mcfg g))
        = pciFunctions.find? (fun g => decide (q.Wanted c mcfg g)) := by
  have hrun := q.run_eq c mcfg out
  have hfirst := fun g => @find?_eq_some_iff_before _ pciFunctions ConfigFunction.Before
    (fun g => decide (q.Wanted c mcfg g)) pciFunctions_sorted ConfigFunction.Before.asymm g
  constructor
  · intro h
    cases hfind : pciFunctions.find? (fun g => decide (q.Accepts c mcfg g)) with
    | none =>
        rw [hfind] at hrun
        obtain ⟨hret, -⟩ := Prod.mk.inj hrun
        refine (List.find?_eq_none.mpr (fun g hg hwanted => ?_)).symm
        have hone := h.found.mpr ⟨g, hg, of_decide_eq_true hwanted⟩
        rw [hret] at hone
        cases hone
    | some g =>
        rw [hfind] at hrun
        obtain ⟨hret, hout⟩ := Prod.mk.inj hrun
        obtain ⟨g', hg', hwanted, hleast, hout'⟩ := h.first hret
        rw [hout] at hout'
        -- the outputs name the function
        have hsame : g = g' := by
          obtain ⟨hb, hs, hf, -⟩ := PcieFound.mk.inj hout'
          cases g
          cases g'
          exact ConfigFunction.mk.injEq .. ▸ ⟨hb, hs, hf⟩
        rw [hsame]
        refine ((hfirst g').mpr ⟨hg', decide_eq_true hwanted, fun h hh hbefore hc => ?_⟩).symm
        exact hleast h hh hbefore (of_decide_eq_true hc)
  · intro hagree
    rw [hagree] at hrun
    cases hfind : pciFunctions.find? (fun g => decide (q.Wanted c mcfg g)) with
    | none =>
        rw [hfind] at hrun
        obtain ⟨hret, hout⟩ := Prod.mk.inj hrun
        refine ⟨⟨fun hone => ?_, ?_⟩, fun hone => ?_, fun _ => ⟨hret, hout⟩⟩
        · rw [hret] at hone
          cases hone
        · rintro ⟨g, hg, hwanted⟩
          exact absurd (decide_eq_true hwanted) (List.find?_eq_none.mp hfind g hg)
        · rw [hret] at hone
          cases hone
    | some g =>
        obtain ⟨hg, hwanted, hleast⟩ := (hfirst g).mp hfind
        rw [hfind] at hrun
        obtain ⟨hret, hout⟩ := Prod.mk.inj hrun
        have hw := of_decide_eq_true hwanted
        refine ⟨⟨fun _ => ⟨g, hg, hw⟩, fun _ => hret⟩,
          fun _ => ⟨g, hg, hw, fun h hh hbefore hc => ?_, hout⟩, fun hne => absurd hret hne⟩
        exact hleast h hh hbefore (decide_eq_true hc)

/-- Where the filter is wrong about a function. -/
theorem PcieQuery.accepts_ne_iff (q : PcieQuery) (c : ConfigBus)
    (mcfg : Option (List AcpiMcfgEntry)) (g : ConfigFunction) :
    decide (q.Accepts c mcfg g) ≠ decide (q.Wanted c mcfg g) ↔
      q.MatchesClass (c.config mcfg g 0x08) ∧ q.Misjudges (vendorOf (c.config mcfg g 0)) := by
  rw [Ne, decide_eq_decide, q.misjudges_iff]
  unfold Accepts Wanted
  by_cases hclass : q.MatchesClass (c.config mcfg g 0x08)
  · simp only [hclass, and_true, true_and]
    exact not_congr not_iff_not
  · simp only [hclass, and_false, false_and, iff_self, not_true_eq_false]

/-- A search returns the first present function that meets its criteria exactly
    when every function that is of the class and has a misjudged vendor id comes
    after a wanted one that has not. -/
theorem pcie_find_first_iff (q : PcieQuery) (c : ConfigBus) (mcfg : Option (List AcpiMcfgEntry))
    (out : PcieFound) :
    q.FindsFirst c mcfg out ↔
      ∀ g ∈ pciFunctions, q.MatchesClass (c.config mcfg g 0x08) →
        q.Misjudges (vendorOf (c.config mcfg g 0)) →
          ∃ h ∈ pciFunctions, h.Before g ∧ q.Wanted c mcfg h ∧
            ¬ q.Misjudges (vendorOf (c.config mcfg h 0)) := by
  have hboth : ∀ h, decide (q.Accepts c mcfg h) = true ∧ decide (q.Wanted c mcfg h) = true ↔
      q.Wanted c mcfg h ∧ ¬ q.Misjudges (vendorOf (c.config mcfg h 0)) := by
    intro h
    have hne := q.accepts_ne_iff c mcfg h
    by_cases hw : q.Wanted c mcfg h
    · rw [decide_eq_true hw] at hne ⊢
      rw [← not_iff_not.mpr (hne.trans (and_iff_right hw.2))]
      simp [hw]
    · simp [hw]
  rw [PcieQuery.findsFirst_iff_agree,
    find?_agree_iff pciFunctions_sorted ConfigFunction.Before.asymm]
  constructor
  · intro h g hg hclass hvendor
    obtain ⟨b, hb, hbefore, hpass⟩ := h g hg ((q.accepts_ne_iff c mcfg g).mpr ⟨hclass, hvendor⟩)
    exact ⟨b, hb, hbefore, (hboth b).mp hpass⟩
  · intro h g hg hne
    obtain ⟨hclass, hvendor⟩ := (q.accepts_ne_iff c mcfg g).mp hne
    obtain ⟨b, hb, hbefore, hpass⟩ := h g hg hclass hvendor
    exact ⟨b, hb, hbefore, (hboth b).mpr hpass⟩

/-- The configuration bytes of a register that is read through the ports. -/
theorem ConfigBus.config_ports {c : ConfigBus} {g : ConfigFunction} (hg : g ∈ pciFunctions)
    {offset : Nat} (hoffset : offset < 256) :
    c.config none g offset
      = c.loadBytes (dwordBytes g.bus g.slot g.func (offset / 4 * 4)) := by
  obtain ⟨hbus, hslot, hfunc⟩ := mem_pciFunctions.mp hg
  unfold config
  rw [ConfigBus.pcieRead_ports hbus hslot hfunc hoffset]

/-- Every function has vendor id 0x0100, and the search for one of vendor 0x8086
    returns the first of them. -/
theorem pcie_find_rex_other_vendor :
    ((PcieQuery.findRex 0x0B 0x0A 0x09 0x08 0x8086 1).run numberedBus none ⟨9, 9, 9, 9⟩).1 = 1 ∧
      (∀ g ∈ pciFunctions, vendorOf (numberedBus.config none g 0) = 0x0100) ∧
      ¬ (PcieQuery.findRex 0x0B 0x0A 0x09 0x08 0x8086 1).FindsFirst numberedBus none
        ⟨9, 9, 9, 9⟩ := by
  have hret : ((PcieQuery.findRex 0x0B 0x0A 0x09 0x08 0x8086 1).run numberedBus none
      ⟨9, 9, 9, 9⟩).1 = 1 := by decide +kernel
  have hvendor : ∀ g ∈ pciFunctions, vendorOf (numberedBus.config none g 0) = 0x0100 := by
    intro g hg
    have hdata : numberedBus.loadBytes (dwordBytes g.bus g.slot g.func (0 / 4 * 4))
        = numberedBus.loadBytes (dwordBytes 0 0 0 0) := rfl
    rw [ConfigBus.config_ports hg (by decide), hdata]
    decide
  refine ⟨hret, hvendor, fun h => ?_⟩
  obtain ⟨g, hg, hwanted⟩ := h.found.mp hret
  refine hwanted.1 (Or.inr ⟨by decide, ?_⟩)
  rw [hvendor g hg]
  decide

end First

end Pfi
