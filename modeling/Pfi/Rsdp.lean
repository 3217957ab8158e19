import Pfi.Acpi
import Pfi.FirstMatch

/-! # The search for the root pointer

    `acpi_find_rsdp` reads 64 addresses of the EBDA and then 8192 of the BIOS
    area, 16 bytes apart.  A descriptor of revision 2 is summed twice: over its
    first 20 bytes and over all 36.  When only the second sum is wrong the
    function returns `NULL` from within the loop and does not go on.

    So the function is the search for the first address that passes the first
    two tests, dropped if it fails the third (`acpiFindRsdp_eq`).  It gives the
    first valid address exactly when that one passes all three, or no address
    of the two areas is valid (`acpi_find_rsdp_first_iff`). -/

namespace Pfi

open Words

/-! ## The addresses -/

/-- The addresses of one area: `n` from `base` on, of the direct map. -/
def areaAddresses (base n : Nat) : List Nat :=
  (List.range n).map (fun i => base + 16 * i + aosDirectMapBase)

/-- The EBDA, by the segment at `0x40E`. -/
def ebdaBase (m : PhysMem) : Nat := m.load (add64 0x40E aosDirectMapBase) 2 * 16

/-- The scan order. -/
def rsdpAddresses (m : PhysMem) : List Nat :=
  areaAddresses (ebdaBase m) (1024 / 16) ++ areaAddresses 0xE0000 (0x20000 / 16)

/-! ## Valid descriptors -/

/-- The signature and the sum of a descriptor of revision 1. -/
def RsdpCandidate (m : PhysMem) (addr : Nat) : Prop :=
  m.bytes addr 8 = rsdpSignature ∧ acpiChecksum m addr rsdpV1Size = 0

/-- From revision 2 on the whole descriptor is summed, too. -/
def RsdpValid (m : PhysMem) (addr : Nat) : Prop :=
  RsdpCandidate m addr ∧
    (2 ≤ m.byte (add64 addr 15) → acpiChecksum m addr rsdpV2Size = 0)

instance (m : PhysMem) (addr : Nat) : Decidable (RsdpCandidate m addr) :=
  inferInstanceAs (Decidable (_ ∧ _))

instance (m : PhysMem) (addr : Nat) : Decidable (RsdpValid m addr) :=
  inferInstanceAs (Decidable (_ ∧ (_ → _)))

/-- The first valid address in scan order. -/
def firstRsdp (m : PhysMem) : Option Nat :=
  (rsdpAddresses m).find? (fun addr => decide (RsdpValid m addr))

/-! ## What the function returns -/

section Scan

variable {m : PhysMem}

/-- The EBDA lies below 1 MiB and its segment. -/
theorem ebdaBase_lt (m : PhysMem) : ebdaBase m < 2 ^ 20 := by
  have hload : m.load (add64 0x40E aosDirectMapBase) 2 < 256 ^ 2 := PhysMem.load_lt m _ 2
  unfold ebdaBase
  omega

theorem areaAddresses_succ (base n : Nat) :
    areaAddresses base (n + 1) = (base + aosDirectMapBase) :: areaAddresses (base + 16) n := by
  unfold areaAddresses
  rw [List.range_succ_eq_map, List.map_cons, List.map_map]
  refine congrArg₂ List.cons rfl (List.map_congr_left ?_)
  intro i _
  dsimp only [Function.comp_apply]
  omega

/-- The loop over one area stops at the first candidate, whatever its third
    test gives. -/
theorem scanRsdp_eq (n : Nat) : ∀ {base : Nat}, base + 16 * n < 2 ^ 32 →
    scanRsdp m n (base + aosDirectMapBase)
      = ((areaAddresses base n).find? (fun addr => decide (RsdpCandidate m addr))).map
          (fun addr => (some addr).filter (fun addr => decide (RsdpValid m addr))) := by
  induction n with
  | zero =>
      intro base _
      rfl
  | succ n ih =>
      intro base hbase
      rw [areaAddresses_succ, List.find?_cons]
      unfold scanRsdp
      by_cases hcand : RsdpCandidate m (base + aosDirectMapBase)
      · rw [decide_eq_true hcand, if_pos (show _ ∧ _ from hcand)]
        dsimp only [Option.map_some]
        by_cases hbad : 2 ≤ m.byte (add64 (base + aosDirectMapBase) 15) ∧
            acpiChecksum m (base + aosDirectMapBase) rsdpV2Size ≠ 0
        · -- the early return
          have hvalid : ¬ RsdpValid m (base + aosDirectMapBase) := fun hc => hbad.2 (hc.2 hbad.1)
          rw [if_pos hbad, Option.filter_some_neg (by simpa using hvalid)]
        · have hvalid : RsdpValid m (base + aosDirectMapBase) := by
            refine ⟨hcand, fun hrev => ?_⟩
            by_contra hsum
            exact hbad ⟨hrev, hsum⟩
          rw [if_neg hbad, Option.filter_some_pos (by simpa using hvalid)]
      · rw [decide_eq_false hcand, if_neg (show ¬ (_ ∧ _) from hcand)]
        have hnext : add64 (base + aosDirectMapBase) 16 = base + 16 + aosDirectMapBase := by
          rw [add64_of_lt (by unfold aosDirectMapBase; omega)]
          omega
        rw [hnext]
        exact ih (by omega)

/-- What the first area decides is returned. -/
theorem acpiFindRsdp_areas (m : PhysMem) :
    acpiFindRsdp m
      = (scanRsdp m (1024 / 16) (add64 (ebdaBase m) aosDirectMapBase)).getD
          ((scanRsdp m (0x20000 / 16) (add64 0xE0000 aosDirectMapBase)).getD none) := by
  have hebda : ebdaBase m = m.load (add64 0x40E aosDirectMapBase) 2 * 16 := by rw [ebdaBase]
  rw [acpiFindRsdp, hebda]
  cases scanRsdp m (1024 / 16)
      (add64 (m.load (add64 0x40E aosDirectMapBase) 2 * 16) aosDirectMapBase) with
  | some found => rw [Option.getD_some]
  | none => rw [Option.getD_none]

/-- The function, as one search over both areas. -/
theorem acpiFindRsdp_eq (m : PhysMem) :
    acpiFindRsdp m
      = ((rsdpAddresses m).find? (fun addr => decide (RsdpCandidate m addr))).filter
          (fun addr => decide (RsdpValid m addr)) := by
  have hebda := ebdaBase_lt m
  have h0 : add64 (ebdaBase m) aosDirectMapBase = ebdaBase m + aosDirectMapBase :=
    add64_of_lt (by unfold aosDirectMapBase; omega)
  have h1 : add64 0xE0000 aosDirectMapBase = 0xE0000 + aosDirectMapBase :=
    add64_of_lt (by decide)
  rw [acpiFindRsdp_areas, h0, h1, scanRsdp_eq _ (by omega), scanRsdp_eq _ (by omega)]
  unfold rsdpAddresses
  rw [List.find?_append]
  cases (areaAddresses (ebdaBase m) (1024 / 16)).find?
      (fun addr => decide (RsdpCandidate m addr)) with
  | some addr => rfl
  | none =>
      rw [Option.map_none, Option.none_or]
      cases (areaAddresses 0xE0000 (0x20000 / 16)).find?
          (fun addr => decide (RsdpCandidate m addr)) with
      | some addr => rfl
      | none => rfl

/-- The function returns the first valid address, or `NULL` where there is
    none, exactly when no address is valid or the first candidate is. -/
theorem acpi_find_rsdp_first_iff (m : PhysMem) :
    acpiFindRsdp m = firstRsdp m ↔
      (∀ addr ∈ rsdpAddresses m, ¬ RsdpValid m addr) ∨
        ∃ addr, (rsdpAddresses m).find? (fun addr => decide (RsdpCandidate m addr)) = some addr ∧
          RsdpValid m addr := by
  have himp : ∀ addr, decide (RsdpValid m addr) = true → decide (RsdpCandidate m addr) = true := by
    intro addr h
    exact decide_eq_true (of_decide_eq_true h).1
  unfold firstRsdp
  rw [acpiFindRsdp_eq, FirstMatch.filter_find?_eq_iff himp]
  simp only [ne_eq, decide_eq_true_eq]

/-- At 0 a descriptor of revision 2 with a wrong last sum, at 48 one of
    revision 0 that is right. -/
def hiddenRsdp : PhysMem := fun p =>
  ([0x52, 0x53, 0x44, 0x20, 0x50, 0x54, 0x52, 0x20, 223, 0, 0, 0, 0, 0, 0, 2, 0, 0, 0, 0, 1] ++
    List.replicate 27 0 ++
    [0x52, 0x53, 0x44, 0x20, 0x50, 0x54, 0x52, 0x20, 225] : List UInt8).getD p 0

/-- The descriptor at 48 is valid and is not found. -/
theorem acpi_find_rsdp_hidden :
    acpiFindRsdp hiddenRsdp = none ∧
      firstRsdp hiddenRsdp = some (48 + aosDirectMapBase) ∧
      acpiFindRsdp hiddenRsdp ≠ firstRsdp hiddenRsdp := by
  have hfind : acpiFindRsdp hiddenRsdp = none := by decide
  have hfirst : firstRsdp hiddenRsdp = some (48 + aosDirectMapBase) := by
    have harea : ebdaBase hiddenRsdp = 0 := by decide
    unfold firstRsdp rsdpAddresses
    rw [harea, areaAddresses_succ, areaAddresses_succ, areaAddresses_succ, areaAddresses_succ]
    decide
  rw [hfind, hfirst]
  exact ⟨rfl, rfl, fun hc => by cases hc⟩

end Scan

end Pfi
