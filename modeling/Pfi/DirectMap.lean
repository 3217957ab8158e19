import Pfi.FirmwareReach

/-! # How far the direct map reaches

    The loop over the memory map maps each entry together with the hole before
    it, from the end of the last entry on.  Two things are lost at the end.
    The limit of the processor is tested on the end of an entry, which is its
    first byte beyond, so an entry that ends exactly at the limit ends the
    loop.  And `pager_map_range` counts 4 KiB steps from the start: when that
    is not aligned, the last page of the range can be missed.  The next entry
    starts in that page and maps it, but after the last one nobody does.

    So the loop maps the pages up to `directPages`, which depends on the ends
    of the last two entries below the limit only, and no page beyond them
    (`DirectCovered`). -/

namespace Pfi

open Words

/-! ## What the map asks for -/

/-- The ends of the entries that lie below `limit`, in the order of the
    map. -/
def endsBelow (e820 : List E820Entry) (limit : Nat) : List Nat :=
  (e820.map (fun e => e.base + e.len)).filter (fun x => decide (x < limit))

/-- The end of the last entry whose end is at most `limit`, `0` if there is
    none. -/
def mapEnd (e820 : List E820Entry) (limit : Nat) : Nat :=
  ((e820.map (fun e => e.base + e.len)).filter (fun x => decide (x ≤ limit))).getLast?.getD 0

/-- The last two of a list of ends, behind those in `r`. -/
def lastTwo (r : Nat × Nat) (ends : List Nat) : Nat × Nat :=
  ends.foldl (fun r x => (r.2, x)) r

/-- The pages below the last page that is mapped when the last range is the
    one from `r.1` to `r.2`. -/
def pagesUpTo (r : Nat × Nat) : Nat := r.1 / 4096 + (r.2 - r.1 + 4095) / 4096

/-- The pages of the direct map. -/
def directPages (e820 : List E820Entry) (limit : Nat) : Nat :=
  pagesUpTo (lastTwo (0, 0) (endsBelow e820 limit))

/-- `pager_init` up to the end of the loop over the direct map. -/
def directMapLoop (mem : Nat → Fin 512 → Nat) (e820 : List E820Entry) (bits retries : Nat) :
    Option Machine :=
  (allocPml4 retries (initAvmf (bootMachine mem) e820 bits)).map (mapDirect e820 0)

/-- Every byte below the end is translated. -/
def DirectComplete (e820 : List E820Entry) (bits : Nat) (m : Machine) : Prop :=
  ∀ p, p < mapEnd e820 (2 ^ bits) →
    (hwWalk m.mem m.root (aosDirectMapBase + p)).map Prod.fst = some p

/-! ## The loop -/

/-- The direct map when the last range was the one from `r.1` to `r.2`. -/
structure DirectCovered (r : Nat × Nat) (m : Machine) : Prop where
  mapped : DirectMapped r.2 m
  identity : ∀ p, p / 4096 < pagesUpTo r →
    (hwWalk m.mem m.root (aosDirectMapBase + p)).map Prod.fst = some p
  beyond : ∀ n, walkPage m.mem m.root n ≠ none → n % 2 ^ 36 < 2 ^ 35 + pagesUpTo r

/-- All pages below the end are covered, but perhaps the last. -/
theorem pagesUpTo_bounds {r : Nat × Nat} (h : r.1 ≤ r.2) :
    r.2 / 4096 ≤ pagesUpTo r ∧ 4096 * pagesUpTo r < r.2 + 4096 := by
  unfold pagesUpTo
  omega

theorem EmptyPml4.directCovered {m : Machine} (h : EmptyPml4 m) (hbits : m.cpuPhysBits ≤ 52) :
    DirectCovered (0, 0) m := by
  refine ⟨h.directMapped hbits, fun p hp => absurd hp (Nat.not_lt_zero _), ?_⟩
  intro n hn
  exact absurd (h.walkPage n) hn

/-- One entry. -/
theorem DirectCovered.step {r : Nat × Nat} {m : Machine} {endAddr flags : Nat}
    (h : DirectCovered r m) (hr : r.1 ≤ r.2) (hend : endAddr ≤ 2 ^ 47)
    (hcpu : endAddr < 2 ^ m.cpuPhysBits) (hlt : r.2 < endAddr) (hflags : flags / 128 % 2 = 0)
    (hlog : TablesGranted
      (pagerMapRange m (aosDirectMapBase + r.2) r.2 (endAddr - r.2) flags)) :
    DirectCovered (r.2, endAddr)
      (pagerMapRange m (aosDirectMapBase + r.2) r.2 (endAddr - r.2) flags) := by
  have hstep := h.mapped.step hend hcpu (Nat.le_of_lt hlt) hflags hlog
  have hargs := directArgs flags h.mapped.bits hend hcpu (Nat.le_of_lt hlt) hflags
  have hregs := sameRegs_pagerMapRange m (aosDirectMapBase + r.2) r.2 (endAddr - r.2) flags
  have hrange := pagerMapRange_mapped hargs h.mapped.ok (h.mapped.small hend) hlog
  have hbase : (aosDirectMapBase + r.2) / 4096 = 2 ^ 52 - 2 ^ 35 + r.2 / 4096 := by
    simp only [aosDirectMapBase]
    omega
  obtain ⟨hlower, hupper⟩ := pagesUpTo_bounds hr
  have hnew : pagesUpTo (r.2, endAddr) = r.2 / 4096 + (endAddr - r.2 + 4095) / 4096 := rfl
  generalize pagerMapRange m (aosDirectMapBase + r.2) r.2 (endAddr - r.2) flags = m'
    at hstep hregs hrange ⊢
  refine ⟨hstep, ?_, ?_⟩
  · intro p hp
    rw [hnew] at hp
    rw [hregs.root]
    by_cases hin : r.2 / 4096 ≤ p / 4096
    · -- a page of the range
      rw [hrange.page hargs (k := p / 4096 - r.2 / 4096) (by omega)
        (by rw [hbase]; simp only [aosDirectMapBase]; omega)]
      simp only [aosDirectMapBase]
      exact congrArg some (by omega)
    · -- a page below the range is as it was
      have hsame : walkPage m'.mem m.root ((aosDirectMapBase + p) / pageSize)
          = walkPage m.mem m.root ((aosDirectMapBase + p) / pageSize) := by
        refine hrange.outside _ (fun k _ hk hkey => ?_)
        rw [hbase] at hkey
        simp only [aosDirectMapBase, pageSize] at hkey
        omega
      have hold := h.identity p (by omega)
      unfold hwWalk at hold ⊢
      rw [hsame]
      exact hold
  · intro n hn
    rw [hregs.root] at hn
    rw [hnew]
    rcases hrange.cases n with ⟨k, hk, hkey, -⟩ | hsame
    · rw [hbase] at hkey
      omega
    · rw [hsame] at hn
      have hold := h.beyond n hn
      omega

theorem endsBelow_cons (e : E820Entry) (es : List E820Entry) (limit : Nat) :
    endsBelow (e :: es) limit
      = if e.base + e.len < limit then (e.base + e.len) :: endsBelow es limit
        else endsBelow es limit := by
  unfold endsBelow
  rw [List.map_cons, List.filter_cons]
  simp only [decide_eq_true_eq]

/-- Behind an entry that ends beyond the limit all do. -/
theorem endsBelow_none {es : List E820Entry} {limit : Nat}
    (h : ∀ e ∈ es, limit ≤ e.base) : endsBelow es limit = [] := by
  unfold endsBelow
  refine List.filter_eq_nil_iff.mpr ?_
  intro x hx
  obtain ⟨e, he, rfl⟩ := List.mem_map.mp hx
  have := h e he
  simp only [decide_eq_true_eq]
  omega

/-- The loop over the map. -/
theorem mapDirect_covered {e820 : List E820Entry} {bits top : Nat} {r : Nat × Nat} {m : Machine}
    (hmap : E820Ok e820 bits top) (htop : top ≤ 2 ^ 47) (hlen : ∀ e ∈ e820, 0 < e.len)
    (hbits : m.cpuPhysBits = bits) (hr : r.1 ≤ r.2) (hlast : ∀ e ∈ e820, r.2 ≤ e.base)
    (h : DirectCovered r m) (hlog : TablesGranted (mapDirect e820 r.2 m)) :
    (lastTwo r (endsBelow e820 (2 ^ bits))).1 ≤ (lastTwo r (endsBelow e820 (2 ^ bits))).2 ∧
      DirectCovered (lastTwo r (endsBelow e820 (2 ^ bits))) (mapDirect e820 r.2 m) := by
  induction e820 generalizing r m with
  | nil => exact ⟨hr, h⟩
  | cons e es ih =>
      have hsorted := List.pairwise_cons.mp hmap.sorted
      have htail : E820Ok es bits top :=
        ⟨hsorted.2, fun e' he' => hmap.words e' (List.mem_cons_of_mem e he'),
          fun e' he' => hmap.direct e' (List.mem_cons_of_mem e he')⟩
      have hbase := hlast e List.mem_cons_self
      have hword := hmap.words e List.mem_cons_self
      have hpos := hlen e List.mem_cons_self
      rw [mapDirect_cons es hbase hword hpos h.mapped.bits, hbits] at hlog ⊢
      rw [endsBelow_cons]
      by_cases hexceeds : 2 ^ bits ≤ e.base + e.len
      · -- the loop ends here, and no later entry lies below the limit
        rw [if_pos hexceeds, if_neg (Nat.not_lt_of_le hexceeds), endsBelow_none]
        · exact ⟨hr, h⟩
        · exact fun e' he' => Nat.le_trans hexceeds (hsorted.1 e' he')
      · rw [if_neg hexceeds] at hlog ⊢
        rw [if_pos (Nat.lt_of_not_le hexceeds)]
        have hend := hmap.direct e List.mem_cons_self (Nat.lt_of_not_le hexceeds)
        rw [add64_of_lt (by simp only [aosDirectMapBase]; omega)] at hlog ⊢
        have hregs := sameRegs_pagerMapRange m (aosDirectMapBase + r.2) r.2
          (e.base + e.len - r.2) (pagePresent ||| pageRw ||| pagePcd)
        have hstep := @DirectCovered.step _ _ _ (pagePresent ||| pageRw ||| pagePcd) h hr
          (Nat.le_trans hend htop) (by rw [hbits]; omega) (by omega) (by decide)
          (hlog.of_mono (fun x hx => mapDirect_log_mono es _ _ hx))
        exact ih (r := (r.2, e.base + e.len)) htail
          (fun e' he' => hlen e' (List.mem_cons_of_mem e he')) (hregs.cpuPhysBits.trans hbits)
          (by dsimp only; omega) (fun e' he' => hsorted.1 e' he') hstep hlog

/-! ## The whole map -/

section Loop

variable {mem : Nat → Fin 512 → Nat} {e820 : List E820Entry} {bits retries : Nat} {m : Machine}

/-- The end is the end of an entry, or 0. -/
theorem mapEnd_le (e820 : List E820Entry) (limit : Nat) : mapEnd e820 limit ≤ limit := by
  unfold mapEnd
  generalize hends : (e820.map (fun e => e.base + e.len)).filter (fun x => decide (x ≤ limit))
    = ends
  cases hlast : ends.getLast? with
  | none => exact Nat.zero_le limit
  | some x =>
      have hx := List.mem_of_getLast? hlast
      rw [← hends] at hx
      exact of_decide_eq_true (List.mem_filter.mp hx).2

theorem directMapLoop_covered (hmap : E820Ok e820 bits (2 ^ 45)) (hlen : ∀ e ∈ e820, 0 < e.len)
    (hbits : 32 ≤ bits ∧ bits ≤ 45) (hres : directMapLoop mem e820 bits retries = some m)
    (hlog : TablesGranted m) :
    DirectCovered (lastTwo (0, 0) (endsBelow e820 (2 ^ bits))) m := by
  obtain ⟨m₁, hpml4, rfl⟩ := Option.map_eq_some_iff.mp hres
  have hlog1 : TablesGranted m₁ := hlog.of_mono (fun x hx => mapDirect_log_mono _ _ _ hx)
  obtain ⟨hempty, -, hbits1⟩ := initPml4 hpml4 hlog1
  exact (mapDirect_covered (r := (0, 0)) hmap (by decide) hlen hbits1 (Nat.le_refl 0)
    (fun e _ => Nat.zero_le _) (hempty.directCovered (by omega)) hlog).2

/-- The direct map is complete if and only if the end of the map lies in the
    pages that the loop maps. -/
theorem direct_complete_iff
    (hsorted : e820.Pairwise (fun e e' => e.base + e.len ≤ e'.base))
    (hlen : ∀ e ∈ e820, 0 < e.len) (hword : ∀ e ∈ e820, e.base + e.len < 2 ^ 64)
    (hbits : 32 ≤ bits ∧ bits ≤ 45) (hres : directMapLoop mem e820 bits retries = some m)
    (hlog : TablesGranted m) :
    DirectComplete e820 bits m ↔ mapEnd e820 (2 ^ bits) ≤ 4096 * directPages e820 (2 ^ bits) := by
  have hpow : 2 ^ bits ≤ 2 ^ 45 := Nat.pow_le_pow_right (by decide) hbits.2
  have hend := mapEnd_le e820 (2 ^ bits)
  have hcovered := directMapLoop_covered
    ⟨hsorted, hword, fun e _ h => Nat.le_trans (Nat.le_of_lt h) hpow⟩ hlen hbits hres hlog
  constructor
  · intro hcomplete
    by_contra hc
    -- the first byte that is not covered
    have hp := hcomplete (4096 * directPages e820 (2 ^ bits)) (Nat.lt_of_not_le hc)
    have hmapped : walkPage m.mem m.root
        ((aosDirectMapBase + 4096 * directPages e820 (2 ^ bits)) / pageSize) ≠ none := by
      intro hnone
      unfold hwWalk at hp
      rw [hnone] at hp
      cases hp
    have hin := hcovered.beyond _ hmapped
    change _ < 2 ^ 35 + directPages e820 (2 ^ bits) at hin
    simp only [aosDirectMapBase, pageSize] at hin
    omega
  · intro hle p hp
    refine hcovered.identity p ?_
    change p / 4096 < directPages e820 (2 ^ bits)
    omega

end Loop

/-! ## Maps -/

/-- `pager_init` comes to the end of the loop. -/
theorem pagerInit_loop {mem : Nat → Fin 512 → Nat} {e820 : List E820Entry} {bits retries : Nat}
    {m : Machine} (hres : pagerInit (bootMachine mem) e820 bits retries = some m)
    (hlog : TablesGranted m) :
    ∃ m', directMapLoop mem e820 bits retries = some m' ∧ TablesGranted m' := by
  obtain ⟨m₁, hpml4, rfl⟩ := buildTables_some (m := initAvmf (bootMachine mem) e820 bits) rfl hres
  refine ⟨mapDirect e820 0 m₁, ?_, ?_⟩
  · unfold directMapLoop
    rw [hpml4]
    rfl
  · exact hlog.of_loaded.of_mono (fun x hx => mapIdentity_log_mono _ hx)

/-- On the small map the direct map is complete. -/
theorem direct_complete_small :
    ∃ m, directMapLoop (fun _ _ => 0) smallE820 36 1 = some m ∧
      DirectComplete smallE820 36 m := by
  obtain ⟨m, hres, hlen, hstock⟩ := smallE820_init (fun _ _ => 0)
  obtain ⟨m', hloop, hlog⟩ := pagerInit_loop hres (hstock (by omega)).1
  exact ⟨m', hloop, (direct_complete_iff smallE820_ok.sorted (by decide) smallE820_ok.words
    (by decide) hloop hlog).mpr (by decide)⟩

/-- The small map with two entries whose common end is not at a page. -/
def unalignedE820 : List E820Entry :=
  smallE820 ++ [⟨0x800000, 0x800, e820TypeReserved⟩, ⟨0x800800, 0x1000, e820TypeReserved⟩]

/-- The map that the firmware builds ends at 4 GiB, with the flash memory: on
    a processor with 32 address bits it is not mapped.  And the last half page
    of the other map is not. -/
theorem direct_incomplete :
    (∃ m, directMapLoop (fun _ _ => 0) basicE820 32 1 = some m ∧ TablesGranted m ∧
      ¬ DirectComplete basicE820 32 m) ∧
    ∃ m, directMapLoop (fun _ _ => 0) unalignedE820 36 1 = some m ∧ TablesGranted m ∧
      ¬ DirectComplete unalignedE820 36 m := by
  constructor
  · have hmap : E820Ok basicE820 32 (2 ^ 45) := ⟨by decide, by decide, by decide⟩
    obtain ⟨m, hres, hlen, hstock⟩ := pagerInit_succeeds (fun _ _ => 0) 1 hmap (by decide)
      (by decide) Nat.one_pos
      (supply_init (g := 0x300) (e := 0x10000) (N := 64000) (by decide) (by decide) (by decide)
        (by decide) (by decide)) (by decide)
    have hneeded : tablesNeeded basicE820 ≤ 64000 := by decide
    obtain ⟨m', hloop, hlog⟩ := pagerInit_loop hres (hstock (by omega)).1
    refine ⟨m', hloop, hlog, fun hc => ?_⟩
    have hle := (direct_complete_iff hmap.sorted (by decide) hmap.words (by decide) hloop
      hlog).mp hc
    revert hle
    decide
  · have hmap : E820Ok unalignedE820 36 (2 ^ 45) := ⟨by decide, by decide, by decide⟩
    obtain ⟨m, hres, hlen, hstock⟩ := pagerInit_succeeds (fun _ _ => 0) 1 hmap (by decide)
      (by decide) Nat.one_pos
      (supply_init (g := 0x300) (e := 0x800) (N := 1000) (by decide) (by decide) (by decide)
        (by decide) (by decide)) (by decide)
    have hneeded : tablesNeeded unalignedE820 ≤ 1000 := by decide
    obtain ⟨m', hloop, hlog⟩ := pagerInit_loop hres (hstock (by omega)).1
    refine ⟨m', hloop, hlog, fun hc => ?_⟩
    have hle := (direct_complete_iff hmap.sorted (by decide) hmap.words (by decide) hloop
      hlog).mp hc
    revert hle
    decide

end Pfi
