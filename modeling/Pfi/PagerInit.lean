import Pfi.MemoryRuns

/-! # What `pager_init` leaves

    The tables that `pager_init` loads, on any memory map that is sorted and
    disjoint and fits the direct map.  The direct map is built entry by entry;
    `DirectMapped` says that at each entry no page at or beyond the end of the
    last one is mapped, so a 2 MiB leaf is never split (`mapDirect_mapped`).
    The three windows then translate their addresses to themselves, and no
    other page is mapped (`pagerInit_done`). -/

namespace Pfi

open Words RadixTable Run

/-! ## Memory maps and windows -/

/-- A memory map that is sorted and disjoint, and whose entries, as far as
    the processor can address them, lie in the first `top` bytes. -/
structure E820Ok (e820 : List E820Entry) (bits top : Nat) : Prop where
  sorted : e820.Pairwise (fun e e' => e.base + e.len ≤ e'.base)
  words : ∀ e ∈ e820, e.base + e.len < 2 ^ 64
  direct : ∀ e ∈ e820, e.base + e.len < 2 ^ bits → e.base + e.len ≤ top

/-- The map that the firmware builds, on a processor that addresses all of
    it. -/
theorem basicE820_ok : E820Ok basicE820 36 (2 ^ 45) :=
  ⟨by decide, by decide, by decide⟩

/-- The addresses that `pager_init` identity-maps for the firmware. -/
def InWindow (a : Nat) : Prop :=
  a < 0x80000 ∨ (0x100000 ≤ a ∧ a < 0x300000) ∨ (0xFF000000 ≤ a ∧ a < 0x100000000)

instance (a : Nat) : Decidable (InWindow a) := inferInstanceAs (Decidable (_ ∨ _))

/-- Page `n` lies in the first `top` bytes of the direct map. -/
def DirectPage (top n : Nat) : Prop :=
  2 ^ 35 ≤ n % 2 ^ 36 ∧ 4096 * (n % 2 ^ 36 - 2 ^ 35) < top

/-- Page `n` lies in the window of the firmware code. -/
def CodePage (n : Nat) : Prop := 0xFF000 ≤ n % 2 ^ 36 ∧ n % 2 ^ 36 < 0x100000

/-! ## The direct map -/

/-- The direct map as far as the entries up to `last` are done: what is mapped
    starts below `last`, and what is mapped by 2 MiB leaves ends there. -/
structure DirectMapped (last : Nat) (m : Machine) : Prop where
  ok : TablesOk m
  bits : m.cpuPhysBits ≤ 52
  pages : ∀ n, walkPage m.mem m.root n ≠ none → DirectPage last n
  huge : ∀ n, hugeAt m.mem m.root n = true →
    2 ^ 35 ≤ n % 2 ^ 36 ∧ 4096 * (n % 2 ^ 36 - 2 ^ 35) + 4096 ≤ last

/-- An empty PML4 maps nothing. -/
theorem EmptyPml4.directMapped {m : Machine} (h : EmptyPml4 m) (hbits : m.cpuPhysBits ≤ 52) :
    DirectMapped 0 m := by
  refine ⟨h.tablesOk, hbits, ?_, ?_⟩
  · intro n hn
    exact absurd (h.walkPage n) hn
  · intro n hn
    obtain ⟨e, he⟩ := hugeAt_iff.mp hn
    rw [h.walkPage] at he
    cases he

/-- An entry that starts at or after the end of the last one is mapped from
    there on. -/
theorem directStart_eq {last : Nat} {e : E820Entry} (h : last ≤ e.base) :
    directStart last e = last := by
  unfold directStart
  by_cases hlt : last < e.base
  · rw [if_pos hlt]
  · rw [if_neg hlt]
    omega

theorem directLen_eq {last : Nat} {e : E820Entry} (h : last ≤ e.base)
    (hword : e.base + e.len < 2 ^ 64) : directLen last e = e.base + e.len - last := by
  unfold directLen
  by_cases hlt : last < e.base
  · rw [if_pos hlt, add64_of_lt (by omega)]
    omega
  · rw [if_neg hlt]
    omega

/-- The loop at an entry that is not empty and starts at or after the end of
    the last one. -/
theorem mapDirect_cons {last : Nat} {e : E820Entry} {m : Machine} (es : List E820Entry)
    (hbase : last ≤ e.base) (hword : e.base + e.len < 2 ^ 64) (hlen : 0 < e.len)
    (hbits : m.cpuPhysBits ≤ 52) :
    mapDirect (e :: es) last m
      = if 2 ^ m.cpuPhysBits ≤ e.base + e.len then m
        else mapDirect es (e.base + e.len)
          (pagerMapRange m (add64 aosDirectMapBase last) last (e.base + e.len - last)
            (pagePresent ||| pageRw ||| pagePcd)) := by
  have hexceeds : exceedsCpu m (e.base + e.len) = true ↔ 2 ^ m.cpuPhysBits ≤ e.base + e.len := by
    rw [exceedsCpu_eq hbits hword, decide_eq_true_eq]
  simp only [mapDirect]
  rw [if_neg (Nat.not_lt_of_le hlen), directStart_eq hbase, directLen_eq hbase hword,
    add64_of_lt (by omega), show last + (e.base + e.len - last) = e.base + e.len by omega]
  by_cases hend : 2 ^ m.cpuPhysBits ≤ e.base + e.len
  · rw [if_pos (hexceeds.mpr hend), if_pos hend]
  · rw [if_neg (fun hc => hend (hexceeds.mp hc)), if_neg hend]

/-- An empty entry is skipped. -/
theorem mapDirect_skip {last : Nat} {e : E820Entry} {m : Machine} (es : List E820Entry)
    (hlen : e.len < 1) : mapDirect (e :: es) last m = mapDirect es last m := if_pos hlen

section Direct

variable {m : Machine} {last endAddr flags : Nat}

/-- The arguments of the range call for one entry. -/
theorem directArgs (flags : Nat) (hbits : m.cpuPhysBits ≤ 52) (hend : endAddr ≤ 2 ^ 47)
    (hcpu : endAddr < 2 ^ m.cpuPhysBits) (hle : last ≤ endAddr) (hflags : flags / 128 % 2 = 0) :
    RangeArgs m (aosDirectMapBase + last) last (endAddr - last) flags := by
  refine ⟨hbits, ?_, ?_, ?_, ?_, hflags⟩
  · simp only [aosDirectMapBase]
    omega
  · simp only [aosDirectMapBase]
    omega
  · omega
  · omega

/-- What is mapped by 2 MiB leaves ends before the range of the entry. -/
theorem DirectMapped.small (h : DirectMapped last m) (hend : endAddr ≤ 2 ^ 47) :
    ∀ k, 4096 * k < endAddr - last →
      hugeAt m.mem m.root ((aosDirectMapBase + last) / 4096 + k) = false := by
  intro k hk
  by_contra hc
  have := h.huge _ (Bool.not_eq_false _ ▸ hc)
  simp only [aosDirectMapBase] at this
  omega

/-- One entry of the map. -/
theorem DirectMapped.step (h : DirectMapped last m) (hend : endAddr ≤ 2 ^ 47)
    (hcpu : endAddr < 2 ^ m.cpuPhysBits) (hle : last ≤ endAddr) (hflags : flags / 128 % 2 = 0)
    (hlog : TablesGranted
      (pagerMapRange m (aosDirectMapBase + last) last (endAddr - last) flags)) :
    DirectMapped endAddr
      (pagerMapRange m (aosDirectMapBase + last) last (endAddr - last) flags) := by
  have hargs := directArgs flags h.bits hend hcpu hle hflags
  have hbase : (aosDirectMapBase + last) / 4096 = 2 ^ 52 - 2 ^ 35 + last / 4096 := by
    simp only [aosDirectMapBase]
    omega
  have hregs := sameRegs_pagerMapRange m (aosDirectMapBase + last) last (endAddr - last) flags
  have hmapped := pagerMapRange_mapped hargs h.ok (h.small hend) hlog
  generalize pagerMapRange m (aosDirectMapBase + last) last (endAddr - last) flags = m'
    at hregs hmapped ⊢
  refine ⟨hmapped.ok, by rw [hregs.cpuPhysBits]; exact h.bits, ?_, ?_⟩
  · intro n hn
    rw [hregs.root] at hn
    rcases hmapped.cases n with ⟨k, hk, hkey, -⟩ | hsame
    · rw [hbase] at hkey
      unfold DirectPage
      omega
    · rw [hsame] at hn
      have hold := h.pages n hn
      unfold DirectPage at hold ⊢
      omega
  · intro n hn
    rw [hregs.root] at hn
    rcases hmapped.huge_cases hn with ⟨k, hhuge, hkey⟩ | hold
    · have hfits := hhuge.fits
      have hstarts := hhuge.starts
      have hvirt := hhuge.virtPage
      unfold rangeSlot at hfits
      rw [hbase] at hkey hfits hstarts
      simp only [aosDirectMapBase] at hvirt
      omega
    · have hdone := h.huge n hold
      omega

end Direct

/-- A page-table allocation keeps what is logged. -/
theorem allocPageTable_log_mono {x : Nat} (m : Machine) (hx : x ∈ m.tableLog) :
    x ∈ (allocPageTable m).m.tableLog := by
  obtain ⟨y, hlog⟩ := allocPageTable_log m
  rw [hlog]
  exact List.mem_append_left _ hx

theorem mapDirect_log_mono (e820 : List E820Entry) (last : Nat) (m : Machine) {x : Nat}
    (hx : x ∈ m.tableLog) : x ∈ (mapDirect e820 last m).tableLog :=
  mapDirect_keeps (P := fun _ log => x ∈ log) allocPageTable_log_mono _ _ hx

/-- The loop over the map. -/
theorem mapDirect_mapped {e820 : List E820Entry} {bits top last : Nat} {m : Machine}
    (hmap : E820Ok e820 bits top) (htop : top ≤ 2 ^ 47) (hbits : m.cpuPhysBits = bits)
    (hlast : ∀ e ∈ e820, last ≤ e.base) (hle : last ≤ top) (h : DirectMapped last m)
    (hlog : TablesGranted (mapDirect e820 last m)) :
    ∃ last', last' ≤ top ∧ DirectMapped last' (mapDirect e820 last m) := by
  induction e820 generalizing last m with
  | nil => exact ⟨last, hle, h⟩
  | cons e es ih =>
      have hsorted := List.pairwise_cons.mp hmap.sorted
      have htail : E820Ok es bits top :=
        ⟨hsorted.2, fun e' he' => hmap.words e' (List.mem_cons_of_mem e he'),
          fun e' he' => hmap.direct e' (List.mem_cons_of_mem e he')⟩
      have hbase := hlast e List.mem_cons_self
      have hword := hmap.words e List.mem_cons_self
      by_cases hlen : e.len < 1
      · rw [mapDirect_skip es hlen] at hlog ⊢
        exact ih htail hbits (fun e' he' => hlast e' (List.mem_cons_of_mem e he')) hle h hlog
      · rw [mapDirect_cons es hbase hword (Nat.le_of_not_lt hlen) h.bits] at hlog ⊢
        by_cases hexceeds : 2 ^ m.cpuPhysBits ≤ e.base + e.len
        · rw [if_pos hexceeds]
          exact ⟨last, hle, h⟩
        · rw [if_neg hexceeds] at hlog ⊢
          have hend := hmap.direct e List.mem_cons_self (by rw [← hbits]; omega)
          rw [add64_of_lt (by simp only [aosDirectMapBase]; omega)] at hlog ⊢
          have hregs := sameRegs_pagerMapRange m (aosDirectMapBase + last) last
            (e.base + e.len - last) (pagePresent ||| pageRw ||| pagePcd)
          refine ih htail (hregs.cpuPhysBits.trans hbits) (fun e' he' => hsorted.1 e' he') hend
            (h.step (by omega) (by omega) (by omega) (by decide) ?_) hlog
          exact hlog.of_mono (fun x hx => mapDirect_log_mono es _ _ hx)

/-! ## The windows -/

/-- Tables in which the mapped pages are those of the direct map and of `W`,
    those mapped by 2 MiB leaves are in the direct map or in `H`, and the
    addresses in `W` are translated to themselves. -/
structure InitTables (top : Nat) (W H : Nat → Prop) (m : Machine) : Prop where
  ok : TablesOk m
  bits : 32 ≤ m.cpuPhysBits ∧ m.cpuPhysBits ≤ 52
  pages : ∀ n, walkPage m.mem m.root n ≠ none → DirectPage top n ∨ W (4096 * (n % 2 ^ 36))
  huge : ∀ n, hugeAt m.mem m.root n = true → DirectPage top n ∨ H n
  identity : ∀ a, W a → (hwWalk m.mem m.root a).map Prod.fst = some a

theorem DirectMapped.initTables {last top : Nat} {m : Machine} (h : DirectMapped last m)
    (hle : last ≤ top) (hbits : 32 ≤ m.cpuPhysBits) :
    InitTables top (fun _ => False) (fun _ => False) m := by
  refine ⟨h.ok, ⟨hbits, h.bits⟩, ?_, ?_, fun a ha => False.elim ha⟩
  · intro n hn
    obtain ⟨h1, h2⟩ := h.pages n hn
    exact Or.inl ⟨h1, Nat.lt_of_lt_of_le h2 hle⟩
  · intro n hn
    obtain ⟨h1, h2⟩ := h.huge n hn
    exact Or.inl ⟨h1, by omega⟩

/-- The pages that a window of `size` bytes at `base` takes. -/
def WindowAt (base size a : Nat) : Prop := base ≤ a ∧ 4096 * ((a - base) / 4096) < size

section Window

variable {top base size : Nat} {W H : Nat → Prop} {m : Machine}

/-- The arguments of the range call of a window. -/
theorem InitTables.args (h : InitTables top W H m) (hend : base + size ≤ 2 ^ 32) :
    RangeArgs m base base size (pagePresent ||| pageRw) := by
  have hpow : 2 ^ 32 ≤ 2 ^ m.cpuPhysBits := Nat.pow_le_pow_right (by decide) h.bits.1
  exact ⟨h.bits.2, rfl, by omega, by omega, by omega, by decide⟩

/-- The direct map holds no page of a window. -/
theorem InitTables.small (h : InitTables top W H m) (base size : Nat) (hend : base + size ≤ 2 ^ 32)
    (hno : ∀ k, 4096 * k < size → ¬ H (base / 4096 + k)) :
    ∀ k, 4096 * k < size → hugeAt m.mem m.root (base / 4096 + k) = false := by
  intro k hk
  by_contra hc
  rcases h.huge _ (Bool.not_eq_false _ ▸ hc) with hd | hd
  · unfold DirectPage at hd
    omega
  · exact hno k hk hd

end Window

/-- Mapping one window. -/
theorem InitTables.window {top base size : Nat} {W H H' : Nat → Prop} {m : Machine}
    (h : InitTables top W H m) (hW : ∀ a, W a → a < 2 ^ 32) (hbase : base % 4096 = 0)
    (hend : base + size ≤ 2 ^ 32) (hsmall : ∀ k, 4096 * k < size → ¬ H (base / 4096 + k))
    (hH : ∀ n, H n → H' n)
    (hnew : ∀ n k, RangeHuge base base size k → n % 2 ^ 36 = base / 4096 + k → H' n)
    (hlog : TablesGranted (pagerMapRange m base base size (pagePresent ||| pageRw))) :
    InitTables top (fun a => W a ∨ WindowAt base size a) H'
      (pagerMapRange m base base size (pagePresent ||| pageRw)) := by
  have hargs : RangeArgs m base base size (pagePresent ||| pageRw) := h.args hend
  have hregs := sameRegs_pagerMapRange m base base size (pagePresent ||| pageRw)
  have hmapped := pagerMapRange_mapped hargs h.ok (h.small _ _ hend hsmall) hlog
  generalize pagerMapRange m base base size (pagePresent ||| pageRw) = m' at hregs hmapped ⊢
  refine ⟨hmapped.ok, by rw [hregs.cpuPhysBits]; exact h.bits, ?_, ?_, ?_⟩
  · -- every page that is mapped is one of the windows
    intro n hn
    rw [hregs.root] at hn
    rcases hmapped.cases n with ⟨k, hk, hkey, -⟩ | hsame
    · right
      right
      unfold WindowAt
      omega
    · rw [hsame] at hn
      rcases h.pages n hn with hd | hw
      · exact Or.inl hd
      · exact Or.inr (Or.inl hw)
  · -- every 2 MiB leaf is one that is known
    intro n hn
    rw [hregs.root] at hn
    rcases hmapped.huge_cases hn with ⟨k, hhuge, hkey⟩ | hold
    · right
      refine hnew n k hhuge ?_
      have hfits := hhuge.fits
      unfold rangeSlot at hfits
      omega
    · rcases h.huge n hold with hd | hh
      · exact Or.inl hd
      · exact Or.inr (hH n hh)
  · -- the windows are mapped to themselves
    intro a ha
    rw [hregs.root]
    by_cases hin : WindowAt base size a
    · rw [hmapped.address hargs hbase hin.1 hin.2, show base + (a - base) = a from
        Nat.add_sub_cancel' hin.1]
    · have hold : W a := by
        rcases ha with hw | hw
        · exact hw
        · exact absurd hw hin
      have hsame : walkPage m'.mem m.root (a / pageSize)
          = walkPage m.mem m.root (a / pageSize) := by
        rcases hmapped.cases (a / pageSize) with ⟨k, hk, hkey, -⟩ | hsame
        · have hlow := hW a hold
          simp only [pageSize] at hkey
          exact absurd ⟨by omega, by omega⟩ hin
        · exact hsame
      unfold hwWalk
      rw [hsame]
      exact h.identity a hold

/-- The addresses of the first window, of the first two, and of all. -/
def CodeWindow (a : Nat) : Prop := False ∨ WindowAt 0xFF000000 0x00FFFFFF a

def StackWindow (a : Nat) : Prop := CodeWindow a ∨ WindowAt 0x0 0x80000 a

def DataWindow (a : Nat) : Prop := StackWindow a ∨ WindowAt 0x100000 0x200000 a

theorem dataWindow_iff {a : Nat} : DataWindow a ↔ InWindow a := by
  simp only [DataWindow, StackWindow, CodeWindow, WindowAt, InWindow, false_or]
  omega

/-- The low windows hold no page of the code window. -/
theorem stack_not_code : ∀ k, 4096 * k < 0x80000 → ¬ CodePage (0x0 / 4096 + k) := by
  intro k hk hc
  unfold CodePage at hc
  omega

theorem data_not_code : ∀ k, 4096 * k < 0x200000 → ¬ CodePage (0x100000 / 4096 + k) := by
  intro k hk hc
  unfold CodePage at hc
  omega

section Windows

variable {top : Nat} {m : Machine}

theorem InitTables.code (h : InitTables top (fun _ => False) (fun _ => False) m)
    (hlog : TablesGranted
      (pagerMapRange m 0xFF000000 0xFF000000 0x00FFFFFF (pagePresent ||| pageRw))) :
    InitTables top CodeWindow CodePage
      (pagerMapRange m 0xFF000000 0xFF000000 0x00FFFFFF (pagePresent ||| pageRw)) := by
  refine h.window (fun a ha => False.elim ha) (by decide) (by decide) (fun k _ hc => hc)
    (fun n hc => False.elim hc) ?_ hlog
  intro n k hr hn
  have hfits := hr.fits
  unfold rangeSlot at hfits
  unfold CodePage
  omega

/-- The stack window is smaller than a 2 MiB page. -/
theorem InitTables.stack (h : InitTables top CodeWindow CodePage m)
    (hlog : TablesGranted (pagerMapRange m 0x0 0x0 0x80000 (pagePresent ||| pageRw))) :
    InitTables top StackWindow CodePage
      (pagerMapRange m 0x0 0x0 0x80000 (pagePresent ||| pageRw)) := by
  refine h.window ?_ (by decide) (by decide) stack_not_code (fun n hc => hc) ?_ hlog
  · intro a ha
    simp only [CodeWindow, WindowAt, false_or] at ha
    omega
  · intro n k hr hn
    have hfits := hr.fits
    omega

/-- The data window is as large as a 2 MiB page, but not aligned to one. -/
theorem InitTables.data (h : InitTables top StackWindow CodePage m)
    (hlog : TablesGranted
      (pagerMapRange m 0x100000 0x100000 0x200000 (pagePresent ||| pageRw))) :
    InitTables top DataWindow CodePage
      (pagerMapRange m 0x100000 0x100000 0x200000 (pagePresent ||| pageRw)) := by
  refine h.window ?_ (by decide) (by decide) data_not_code (fun n hc => hc) ?_ hlog
  · intro a ha
    simp only [StackWindow, CodeWindow, WindowAt, false_or] at ha
    omega
  · intro n k hr hn
    have hfits := hr.fits
    have hstarts := hr.starts
    unfold rangeSlot at hfits
    omega

/-- The three windows. -/
theorem mapIdentity_mapped (h : InitTables top (fun _ => False) (fun _ => False) m)
    (hlog : TablesGranted (mapIdentity m)) :
    InitTables top InWindow CodePage (mapIdentity m) := by
  rw [mapIdentity_eq] at hlog ⊢
  have hlog2 := hlog.of_mono (fun x hx => pagerMapRange_log_mono _ _ _ _ _ hx)
  have hlog1 := hlog2.of_mono (fun x hx => pagerMapRange_log_mono _ _ _ _ _ hx)
  have hdata := ((h.code hlog1).stack hlog2).data hlog
  generalize pagerMapRange _ 0x100000 0x100000 0x200000 _ = m' at hdata ⊢
  refine ⟨hdata.ok, hdata.bits, ?_, hdata.huge, ?_⟩
  · intro n hn
    rcases hdata.pages n hn with hd | hw
    · exact Or.inl hd
    · exact Or.inr (dataWindow_iff.mp hw)
  · intro a ha
    exact hdata.identity a (dataWindow_iff.mpr ha)

end Windows

/-! ## The PML4 -/

theorem allocPml4_done {retries : Nat} {m : Machine} (h : m.firmwarePml4 ≠ 0) :
    allocPml4 retries m = some m := by
  cases retries with
  | zero => exact if_neg h
  | succ retries => exact if_neg h

/-- Before the tables are loaded, a table pointer is a physical address. -/
theorem allocPageTable_ptr {m : Machine} (hoff : m.pagerReady = false) :
    (allocPageTable m).tbl = (allocPageTable m).phys := by
  have hphys : ∀ x, pagerPhysToVirt m x = x := by
    intro x
    unfold pagerPhysToVirt
    rw [hoff]
    rfl
  rcases allocPageTable_cases m with ⟨-, h⟩ | ⟨-, -, h⟩ | ⟨-, tbl, htbl, -, h⟩
  · rw [h]
  · rw [h]
  · rw [h, htbl, hphys]

/-- When every allocation succeeds, the PML4 is the first page obtained, and
    it is empty. -/
theorem allocPml4_empty {retries : Nat} {m m' : Machine} (hpml4 : m.firmwarePml4 = 0)
    (hoff : m.pagerReady = false) (hlog0 : m.tableLog = []) (htouched : m.touched = [])
    (hres : allocPml4 retries m = some m') (hlog : TablesGranted m') :
    EmptyPml4 m' ∧ m'.firmwarePml4 = m'.root * 4096 := by
  cases retries with
  | zero =>
      unfold allocPml4 at hres
      rw [if_pos hpml4] at hres
      cases hres
  | succ retries =>
      simp only [allocPml4] at hres
      rw [if_pos hpml4] at hres
      have hptr := allocPageTable_ptr hoff
      -- the first attempt was granted a page, as every later one only adds to the log
      have hkeep : ∀ r : TableAlloc,
          allocPml4 retries { r.m with firmwarePml4 := r.tbl } = some m' → TablesGranted r.m :=
        fun r hr => hlog.of_mono (fun x hx => allocPml4_keeps (P := fun _ log => x ∈ log)
          allocPageTable_log_mono (m := { r.m with firmwarePml4 := r.tbl }) hx hr)
      obtain ⟨g, hg⟩ := allocPageTable_obtained (hkeep _ hres)
      generalize allocPageTable m = r at hres hptr hg
      have htbl : r.tbl = g * 4096 := hptr.trans hg.phys
      have hne : r.tbl ≠ 0 := by
        have := hg.nonzero
        omega
      rw [allocPml4_done (m := { r.m with firmwarePml4 := r.tbl }) hne] at hres
      rw [← Option.some.inj hres]
      have hroot : Machine.root { r.m with firmwarePml4 := r.tbl } = g := hg.frame
      have hmem := hg.mem
      have hbit := hg.bitmap g
      have hlogs := hg.log
      have htouches := hg.touched
      rw [if_pos rfl] at hbit
      rw [hlog0] at hlogs
      rw [htouched] at htouches
      refine ⟨⟨?_, ?_, ?_, ?_, ?_⟩, ?_⟩
      · intro i
        rw [hroot]
        show r.m.mem g i = 0
        rw [hmem]
        exact if_pos rfl
      · rw [hroot]
        exact hg.inBitmap
      · rw [hroot]
        exact hbit
      · rw [hroot]
        show g * 4096 ∈ r.m.tableLog
        rw [hlogs]
        exact List.mem_cons_self
      · intro f hf
        have hf' : f ∈ r.m.touched := hf
        show f * 4096 ∈ r.m.tableLog
        rw [htouches] at hf'
        rw [hlogs, List.mem_singleton.mp hf']
        exact List.mem_cons_self
      · rw [hroot]
        exact htbl

/-! ## The whole of `pager_init` -/

/-- The statics as the loader leaves them, on any contents of memory. -/
def bootMachine (mem : Nat → Fin 512 → Nat) : Machine := { mem := mem }

/-- What `pager_init` leaves: the tables, loaded. -/
structure InitDone (top bits : Nat) (m : Machine) : Prop where
  tables : InitTables top InWindow CodePage m
  cpuBits : m.cpuPhysBits = bits
  mapped : m.mappedPml4 = m.firmwarePml4
  loaded : m.cr3 = m.firmwarePml4
  pml4 : m.firmwarePml4 = m.root * 4096

theorem TablesGranted.of_loaded {m : Machine} (h : TablesGranted m.loaded) : TablesGranted m :=
  h

theorem TablesOk.loaded {m : Machine} (h : TablesOk m) : TablesOk m.loaded :=
  ⟨h.unshared, h.owned, h.entries, h.touched⟩

theorem InitTables.loaded {top : Nat} {W H : Nat → Prop} {m : Machine}
    (h : InitTables top W H m) : InitTables top W H m.loaded :=
  ⟨h.ok.loaded, h.bits, h.pages, h.huge, h.identity⟩

theorem mapIdentity_log_mono (m : Machine) {x : Nat} (hx : x ∈ m.tableLog) :
    x ∈ (mapIdentity m).tableLog :=
  mapIdentity_keeps (P := fun _ log => x ∈ log) allocPageTable_log_mono hx

theorem initAvmf_started (mem : Nat → Fin 512 → Nat) (e820 : List E820Entry) (bits : Nat) :
    Started (fun i => ((ramRanges e820).getD i (0, 0)).1)
      (fun i => ((ramRanges e820).getD i (0, 0)).2) (ramRanges e820).length
      (initAvmf (bootMachine mem) e820 bits) :=
  .avmf rfl rfl rfl

section Init

variable {mem : Nat → Fin 512 → Nat} {e820 : List E820Entry} {bits retries top : Nat}
  {m : Machine}

theorem pagerInit_started (hres : pagerInit (bootMachine mem) e820 bits retries = some m) :
    Started (fun i => ((ramRanges e820).getD i (0, 0)).1)
      (fun i => ((ramRanges e820).getD i (0, 0)).2) (ramRanges e820).length m :=
  .pager (initAvmf_started mem e820 bits) rfl hres

/-- The PML4 that `pager_init` allocates. -/
theorem initPml4 {m₁ : Machine}
    (hpml4 : allocPml4 retries (initAvmf (bootMachine mem) e820 bits) = some m₁)
    (hlog : TablesGranted m₁) :
    EmptyPml4 m₁ ∧ m₁.firmwarePml4 = m₁.root * 4096 ∧ m₁.cpuPhysBits = bits := by
  obtain ⟨hempty, hptr⟩ := allocPml4_empty (m := initAvmf (bootMachine mem) e820 bits)
    rfl rfl rfl rfl hpml4 hlog
  exact ⟨hempty, hptr, (allocPml4_regs hpml4).2.1⟩

/-- Loading the complete tables. -/
theorem InitTables.done {m₂ : Machine} (h : InitTables top InWindow CodePage m₂)
    (hbits : m₂.cpuPhysBits = bits) (hpml4 : m₂.firmwarePml4 = m₂.root * 4096) :
    InitDone top bits m₂.loaded :=
  ⟨h.loaded, hbits, rfl, rfl, hpml4⟩

/-- On every memory map that fits, when each page table was granted. -/
theorem pagerInit_done (hmap : E820Ok e820 bits top) (htop : top ≤ 2 ^ 47)
    (hbits : 32 ≤ bits ∧ bits ≤ 52)
    (hres : pagerInit (bootMachine mem) e820 bits retries = some m)
    (hlog : TablesGranted m) : InitDone top bits m := by
  obtain ⟨m₁, hpml4, hm⟩ := buildTables_some (m := initAvmf (bootMachine mem) e820 bits) rfl hres
  rw [hm] at hlog ⊢
  have hlog3 := hlog.of_loaded
  have hlog2 := hlog3.of_mono (fun x hx => mapIdentity_log_mono _ hx)
  have hlog1 := hlog2.of_mono (fun x hx => mapDirect_log_mono _ _ _ hx)
  obtain ⟨hempty, hptr, hbits1⟩ := initPml4 hpml4 hlog1
  have hregs := (sameRegs_mapDirect e820 0 m₁).trans (sameRegs_mapIdentity _)
  have hbits2 := (sameRegs_mapDirect e820 0 m₁).cpuPhysBits.trans hbits1
  obtain ⟨last, hle, hdirect⟩ := mapDirect_mapped hmap htop hbits1 (fun e _ => Nat.zero_le _)
    (Nat.zero_le top) (hempty.directMapped (by omega)) hlog2
  have htables := mapIdentity_mapped (hdirect.initTables hle (by omega)) hlog3
  refine htables.done (hregs.cpuPhysBits.trans hbits1) ?_
  rw [hregs.root, hregs.firmwarePml4]
  exact hptr

end Init

/-- The page that `CR3` holds is the root of the tables. -/
theorem InitDone.root {top bits : Nat} {m : Machine} (h : InitDone top bits m) :
    m.cr3 / pageSize = m.root := by
  rw [h.loaded, h.pml4]
  simp only [pageSize]
  omega

end Pfi
