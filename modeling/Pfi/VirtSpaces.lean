import Pfi.Regions
import Pfi.Run

/-! # Virtual spaces

    A run of `avmf_alloc_virt` with the ranges it hands out.  `SpacesOk` says
    that each range is what its caller may expect: page aligned, as long as
    asked, canonical and inside the space of its type.  The bound check of the
    code compares a sum that may wrap with an end that may lie beyond the
    space, and `align4k` itself wraps for the largest sizes.  `Served` is the
    exact condition on a call under which none of this shows
    (`spacesSeparate_iff`). -/

namespace Pfi

open Words Run

/-! ## What a range must satisfy -/

/-- The first address beyond the space of a type: the canonical half for user
    addresses, and the next base for the others. -/
def usableEnd : MemoryAllocType → Nat
  | .unknown => 0
  | .user => 2 ^ 47
  | .kernel => aosDriverSpaceBase
  | .driver => aosSensitiveSpaceBase
  | .sensitive => aosPCIeVirtBase

/-- A range that `avmf_alloc_virt` handed out for a request of `size`
    bytes. -/
structure Grant where
  virt : Nat
  length : Nat
  size : Nat
  type : MemoryAllocType
deriving Repr, DecidableEq

/-- Neither range contains an address of the other. -/
def Grant.ApartFrom (g g' : Grant) : Prop := Apart g.virt g.length g'.virt g'.length

/-- The PCIe, AHCI and xHCI windows, each up to the next. -/
def fixedWindows : List (Nat × Nat) :=
  [(aosPCIeVirtBase, aosAHCIVirtBase), (aosAHCIVirtBase, aosXHCIVirtBase),
    (aosXHCIVirtBase, 2 ^ 64)]

/-- The range is page aligned, as long as asked, canonical, inside the space
    of its type and outside the fixed windows. -/
structure Grant.Ok (g : Grant) : Prop where
  aligned : g.virt % pageSize = 0
  long : g.size ≤ g.length
  canonical : ∀ o, o < g.length → Canonical (g.virt + o)
  inSpace : spaceBase g.type ≤ g.virt ∧
    g.virt + g.length ≤ (if g.type = .sensitive then aosPCIeVirtBase else spaceEnd g.type)
  windows : ∀ w ∈ fixedWindows, ∀ o, o < g.length → ¬ (w.1 ≤ g.virt + o ∧ g.virt + o < w.2)

/-! ## Runs -/

structure VirtCall where
  size : Nat
  type : MemoryAllocType
deriving Repr, DecidableEq

/-- A 64-bit size and one of the four types. -/
def VirtCall.Valid (c : VirtCall) : Prop := c.size < 2 ^ 64 ∧ c.type ≠ .unknown

instance VirtCall.decidableValid (c : VirtCall) : Decidable c.Valid :=
  inferInstanceAs (Decidable (_ ∧ _))

structure VirtRun where
  a : Avmf
  granted : List Grant := []

/-- One call; a request of no bytes is granted an empty range, which is not
    recorded. -/
def VirtRun.step (s : VirtRun) (c : VirtCall) : VirtRun :=
  let r := avmfAllocVirt s.a c.size c.type
  { a := r.2
    granted :=
      if r.1 = 0 ∨ c.size = 0 then s.granted
      else ⟨r.1, align4k c.size, c.size, c.type⟩ :: s.granted }

/-- A call that returns `0` leaves its heap pointer alone. -/
def RefusalKeeps (s : VirtRun) (c : VirtCall) : Prop :=
  (avmfAllocVirt s.a c.size c.type).1 = 0 →
    (avmfAllocVirt s.a c.size c.type).2.heap c.type = s.a.heap c.type

/-- Every range is as it must be, no two meet, and refusals change nothing. -/
structure SpacesSeparate (s : VirtRun) (calls : List VirtCall) : Prop where
  ok : ∀ g ∈ (exec VirtRun.step s calls).granted, g.Ok
  apart : (exec VirtRun.step s calls).granted.Pairwise Grant.ApartFrom
  refusal : Along VirtRun.step RefusalKeeps s calls

/-- The size does not wrap when rounded, and the rounded size either fits in
    the usable space or is beyond what the code compares with, without
    wrap. -/
def Served (s : VirtRun) (c : VirtCall) : Prop :=
  c.size = 0 ∨
    (c.size + 4095 < 2 ^ 64 ∧
      (s.a.heap c.type + align4k c.size ≤ usableEnd c.type ∨
        (heapEnd c.type < s.a.heap c.type + align4k c.size ∧
          s.a.heap c.type + align4k c.size < 2 ^ 64)))

instance (s : VirtRun) (c : VirtCall) : Decidable (Served s c) :=
  inferInstanceAs (Decidable (_ ∨ _ ∧ (_ ∨ _ ∧ _)))

/-! ## The invariant of the heaps -/

/-- Each heap stands inside its usable space, above every range it handed
    out. -/
structure HeapsOk (s : VirtRun) : Prop where
  heap : ∀ t, t ≠ .unknown →
    spaceBase t ≤ s.a.heap t ∧ s.a.heap t ≤ usableEnd t ∧ s.a.heap t % 4096 = 0
  granted : ∀ g ∈ s.granted,
    g.type ≠ .unknown ∧ spaceBase g.type ≤ g.virt ∧ g.virt + g.length ≤ s.a.heap g.type
  ok : ∀ g ∈ s.granted, g.Ok
  apart : s.granted.Pairwise Grant.ApartFrom

theorem usableEnd_le_heapEnd (t : MemoryAllocType) : usableEnd t ≤ heapEnd t := by
  cases t <;> decide

theorem heapEnd_lt (t : MemoryAllocType) : heapEnd t < 2 ^ 64 := by
  cases t <;> decide

theorem usableEnd_apart {t t' : MemoryAllocType} (h : t ≠ t') :
    usableEnd t ≤ spaceBase t' ∨ usableEnd t' ≤ spaceBase t := by
  revert h
  cases t <;> cases t' <;> decide

/-- A range inside the usable space of its type is as it must be. -/
theorem grant_ok {g : Grant} (ht : g.type ≠ .unknown) (haligned : g.virt % 4096 = 0)
    (hlong : g.size ≤ g.length) (hbase : spaceBase g.type ≤ g.virt)
    (hend : g.virt + g.length ≤ usableEnd g.type) : g.Ok := by
  have hbounds : (g.type = .user ∧ g.virt + g.length ≤ 2 ^ 47) ∨
      (2 ^ 64 - 2 ^ 47 ≤ g.virt ∧ g.virt + g.length ≤ aosPCIeVirtBase) := by
    revert hbase hend
    cases hg : g.type with
    | unknown => exact absurd hg ht
    | user => exact fun _ h2 => Or.inl ⟨rfl, h2⟩
    | kernel =>
        intro h1 h2
        simp only [spaceBase, usableEnd, aosKernelSpaceBase, aosDriverSpaceBase] at h1 h2
        exact Or.inr ⟨by omega, by simp only [aosPCIeVirtBase]; omega⟩
    | driver =>
        intro h1 h2
        simp only [spaceBase, usableEnd, aosDriverSpaceBase, aosSensitiveSpaceBase] at h1 h2
        exact Or.inr ⟨by omega, by simp only [aosPCIeVirtBase]; omega⟩
    | sensitive =>
        intro h1 h2
        simp only [spaceBase, usableEnd, aosSensitiveSpaceBase] at h1 h2
        exact Or.inr ⟨by omega, h2⟩
  refine ⟨haligned, hlong, ?_, ⟨hbase, ?_⟩, ?_⟩
  · intro o ho
    unfold Canonical
    rcases hbounds with ⟨-, h⟩ | ⟨h1, h2⟩
    · omega
    · simp only [aosPCIeVirtBase] at h2
      omega
  · by_cases hs : g.type = .sensitive
    · rw [if_pos hs]
      rw [hs] at hend
      exact hend
    · rw [if_neg hs]
      exact Nat.le_trans hend
        (Nat.le_trans (usableEnd_le_heapEnd g.type) (heapEnd_le_spaceEnd g.type))
  · intro w hw o ho hmeet
    have hlow : aosPCIeVirtBase ≤ w.1 :=
      (show ∀ w ∈ fixedWindows, aosPCIeVirtBase ≤ w.1 by decide) w hw
    rcases hbounds with ⟨-, h⟩ | ⟨-, h⟩
    · simp only [aosPCIeVirtBase] at hlow
      omega
    · omega

/-- What `avmf_alloc_virt` returns and does to the heaps. -/
theorem avmfAllocVirt_heap (a : Avmf) (size : Nat) {t : MemoryAllocType} (ht : t ≠ .unknown) :
    (heapEnd t < add64 (a.heap t) (align4k size) ∧ (avmfAllocVirt a size t).1 = 0 ∧
      (avmfAllocVirt a size t).2.heap = a.heap) ∨
    (add64 (a.heap t) (align4k size) ≤ heapEnd t ∧ (avmfAllocVirt a size t).1 = a.heap t ∧
      ∀ t', (avmfAllocVirt a size t).2.heap t'
        = if t' = t then add64 (a.heap t) (align4k size) else a.heap t') := by
  obtain ⟨w, -, hcases⟩ := avmfAllocVirt_cases a size ht
  rcases hcases with ⟨hend, hres⟩ | ⟨hend, hres⟩
  · rw [hres]
    exact Or.inl ⟨hend, rfl, rfl⟩
  · rw [hres]
    refine Or.inr ⟨hend, rfl, fun t' => ?_⟩
    show (if t' = t then add64 (a.heap t') (align4k size) else a.heap t') = _
    by_cases htt : t' = t
    · rw [if_pos htt, if_pos htt, htt]
    · rw [if_neg htt, if_neg htt]

/-- A served call that is granted stays in the usable space, and its sum does
    not wrap. -/
theorem Served.fits {s : VirtRun} {c : VirtCall} (hserved : Served s c)
    (hend : s.a.heap c.type ≤ usableEnd c.type)
    (hfits : add64 (s.a.heap c.type) (align4k c.size) ≤ heapEnd c.type) :
    s.a.heap c.type + align4k c.size ≤ usableEnd c.type := by
  rcases hserved with h0 | ⟨-, hfit | ⟨hbig, hsum⟩⟩
  · rw [h0]
    exact hend
  · exact hfit
  · rw [add64_of_lt hsum] at hfits
    omega

section Advance

variable {s : VirtRun} {a' : Avmf} {t : MemoryAllocType} {n : Nat}

/-- One heap pointer moves up, by whole pages and inside its space. -/
theorem HeapsOk.advance (h : HeapsOk s) (ht : t ≠ .unknown) (hmod : n % 4096 = 0)
    (hsum : s.a.heap t + n ≤ usableEnd t)
    (hheap : ∀ t', a'.heap t' = if t' = t then s.a.heap t + n else s.a.heap t') :
    HeapsOk { s with a := a' } := by
  obtain ⟨hbase, -, halign⟩ := h.heap t ht
  refine ⟨?_, ?_, h.ok, h.apart⟩
  · intro t' ht'
    dsimp only
    rw [hheap t']
    by_cases htt : t' = t
    · rw [if_pos htt, htt]
      exact ⟨by omega, hsum, by omega⟩
    · rw [if_neg htt]
      exact h.heap t' ht'
  · intro g hg
    obtain ⟨h1, h2, h3⟩ := h.granted g hg
    refine ⟨h1, h2, Nat.le_trans h3 ?_⟩
    dsimp only
    rw [hheap g.type]
    by_cases htt : g.type = t
    · rw [if_pos htt, htt]
      exact Nat.le_add_right _ _
    · rw [if_neg htt]

/-- The range that it moved over is apart from those granted before: in its
    own space they lie below it, and the spaces are apart. -/
theorem HeapsOk.apartFrom (h : HeapsOk s) (size : Nat) (hbase : spaceBase t ≤ s.a.heap t)
    (hsum : s.a.heap t + n ≤ usableEnd t) :
    ∀ g ∈ s.granted, Grant.ApartFrom ⟨s.a.heap t, n, size, t⟩ g := by
  intro g hg
  obtain ⟨h1, h2, h3⟩ := h.granted g hg
  unfold Grant.ApartFrom Apart
  dsimp only
  by_cases htt : g.type = t
  · rw [htt] at h3
    exact Or.inr h3
  · have hgend := (h.heap g.type h1).2.1
    rcases usableEnd_apart htt with ha | ha
    · exact Or.inr (by omega)
    · exact Or.inl (by omega)

end Advance

/-- A served call keeps the heaps in order, and a refusal keeps its heap. -/
theorem HeapsOk.step {s : VirtRun} (h : HeapsOk s) {c : VirtCall} (hc : c.Valid)
    (hserved : Served s c) : HeapsOk (s.step c) ∧ RefusalKeeps s c := by
  obtain ⟨hword, ht⟩ := hc
  obtain ⟨hbase, hend, hmod⟩ := h.heap c.type ht
  have hpos := spaceBase_pos ht
  have husable := usableEnd_le_heapEnd c.type
  have hlt := heapEnd_lt c.type
  unfold RefusalKeeps VirtRun.step
  rcases avmfAllocVirt_heap s.a c.size ht with ⟨-, hv, hheap⟩ | ⟨hfits, hv, hheap⟩
  · -- refused
    dsimp only
    rw [hv, hheap, if_pos (Or.inl rfl)]
    refine ⟨⟨?_, ?_, h.ok, h.apart⟩, fun _ => rfl⟩
    · dsimp only
      rw [hheap]
      exact h.heap
    · dsimp only
      rw [hheap]
      exact h.granted
  · have hsum := hserved.fits hend hfits
    rw [add64_of_lt (by omega)] at hheap
    have hne : s.a.heap c.type ≠ 0 := by omega
    have hmoved := h.advance ht (align4k_mod c.size) hsum hheap
    dsimp only
    rw [hv]
    refine ⟨?_, fun h0 => absurd h0 hne⟩
    by_cases h0 : c.size = 0
    · rw [if_pos (Or.inr h0)]
      exact hmoved
    · rw [if_neg (not_or.mpr ⟨hne, h0⟩)]
      have hlong : c.size ≤ align4k c.size := by
        rcases hserved with hc0 | ⟨hw, -⟩
        · exact absurd hc0 h0
        · exact le_align4k hw
      refine ⟨hmoved.heap, ?_, ?_, List.pairwise_cons.mpr ⟨?_, h.apart⟩⟩
      · intro g hg
        rcases List.mem_cons.mp hg with rfl | hg
        · refine ⟨ht, hbase, ?_⟩
          dsimp only
          rw [hheap c.type, if_pos rfl]
        · exact hmoved.granted g hg
      · intro g hg
        rcases List.mem_cons.mp hg with rfl | hg
        · exact grant_ok ht hmod hlong hbase hsum
        · exact h.ok g hg
      · exact h.apartFrom c.size hbase hsum

/-- A call that is not served is granted a range that it must not have. -/
theorem not_served_grant {s : VirtRun} (h : HeapsOk s) {c : VirtCall} (hc : c.Valid)
    (hserved : ¬ Served s c) : ∃ g ∈ (s.step c).granted, ¬ g.Ok := by
  obtain ⟨hword, ht⟩ := hc
  obtain ⟨hbase, hend, hmod⟩ := h.heap c.type ht
  have hpos := spaceBase_pos ht
  have husable := usableEnd_le_heapEnd c.type
  have hlt := heapEnd_lt c.type
  have hround := align4k_lt c.size
  have h0 : c.size ≠ 0 := fun h0 => hserved (Or.inl h0)
  have haccepted : add64 (s.a.heap c.type) (align4k c.size) ≤ heapEnd c.type := by
    by_contra hno
    by_cases hw : c.size + 4095 < 2 ^ 64
    · by_cases hsum : s.a.heap c.type + align4k c.size < 2 ^ 64
      · rw [add64_of_lt hsum] at hno
        exact hserved (Or.inr ⟨hw, Or.inr ⟨by omega, hsum⟩⟩)
      · unfold add64 at hno
        omega
    · rw [align4k_eq] at hno
      unfold add64 at hno
      omega
  have hgrant : (⟨s.a.heap c.type, align4k c.size, c.size, c.type⟩ : Grant)
      ∈ (s.step c).granted := by
    unfold VirtRun.step
    dsimp only
    rcases avmfAllocVirt_heap s.a c.size ht with ⟨hno, -, -⟩ | ⟨-, hv, -⟩
    · exact absurd haccepted (by omega)
    · rw [hv, if_neg (by omega)]
      exact List.mem_cons_self
  refine ⟨_, hgrant, fun hok => ?_⟩
  have hlong := hok.long
  have hin := hok.inSpace.2
  have hcan := hok.canonical
  dsimp only at hlong hin hcan
  have hw : c.size + 4095 < 2 ^ 64 := by
    by_contra hbig
    rw [align4k_eq] at hlong
    omega
  have hover : usableEnd c.type < s.a.heap c.type + align4k c.size := by
    by_contra hle
    exact hserved (Or.inr ⟨hw, Or.inl (by omega)⟩)
  cases htype : c.type with
  | unknown => exact ht htype
  | user =>
      rw [htype] at hover hend hin
      -- the last address of the range is not canonical
      have hlast := hcan (2 ^ 47 - s.a.heap c.type)
      rw [htype] at hlast
      simp only [usableEnd] at hover hend
      have hno := hlast (by omega)
      unfold Canonical at hno
      omega
  | kernel =>
      rw [htype] at hover hin
      exact absurd hin (Nat.not_le_of_gt hover)
  | driver =>
      rw [htype] at hover hin
      exact absurd hin (Nat.not_le_of_gt hover)
  | sensitive =>
      rw [htype] at hover hin
      exact absurd hin (Nat.not_le_of_gt hover)

/-! ## Runs -/

theorem granted_mono {s : VirtRun} {calls : List VirtCall} {g : Grant} (hg : g ∈ s.granted) :
    g ∈ (exec VirtRun.step s calls).granted := by
  induction calls generalizing s with
  | nil => exact hg
  | cons c calls ih =>
      apply ih
      unfold VirtRun.step
      dsimp only
      split
      · exact hg
      · exact List.mem_cons_of_mem _ hg

theorem spacesSeparate_of_heapsOk {s : VirtRun} (h : HeapsOk s) {calls : List VirtCall}
    (hc : ∀ c ∈ calls, c.Valid) :
    SpacesSeparate s calls ↔ Along VirtRun.step Served s calls := by
  induction calls generalizing s with
  | nil => exact iff_of_true ⟨h.ok, h.apart, trivial⟩ trivial
  | cons c calls ih =>
      have hrest : ∀ c' ∈ calls, c'.Valid := fun c' hc' => hc c' (List.mem_cons_of_mem c hc')
      by_cases hserved : Served s c
      · obtain ⟨hstep, hrefusal⟩ := h.step (hc c List.mem_cons_self) hserved
        have hiff := ih hstep hrest
        constructor
        · intro hsep
          exact ⟨hserved, hiff.mp ⟨hsep.ok, hsep.apart, hsep.refusal.2⟩⟩
        · intro hall
          have hsep := hiff.mpr hall.2
          exact ⟨hsep.ok, hsep.apart, hrefusal, hsep.refusal⟩
      · refine iff_of_false ?_ (fun hall => hserved hall.1)
        intro hsep
        obtain ⟨g, hg, hbad⟩ := not_served_grant h (hc c List.mem_cons_self) hserved
        exact hbad (hsep.ok g (granted_mono (s := s.step c) hg))

/-- The heaps as the loader leaves them. -/
theorem heapsOk_boot : HeapsOk { a := Avmf.boot } := by
  refine ⟨?_, ?_, ?_, List.Pairwise.nil⟩
  · intro t ht
    cases t with
    | unknown => exact absurd rfl ht
    | user => decide
    | kernel => decide
    | driver => decide
    | sensitive => decide
  · exact fun g hg => absurd hg List.not_mem_nil
  · exact fun g hg => absurd hg List.not_mem_nil

/-- The virtual spaces stay separate in exactly the runs in which every call
    is served. -/
theorem spacesSeparate_iff {calls : List VirtCall} (hc : ∀ c ∈ calls, c.Valid) :
    SpacesSeparate { a := Avmf.boot } calls
      ↔ Along VirtRun.step Served { a := Avmf.boot } calls :=
  spacesSeparate_of_heapsOk heapsOk_boot hc

/-- Three requests that are served, the last by a refusal. -/
theorem spacesSeparate_three :
    SpacesSeparate { a := Avmf.boot } [⟨1, .user⟩, ⟨0x2001, .sensitive⟩, ⟨2 ^ 45 + 1, .kernel⟩] :=
  (spacesSeparate_iff (by decide)).mpr (by decide +kernel)

/-- A request of the sensitive space that runs over the PCIe base is
    granted. -/
theorem sensitive_meets_pcie :
    ¬ SpacesSeparate { a := Avmf.boot } [⟨2 ^ 44 + 1, .sensitive⟩] := by
  intro hsep
  have hok := hsep.ok ⟨aosSensitiveSpaceBase, 2 ^ 44 + 4096, 2 ^ 44 + 1, .sensitive⟩
    (by decide +kernel)
  exact hok.windows (aosPCIeVirtBase, aosAHCIVirtBase) List.mem_cons_self (2 ^ 44) (by decide)
    (by decide)

end Pfi
