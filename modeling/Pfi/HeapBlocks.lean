import Pfi.HeapLinkRuns

/-! # The size of a heap block

    `fmalloc` asks for the size with the header on top, and `avmf_alloc` rounds
    that to pages; both are sums on 64 bits, and `fcalloc` puts a product before
    them.  The block holds the header and `n` bytes exactly if none of this has
    wrapped (`fits_iff`), since a block is never as large as the address space.

    So a block is as large as asked when `n` and the header are at most 2 ^ 64
    bytes, with `n` the unbounded product for `fcalloc`, or else when there is no
    block for what the wrapped sum asks for (`heap_blocks_fit_iff`).  The bytes
    that `fcalloc` clears are then all of them. -/

namespace Pfi

open Words Run

/-! ## Requests -/

/-- The block of `fmalloc`. -/
abbrev fmallocBlock (m : Machine) (size : Nat) : Block :=
  (fmallocAlloc m size).block (add64 size sizeofAllocHdr)

/-- `avmf_alloc` has no block for the request. -/
def Refuses (m : Machine) (size : Nat) : Prop := (fmallocAlloc m size).virt = 0

/-- `n` bytes from `ptr` on lie in the block. -/
def Block.Holds (b : Block) (ptr n : Nat) : Prop := b.virt ≤ ptr ∧ ptr + n ≤ b.virt + b.size

/-- A pointer of `fmalloc` has the bytes that were asked for. -/
def FmallocFits (m : Machine) (size : Nat) : Prop :=
  ∀ out m', fmalloc m size = some (out, m') → out ≠ 0 → (fmallocBlock m size).Holds out size

/-- The pointer that `fcalloc` clears and returns has all of them, and with a
    `memset` that does what the C library says they are zero when it returns. -/
def FcallocFits (m : Machine) (nmemb size : Nat) : Prop :=
  ∀ out m', fmalloc m (mul64 nmemb size) = some (out, m') → out ≠ 0 →
    (fmallocBlock m (mul64 nmemb size)).Holds out (nmemb * size) ∧
      ∀ m'', fcalloc memsetBytes m nmemb size = some (out, m'') →
        loadBytes m'' out (nmemb * size) = some (List.replicate (nmemb * size) 0)

section Requests

variable {s : Sys} {size n : Nat}

/-- A block that is given has room for the header and `n` bytes, if they have not
    wrapped. -/
theorem fits_iff (hsize : size = n % 2 ^ 64) (hpos : 0 < align4k (add64 size sizeofAllocHdr)) :
    sizeofAllocHdr + n ≤ align4k (add64 size sizeofAllocHdr) ↔ n + sizeofAllocHdr ≤ 2 ^ 64 := by
  have hcovers := align4k_covers (add64_lt size sizeofAllocHdr) hpos
  have hround := align4k_eq (add64 size sizeofAllocHdr)
  generalize align4k (add64 size sizeofAllocHdr) = b at hpos hcovers hround ⊢
  unfold add64 at hcovers hround
  simp only [sizeofAllocHdr] at hcovers hround ⊢
  omega

theorem fmalloc_refused {m : Machine} (h : Refuses m size) :
    fmalloc m size = some (0, (fmallocAlloc m size).m) :=
  (fmalloc_of_returned (avmfAlloc_failed_faults h)).trans (if_pos h)

/-- A refused request changes no block. -/
theorem LinkSys.call_refused {s s' : LinkSys} (h : Refuses s.sys.m size)
    (hcall : s.call (.fmalloc size) = some s') : s'.sys.live = s.sys.live := by
  have hnone : (s.sys.step (fmallocOp size)).live = s.sys.live := if_pos h
  rw [LinkSys.call_fmalloc (avmfAlloc_failed_faults h)] at hcall
  have hsame := (if_pos h).symm.trans hcall
  rw [← Option.some.inj hsame]
  exact hnone

/-- A served `fmalloc` that is not refused has a new live block, with its header
    in it. -/
theorem Sys.Ok.fmalloc (h : s.Ok) (hwithin : s.Within)
    (hserves : LinkSys.Serves { sys := s } (.fmalloc size)) (h0 : ¬ Refuses s.m size) :
    let b := fmallocBlock s.m size
    let t := s.step (fmallocOp size)
    t.Ok ∧ t.Granted ∧ t.Within ∧ t.live = b :: s.live ∧ StoresTouched s.m t.m ∧
      ∃ m', Pfi.fmalloc s.m size = some (b.virt + sizeofAllocHdr, m') ∧ SameTables t.m m' ∧
        Written t.m b.phys (allocHdr size) m' := by
  have hgranted : (s.step (fmallocOp size)).Granted := hserves.1
  obtain ⟨hok, hwithin', hfaults⟩ := h.served hwithin hserves
  have hlive : (s.step (fmallocOp size)).live = fmallocBlock s.m size :: s.live := if_neg h0
  have hb : fmallocBlock s.m size ∈ (s.step (fmallocOp size)).live := by
    rw [hlive]
    exact List.mem_cons_self
  obtain ⟨m', hwrite, hsame, hwritten⟩ := @Sys.Ok.writeBytes _ _ hok hgranted.2 hb 0
    (allocHdr size) (by rw [length_allocHdr]; decide) (allocHdr_lt size)
  refine ⟨hok, hgranted, hwithin', hlive, storesTouched_avmfAlloc _ _ _ _, m', ?_, hsame,
    hwritten⟩
  have hret : add64 (fmallocAlloc s.m size).virt sizeofAllocHdr
      = (fmallocBlock s.m size).virt + sizeofAllocHdr := hok.field hb (by decide)
  rw [← hret, fmalloc_of_returned hfaults]
  exact (if_neg h0).trans (congrArg (Option.map _) hwrite)

/-- The pointer of a block holds what fits behind the header. -/
theorem Block.holds_iff (b : Block) (n : Nat) :
    b.Holds (b.virt + sizeofAllocHdr) n ↔ sizeofAllocHdr + n ≤ b.size := by
  unfold Block.Holds
  omega

/-- A block that is given is as large as asked exactly if nothing wraps. -/
theorem Sys.Ok.holds_iff_of_given (h : s.Ok) (hwithin : s.Within)
    (hserves : LinkSys.Serves { sys := s } (.fmalloc size)) (h0 : ¬ Refuses s.m size)
    (hsize : size = n % 2 ^ 64) :
    (fmallocBlock s.m size).Holds ((fmallocBlock s.m size).virt + sizeofAllocHdr) n ↔
      n + sizeofAllocHdr ≤ 2 ^ 64 := by
  obtain ⟨hok, -, -, hlive, -⟩ := h.fmalloc hwithin hserves h0
  have hb : fmallocBlock s.m size ∈ (s.step (fmallocOp size)).live := by
    rw [hlive]
    exact List.mem_cons_self
  have hpos : 0 < align4k (add64 size sizeofAllocHdr) := by
    have hpage := (hok.block hb).1
    exact Nat.lt_of_lt_of_le (by decide) hpage
  rw [Block.holds_iff]
  exact fits_iff hsize hpos

/-- Zeros that are written to a block are read there. -/
theorem bytesAt_zeros {m m' : Machine} {p : Nat} (hw : Written m p (List.replicate n 0) m') :
    m'.bytesAt p n = List.replicate n 0 := by
  have hread := @Written.bytesAt m p m' [] (List.replicate n 0) [] (by simpa using hw)
  rw [List.length_replicate] at hread
  exact hread

/-- What `fcalloc` clears, if the product and the sum have not wrapped. -/
theorem Sys.Ok.fcalloc_zeros {nmemb size : Nat} (h : s.Ok) (hwithin : s.Within)
    (hserves : LinkSys.Serves { sys := s } (.fmalloc (mul64 nmemb size)))
    (h0 : ¬ Refuses s.m (mul64 nmemb size)) (hfits : nmemb * size + sizeofAllocHdr ≤ 2 ^ 64)
    {out : Nat} {m' : Machine}
    (hcalloc : Pfi.fcalloc memsetBytes s.m nmemb size = some (out, m')) :
    Pfi.loadBytes m' out (nmemb * size) = some (List.replicate (nmemb * size) 0) := by
  have hproduct : mul64 nmemb size = nmemb * size % 2 ^ 64 := rfl
  have hholds := (h.holds_iff_of_given hwithin hserves h0 hproduct).mpr hfits
  rw [Block.holds_iff] at hholds
  obtain ⟨hok, hgranted, -, hlive, -, m₁, hmalloc, hsame, -⟩ := h.fmalloc hwithin hserves h0
  have hb : fmallocBlock s.m (mul64 nmemb size)
      ∈ (s.step (fmallocOp (mul64 nmemb size))).live := by
    rw [hlive]
    exact List.mem_cons_self
  have hok₁ := hok.sameTables hsame
  have hlen : (List.replicate (mul64 size nmemb) 0).length = nmemb * size := by
    have hroom : nmemb * size < 2 ^ 64 := by
      simp only [sizeofAllocHdr] at hfits
      omega
    rw [List.length_replicate, mul64_comm, hproduct, Nat.mod_eq_of_lt hroom]
  obtain ⟨m₂, hwrite, hsame₂, hwritten⟩ := @Sys.Ok.writeBlock _ _ hok₁
    (granted_sameTables hgranted hsame).2 hb sizeofAllocHdr (List.replicate (mul64 size nmemb) 0)
    (by rw [hlen]; exact hholds) (fun v hv => by rw [List.eq_of_mem_replicate hv]; decide)
  have hpos : (fmallocBlock s.m (mul64 nmemb size)).virt + sizeofAllocHdr ≠ 0 :=
    Nat.succ_ne_zero _
  unfold Pfi.fcalloc at hcalloc
  rw [hmalloc, Option.bind_some] at hcalloc
  dsimp only at hcalloc hwrite
  unfold memsetBytes at hcalloc
  rw [if_neg hpos, Nat.zero_mod, hwrite, Option.map_some] at hcalloc
  obtain ⟨rfl, rfl⟩ := Prod.mk.inj (Option.some.inj hcalloc)
  rw [(hok₁.sameTables hsame₂).loadBlock hb hholds]
  rw [List.length_replicate] at hlen
  rw [hlen] at hwritten
  exact congrArg some (bytesAt_zeros hwritten)

/-- The block of `fmalloc`. -/
theorem Sys.Ok.fmallocFits_iff (h : s.Ok) (hwithin : s.Within)
    (hserves : LinkSys.Serves { sys := s } (.fmalloc size)) (hword : size < 2 ^ 64) :
    FmallocFits s.m size ↔ size + sizeofAllocHdr ≤ 2 ^ 64 ∨ Refuses s.m size := by
  by_cases h0 : Refuses s.m size
  · refine iff_of_true (fun out m' hmalloc hout => ?_) (Or.inr h0)
    rw [fmalloc_refused h0] at hmalloc
    exact absurd (congrArg Prod.fst (Option.some.inj hmalloc)).symm hout
  · obtain ⟨-, -, -, -, -, m', hmalloc, -⟩ := h.fmalloc hwithin hserves h0
    rw [or_iff_left h0, ← h.holds_iff_of_given hwithin hserves h0 (Nat.mod_eq_of_lt hword).symm]
    constructor
    · intro hfits
      exact hfits _ m' hmalloc (Nat.succ_ne_zero _)
    · intro hholds out m'' hmalloc' _
      rw [hmalloc] at hmalloc'
      obtain ⟨rfl, -⟩ := Prod.mk.inj (Option.some.inj hmalloc')
      exact hholds

/-- The block of `fcalloc`. -/
theorem Sys.Ok.fcallocFits_iff {nmemb size : Nat} (h : s.Ok) (hwithin : s.Within)
    (hserves : LinkSys.Serves { sys := s } (.fmalloc (mul64 nmemb size))) :
    FcallocFits s.m nmemb size ↔
      nmemb * size + sizeofAllocHdr ≤ 2 ^ 64 ∨ Refuses s.m (mul64 nmemb size) := by
  by_cases h0 : Refuses s.m (mul64 nmemb size)
  · refine iff_of_true (fun out m' hmalloc hout => ?_) (Or.inr h0)
    rw [fmalloc_refused h0] at hmalloc
    exact absurd (congrArg Prod.fst (Option.some.inj hmalloc)).symm hout
  · obtain ⟨-, -, -, -, -, m', hmalloc, -⟩ := h.fmalloc hwithin hserves h0
    have hproduct : mul64 nmemb size = nmemb * size % 2 ^ 64 := rfl
    rw [or_iff_left h0]
    constructor
    · intro hfits
      exact (h.holds_iff_of_given hwithin hserves h0 hproduct).mp
        (hfits _ m' hmalloc (Nat.succ_ne_zero _)).1
    · intro hfits out m₁ hmalloc' _
      refine ⟨?_, fun m'' hcalloc => h.fcalloc_zeros hwithin hserves h0 hfits hcalloc⟩
      rw [hmalloc] at hmalloc'
      obtain ⟨rfl, -⟩ := Prod.mk.inj (Option.some.inj hmalloc')
      exact (h.holds_iff_of_given hwithin hserves h0 hproduct).mpr hfits

end Requests

/-- In every state of the memory system whose tables are within reach,
    `fmalloc` and `fcalloc` give as many bytes as asked exactly if the size, and
    the unbounded product, leave room for the header below 2 ^ 64, or there is no
    block for what is requested. -/
theorem heap_blocks_fit_iff {s : Sys} (h : s.Ok) (hwithin : s.Within)
    {size nmemb size' : Nat} (hword : size < 2 ^ 64)
    (hserves : LinkSys.Serves { sys := s } (.fmalloc size))
    (hserves' : LinkSys.Serves { sys := s } (.fmalloc (mul64 nmemb size'))) :
    FmallocFits s.m size ∧ FcallocFits s.m nmemb size' ↔
      (size + sizeofAllocHdr ≤ 2 ^ 64 ∨ Refuses s.m size) ∧
        (nmemb * size' + sizeofAllocHdr ≤ 2 ^ 64 ∨ Refuses s.m (mul64 nmemb size')) := by
  rw [h.fmallocFits_iff hwithin hserves hword, h.fcallocFits_iff hwithin hserves']

/-- A page, by `fmalloc` and by `fcalloc`. -/
theorem heap_blocks_fit_page :
    ∃ m, pagerInit (bootMachine (fun _ _ => 0)) lowE820 36 1 = some m ∧
      FmallocFits m 4062 ∧ FcallocFits m 2 2031 := by
  obtain ⟨m, g, hres, h⟩ := lowE820_fresh (fun _ _ => 0)
  have hserves := h.linked.1
  have hproduct : mul64 2 2031 = 4062 := by decide
  exact ⟨m, hres, (heap_blocks_fit_iff h.ok h.reach.sys (by decide) hserves
    (by rw [hproduct]; exact hserves)).mpr ⟨Or.inl (by decide), Or.inl (by decide)⟩⟩

/-- `fcalloc(2, 0x80000000000007EF)` gets a page. -/
theorem heap_blocks_wrapped :
    ∃ m, pagerInit (bootMachine (fun _ _ => 0)) lowE820 36 1 = some m ∧
      ¬ (FmallocFits m 4062 ∧ FcallocFits m 2 0x80000000000007EF) := by
  obtain ⟨m, g, hres, h⟩ := lowE820_fresh (fun _ _ => 0)
  obtain ⟨hserves, s, hcall, -, b, hlive, -⟩ := h.linked
  have hproduct : mul64 2 0x80000000000007EF = 4062 := by decide
  refine ⟨m, hres, fun hfits => ?_⟩
  have hcond := (@Sys.Ok.fcallocFits_iff { m := m } 2 0x80000000000007EF h.ok h.reach.sys
    (by rw [hproduct]; exact hserves)).mp hfits.2
  rw [hproduct] at hcond
  rcases hcond with hlarge | hrefused
  · exact absurd hlarge (by decide)
  · -- the block was given
    have hnone := LinkSys.call_refused (s := { sys := { m := m } }) hrefused hcall
    rw [hlive] at hnone
    cases hnone

end Pfi
