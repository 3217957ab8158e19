import Pfi.HeapBlocks

/-! # The heap with any links

    A free of a block that others link to leaves links to an address at which
    nothing is mapped.  `LinkedHeap` is what is known of the heap whatever has
    been linked and freed: a link is null, leads to a live block, or to the
    address of a block that was freed (`Dead`).

    No later block is at such an address, since `avmf_alloc` takes no address
    that a region has (`Sys.Ok.alloc_translate`), so every call keeps this
    (`LinkedHeap.call`), and with it every run of calls on live pointers
    (`linkedHeap_run`), detached or not.  The walk of `ffree` may start from any
    such state (`LinkedHeap.loopOk`). -/

namespace Pfi

open Words RadixTable Run

/-! ## Sizes and links -/

/-- The place of `size` in `struct alloc_hdr`. -/
abbrev offsetSize : Nat := 10

def sizeField (m : Machine) (hdr : Nat) : Option Nat := readWord m (add64 hdr offsetSize)

/-- A live block of a given size: that of an `fmalloc`, with the size in its
    header. -/
structure SizedBlock (m : Machine) (b : Block) (size : Nat) : Prop where
  word : size < 2 ^ 64
  field : word64 (m.bytesAt (b.phys + offsetSize) 8) = size
  pages : b.size = align4k (add64 size sizeofAllocHdr)

/-- The address of a block that was freed. -/
structure Dead (s : Sys) (p : Nat) : Prop where
  unmapped : s.m.translate p = none
  canonical : Canonical p
  region : ∃ hd ∈ s.m.avmf.staticHeaders, hd.virtAddr = p

def LinkSafe (s : Sys) (p : Nat) : Prop := LinkTo s.live p ∨ Dead s p

/-- The heap between calls. -/
structure LinkedHeap (s : Sys) : Prop where
  ok : s.Ok
  granted : s.Granted
  within : s.Within
  headers : ∀ b ∈ s.live, ∃ nxt prev size, HeaderBytes s.m b.phys nxt prev ∧
    SizedBlock s.m b size ∧ LinkSafe s nxt

/-! ## An allocation and the other addresses -/

section Alloc

variable {s : Sys} {size flags a : Nat} {type : MemoryAllocType}

/-- An allocation leaves the translation of an address outside its block. -/
theorem Sys.Ok.alloc_translate (h : s.Ok) (ht : type ≠ .unknown)
    (hflags : flags &&& pageHuge = 0)
    (hclear : (avmfAlloc s.m size type flags).virt ≠ 0 → type = .user → UserClear s.m.avmf size)
    (hgranted : (s.step (.alloc size type flags)).Granted) (ha : Canonical a)
    (hout : (avmfAlloc s.m size type flags).virt ≠ 0 →
      ¬ ((avmfAlloc s.m size type flags).virt ≤ a ∧
        a < (avmfAlloc s.m size type flags).virt + align4k size)) :
    (avmfAlloc s.m size type flags).m.translate a = s.m.translate a := by
  rw [and_huge] at hflags
  obtain ⟨hw, hlog⟩ : (avmfAlloc s.m size type flags).m.avmf.wrapped = false ∧
    TablesGranted (avmfAlloc s.m size type flags).m := hgranted
  generalize hv : avmfAllocVirt s.m.avmf size type = v
  generalize hp : avmfAllocPhysContiguous v.2 (align4k size) = p
  generalize hr : avmfAllocRegion p.2 v.1 p.1 (align4k size) flags = r
  rcases avmfAlloc_cases hv hp hr with ⟨-, hres⟩ | ⟨-, -, hres⟩ | ⟨-, -, -, hres⟩ |
      ⟨hv0, hp0, hr0, hres⟩
  · rw [hres]
    rfl
  · rw [hres]
    rfl
  · rw [hres]
    rfl
  · rw [hres] at hw hlog hclear hout ⊢
    have hpw := map_unwrapped hr hw
    have hm := avmfAlloc_mappable ht (by omega) (hclear hv0) h.owned h.agrees hv hp hr hv0 hp0
      hr0 hpw
    have houtside := (pagerMapRange_mapped hm.args hm.agrees.tables hm.small hlog).outside
    have hregs := sameRegs_pagerMapRange { s.m with avmf := r.2 } v.1 p.1 (align4k size) flags
    have hroot : s.m.cr3 / pageSize = s.m.root := h.agrees.root
    unfold Machine.translate hwWalk
    rw [hregs.cr3]
    dsimp only
    rw [hroot]
    refine congrArg (Option.map _) (houtside (a / pageSize) (fun k _ hk hkey => ?_))
    -- a page of the block
    obtain ⟨hlo, hhi, hpage⟩ := hm.placed.page hk
    rw [← hpage] at hkey
    have hsame := (canonical_page ha (hm.placed.canonical hlo hhi)).mp hkey
    have hpos := hm.placed.virtPage
    have hmod := hm.placed.sizePage
    refine hout hv0 ?_
    dsimp only at hpos hmod hsame hlo hhi hk ⊢
    omega

end Alloc

/-! ## Links -/

section Links

variable {s t : Sys} {b c : Block} {p : Nat}

theorem LinkSafe.follows (h : LinkSafe s p) : Follows s p := by
  rcases h with (h0 | hlive) | hdead
  · exact Or.inl h0
  · exact Or.inr (Or.inl hlive)
  · exact Or.inr (Or.inr hdead.unmapped)

theorem SizedBlock.kept {m m' : Machine} {size : Nat} (h : SizedBlock m b size)
    (hsame : ∀ q, b.phys ≤ q → q < b.phys + sizeofAllocHdr → m'.loadByte q = m.loadByte q) :
    SizedBlock m' b size := by
  refine ⟨h.word, ?_, h.pages⟩
  rw [bytesAt_congr (fun q hlo hhi => hsame q (by omega) (by
    simp only [offsetSize] at hhi
    simp only [sizeofAllocHdr]
    omega))]
  exact h.field

/-- The header of a live block is within it. -/
theorem Sys.Ok.header_in (h : s.Ok) (hb : b ∈ s.live) : sizeofAllocHdr ≤ b.size :=
  Nat.le_trans (by decide) (h.block hb).1

/-- Writing to one block leaves another. -/
theorem Sys.Ok.kept_beside (h : s.Ok) (hb : b ∈ s.live) (hc : c ∈ s.live) (hne : c ≠ b)
    {m' : Machine} {o q : Nat} {vs : List Nat} (hw : Written s.m (b.phys + o) vs m')
    (hin : o + vs.length ≤ b.size) (hlo : c.phys ≤ q) (hhi : q < c.phys + c.size) :
    m'.loadByte q = s.m.loadByte q := by
  have hapart := h.live_apart hb hc hne
  rw [hw q, if_neg (by omega)]

/-- The links of a live block, as they are read. -/
theorem LinkedHeap.header (h : LinkedHeap s) (hb : b ∈ s.live) :
    HeaderBytes s.m b.phys (nxtAt s.m b.virt) (prevAt s.m b.virt) ∧
      nxtOf s.m b.virt = some (nxtAt s.m b.virt) ∧ LinkSafe s (nxtAt s.m b.virt) := by
  obtain ⟨nxt, prev, -, hbytes, -, hnxt⟩ := h.headers b hb
  have hd := h.ok.headerAt hb hbytes
  have hn : nxtAt s.m b.virt = nxt := by
    unfold nxtAt
    rw [hd.nxt]
    rfl
  have hp : prevAt s.m b.virt = prev := by
    unfold prevAt
    rw [hd.prev]
    rfl
  rw [hn, hp]
  exact ⟨hbytes, hd.nxt, hnxt⟩

/-- The start of a loop. -/
theorem LinkedHeap.loopOk (h : LinkedHeap s) : LoopOk (nxtAt s.m) (prevAt s.m) s := by
  refine ⟨h.ok, h.granted, h.within, fun b hb => ?_⟩
  obtain ⟨hbytes, -, hnxt⟩ := h.header hb
  exact ⟨hbytes, hnxt.follows⟩

/-- A step that leaves the headers of what is live after it. -/
theorem LinkedHeap.of_kept (h : LinkedHeap s) (hok : t.Ok) (hgranted : t.Granted)
    (hwithin : t.Within) (hlive : ∀ c ∈ t.live, c ∈ s.live)
    (hkept : ∀ c ∈ t.live, ∀ q, c.phys ≤ q → q < c.phys + sizeofAllocHdr →
      t.m.loadByte q = s.m.loadByte q)
    (hsafe : ∀ p, LinkSafe s p → LinkSafe t p) : LinkedHeap t := by
  refine ⟨hok, hgranted, hwithin, fun c hc => ?_⟩
  obtain ⟨nxt, prev, size, hbytes, hsized, hnxt⟩ := h.headers c (hlive c hc)
  exact ⟨nxt, prev, size, hbytes.kept (hkept c hc), hsized.kept (hkept c hc), hsafe nxt hnxt⟩

/-- A call of the memory system leaves the headers. -/
theorem Sys.Ok.headers_stay (h : t.Ok) (hlog : TablesGranted t.m)
    (hstores : StoresTouched s.m t.m) :
    ∀ c ∈ t.live, ∀ q, c.phys ≤ q → q < c.phys + sizeofAllocHdr →
      t.m.loadByte q = s.m.loadByte q := by
  intro c hc q hlo hhi
  have hin := h.header_in hc
  exact h.loadByte_kept hlog hstores hc hlo (by omega)

/-! ## A free -/

theorem LinkedHeap.free_safe (h : LinkedHeap s) (hb : b ∈ s.live) (hp : LinkSafe s p) :
    LinkSafe (s.step (.free b.virt)) p := by
  have hheaders := avmfFree_headers s.m b.virt
  rcases hp with (h0 | ⟨c, hc, rfl⟩) | ⟨hnone, hcan, hregion⟩
  · exact Or.inl (Or.inl h0)
  · by_cases hsame : c.virt = b.virt
    · obtain ⟨hd, hmem, hvirt, -, -⟩ := h.ok.owned.recorded c hc
      have hpage := (h.ok.block hc).1
      refine Or.inr ⟨h.ok.free_translate h.granted.2 hb (Or.inl hsame),
        (h.ok.agrees.placed c hc).canonical (Nat.le_refl _) (by omega), hd, ?_, hvirt⟩
      show hd ∈ (avmfFree s.m b.virt).avmf.staticHeaders
      rw [hheaders]
      exact hmem
    · exact Or.inl (Or.inr ⟨c, mem_free_live.mpr ⟨hc, hsame⟩, rfl⟩)
  · refine Or.inr ⟨h.ok.free_translate h.granted.2 hb (Or.inr hnone), hcan, ?_⟩
    show ∃ hd ∈ (avmfFree s.m b.virt).avmf.staticHeaders, hd.virtAddr = p
    rw [hheaders]
    exact hregion

theorem LinkedHeap.free (h : LinkedHeap s) (hb : b ∈ s.live) :
    LinkedHeap (s.step (.free b.virt)) := by
  have hok := h.ok.free h.granted hb
  have hgranted := (granted_free s b.virt).mpr h.granted
  have hwithin := (h.within.free h.ok h.granted.2 hb).2
  exact h.of_kept hok hgranted hwithin (fun c hc => (mem_free_live.mp hc).1)
    (hok.headers_stay hgranted.2 (storesTouched_avmfFree _ _)) (fun p => h.free_safe hb)

/-- What a loop that returns has freed. -/
theorem LinkedHeap.freed (h : LinkedHeap s) (hp : LinkSafe s p) {fuel : Nat} {freed : List Nat}
    {m' : Machine} (hres : ffreeLoop fuel s.m p = some (freed, m')) :
    m' = (exec Sys.step s (freed.map MemOp.free)).m ∧
      LinkedHeap (exec Sys.step s (freed.map MemOp.free)) := by
  induction fuel generalizing s p freed m' with
  | zero => cases hres
  | succ fuel ih =>
      by_cases h0 : p = 0
      · simp only [ffreeLoop] at hres
        rw [if_pos h0] at hres
        obtain ⟨rfl, rfl⟩ := Prod.mk.inj (Option.some.inj hres)
        exact ⟨rfl, h⟩
      · rcases hp with (hc | ⟨b, hb, rfl⟩) | hdead
        · exact absurd hc h0
        · rw [h.loopOk.turn hb, Option.map_eq_some_iff] at hres
          obtain ⟨⟨rest, m₁⟩, hrest, heq⟩ := hres
          obtain ⟨rfl, rfl⟩ := Prod.mk.inj heq
          exact ih (h.free hb) (h.free_safe hb (h.header hb).2.2) hrest
        · rw [ffreeLoop_fault h0 hdead.unmapped] at hres
          cases hres

/-! ## An `fmalloc` -/

/-- A size that is stored in 64 bits. -/
theorem word64_bytes64_mod (v : Nat) : word64 (bytes64 v) = v % 2 ^ 64 := by
  simp only [word64, bytes64, List.range, List.range.loop, List.map, List.foldr]
  omega

/-- The size that `fmalloc` writes. -/
theorem sizedBlock_allocHdr {m m' : Machine} {size : Nat} (hw : Written m b.phys (allocHdr size) m')
    (hpages : b.size = align4k (add64 size sizeofAllocHdr)) :
    SizedBlock m' b (size % 2 ^ 64) := by
  refine ⟨Nat.mod_lt _ (by decide), ?_, ?_⟩
  · have hread := @Written.bytesAt m b.phys m' allocHdrSig (bytes64 size) (bytes64 0 ++ bytes64 0)
      (by simpa [allocHdr] using hw)
    rw [length_bytes64] at hread
    exact (congrArg word64 hread).trans (word64_bytes64_mod size)
  · rw [hpages]
    unfold add64
    rw [Nat.mod_add_mod]

/-- What may be followed, may be followed after an `fmalloc`. -/
theorem LinkedHeap.fmalloc_safe (h : LinkedHeap s) {size : Nat}
    (hserves : LinkSys.Serves { sys := s } (.fmalloc size)) (hp : LinkSafe s p) :
    LinkSafe (s.step (fmallocOp size)) p := by
  obtain ⟨hok, -, -⟩ := h.ok.served h.within hserves
  obtain ⟨hgranted, hclear, -⟩ := hserves
  have hlist : s.m.avmf.staticHeaders <+: (s.step (fmallocOp size)).m.avmf.staticHeaders :=
    (headers_invariant _).alloc (List.prefix_refl _) _ _ _
  rcases hp with (h0 | ⟨c, hc, rfl⟩) | ⟨hnone, hcan, hd', hmem, hvirt'⟩
  · exact Or.inl (Or.inl h0)
  · refine Or.inl (Or.inr ⟨c, ?_, rfl⟩)
    show c ∈ (fmallocAlloc s.m size).live (add64 size sizeofAllocHdr) s.live
    unfold AllocResult.live
    split
    · exact hc
    · exact List.mem_cons_of_mem _ hc
  · refine Or.inr ⟨?_, hcan, hd', hlist.subset hmem, hvirt'⟩
    rw [← hnone]
    refine h.ok.alloc_translate (by decide) (by decide) (fun h0 _ => hclear h0) hgranted hcan
      (fun hv0 => ?_)
    -- the new block has a region of its own
    obtain ⟨hd, post, hregions, hvirt, -, hsize⟩ := avmfAlloc_records hv0
    have hapart := hok.owned.regions.apart
    have hsized := hok.owned.regions.sized
    have hsame : (s.step (fmallocOp size)).m.avmf.staticHeaders
        = s.m.avmf.staticHeaders ++ hd :: post := hregions
    rw [hsame] at hapart hsized
    have hno := (List.pairwise_append.mp hapart).2.2 hd' hmem hd List.mem_cons_self
    have hpos := (hsized hd' (List.mem_append_left _ hmem)).1
    unfold AvmfHeader.ApartFrom Apart at hno
    dsimp only [AllocResult.block] at hvirt hsize
    omega

/-- An `fmalloc` that is refused. -/
theorem LinkedHeap.fmalloc_refused (h : LinkedHeap s) {size : Nat}
    (hserves : LinkSys.Serves { sys := s } (.fmalloc size)) (h0 : Refuses s.m size) :
    LinkedHeap (s.step (fmallocOp size)) := by
  obtain ⟨hok, hwithin, -⟩ := h.ok.served h.within hserves
  have hlive : (s.step (fmallocOp size)).live = s.live := if_pos h0
  refine h.of_kept hok hserves.1 hwithin (fun c hc => ?_)
    (hok.headers_stay hserves.1.2 (storesTouched_avmfAlloc _ _ _ _))
    (fun p => h.fmalloc_safe hserves)
  rw [hlive] at hc
  exact hc

/-- Links and translations after writes to blocks. -/
theorem LinkSafe.sameTables (h : LinkSafe s p) (hok : s.Ok) {m' : Machine}
    (hsame : SameTables s.m m') : LinkSafe { s with m := m' } p := by
  rcases h with hlive | ⟨hnone, hcan, hregion⟩
  · exact Or.inl hlive
  · refine Or.inr ⟨?_, hcan, ?_⟩
    · rw [← hnone]
      exact hsame.translate hok.agrees.tables hok.agrees.root p
    · dsimp only
      rw [hsame.avmf]
      exact hregion

/-- An `fmalloc` that is not. -/
theorem LinkedHeap.fmalloc (h : LinkedHeap s) {size : Nat}
    (hserves : LinkSys.Serves { sys := s } (.fmalloc size)) (h0 : ¬ Refuses s.m size) :
    ∃ m', Pfi.fmalloc s.m size = some ((fmallocBlock s.m size).virt + sizeofAllocHdr, m') ∧
      SameTables (s.step (fmallocOp size)).m m' ∧
      Written (s.step (fmallocOp size)).m (fmallocBlock s.m size).phys (allocHdr size) m' ∧
      LinkedHeap { s.step (fmallocOp size) with m := m' } := by
  obtain ⟨hok, hgranted, hwithin, hlive, hstores, m', hmalloc, hsame, hwritten⟩ :=
    h.ok.fmalloc h.within hserves h0
  have hsafe := fun p => @LinkedHeap.fmalloc_safe s p h size hserves
  have hstay := hok.headers_stay hgranted.2 hstores
  have hnew : fmallocBlock s.m size ∈ (s.step (fmallocOp size)).live := by
    rw [hlive]
    exact List.mem_cons_self
  refine ⟨m', hmalloc, hsame, hwritten, hok.sameTables hsame, granted_sameTables hgranted hsame,
    hwithin.sameTables hsame hok.agrees.tables, fun c hc => ?_⟩
  by_cases hceq : c = fmallocBlock s.m size
  · rw [hceq]
    exact ⟨0, 0, _, headerBytes_allocHdr hwritten, sizedBlock_allocHdr hwritten rfl,
      Or.inl (Or.inl rfl)⟩
  · have hcs : c ∈ s.live := by
      dsimp only at hc
      rw [hlive] at hc
      exact (List.mem_cons.mp hc).resolve_left hceq
    obtain ⟨nxt, prev, size', hbytes, hsized, hnxt⟩ := h.headers c hcs
    have hkept : ∀ q, c.phys ≤ q → q < c.phys + sizeofAllocHdr →
        m'.loadByte q = s.m.loadByte q := by
      intro q hlo hhi
      have hin := hok.header_in hc
      rw [← hstay c hc q hlo hhi]
      exact hok.kept_beside hnew hc hceq (o := 0) hwritten (by
        rw [Nat.zero_add, length_allocHdr]
        exact hok.header_in hnew) hlo (by omega)
    exact ⟨nxt, prev, size', hbytes.kept hkept, hsized.kept hkept,
      (hsafe nxt hnxt).sameTables hok hsame⟩

/-! ## Writes -/

/-- Writing behind the header of a live block. -/
theorem LinkedHeap.written (h : LinkedHeap s) (hb : b ∈ s.live) {m' : Machine}
    (hsame : SameTables s.m m') {o : Nat} {vs : List Nat} (ho : sizeofAllocHdr ≤ o)
    (hin : o + vs.length ≤ b.size) (hw : Written s.m (b.phys + o) vs m') :
    LinkedHeap { s with m := m' } := by
  refine h.of_kept (h.ok.sameTables hsame) (granted_sameTables h.granted hsame)
    (h.within.sameTables hsame h.ok.agrees.tables) (fun c hc => hc)
    (fun c hc q hlo hhi => ?_) (fun p hp => hp.sameTables h.ok hsame)
  have hcin := h.ok.header_in hc
  by_cases hceq : c = b
  · dsimp only
    rw [hceq] at hhi
    rw [hw q, if_neg (by omega)]
  · exact h.ok.kept_beside hb hc hceq hw hin hlo (by omega)

/-- Writing one of the links of a live block. -/
theorem LinkedHeap.setLink (h : LinkedHeap s) (hb : b ∈ s.live) {o v : Nat} (hv : v < 2 ^ 64)
    (hlink : o = offsetNxt ∧ LinkSafe s v ∨ o = offsetPrev) :
    ∃ m', Pfi.writeBytes s.m (add64 b.virt o) (bytes64 v) = some m' ∧
      LinkedHeap { s with m := m' } := by
  have ho : offsetNxt ≤ o ∧ o + 8 ≤ sizeofAllocHdr := by
    rcases hlink with ⟨rfl, -⟩ | rfl
    · decide
    · decide
  obtain ⟨m', hwrite, hsame, hw, -⟩ := h.ok.setField h.granted hb (v := v) ho.2
  refine ⟨m', hwrite, h.ok.sameTables hsame, granted_sameTables h.granted hsame,
    h.within.sameTables hsame h.ok.agrees.tables, fun c hc => ?_⟩
  obtain ⟨nxt, prev, size, hbytes, hsized, hnxt⟩ := h.headers c hc
  have hsafe := fun p (hp : LinkSafe s p) => hp.sameTables h.ok hsame
  have hlen := length_bytes64 v
  by_cases hceq : c = b
  · subst hceq
    have hsized' : SizedBlock m' c size := by
      refine ⟨hsized.word, ?_, hsized.pages⟩
      rw [hw.bytesAt_apart (Or.inl (by simp only [offsetNxt, offsetSize] at ho ⊢; omega))]
      exact hsized.field
    rcases hlink with ⟨rfl, hvsafe⟩ | rfl
    · exact ⟨v, prev, size, hbytes.setNxt hv hw, hsized', hsafe v hvsafe⟩
    · exact ⟨nxt, v, size, hbytes.setPrev hv hw, hsized', hsafe nxt hnxt⟩
  · have hcin := h.ok.header_in hc
    have hbin := h.ok.header_in hb
    have hkept : ∀ q, c.phys ≤ q → q < c.phys + sizeofAllocHdr → m'.loadByte q = s.m.loadByte q :=
      fun q hlo hhi => h.ok.kept_beside hb hc hceq hw (by omega) hlo (by omega)
    exact ⟨nxt, prev, size, hbytes.kept hkept, hsized.kept hkept, hsafe nxt hnxt⟩

/-- Two live blocks are linked. -/
theorem LinkedHeap.flink (h : LinkedHeap s) {b₁ b₂ : Block} (hb₁ : b₁ ∈ s.live)
    (hb₂ : b₂ ∈ s.live) :
    ∃ m', Pfi.flink s.m (b₁.virt + sizeofAllocHdr) (b₂.virt + sizeofAllocHdr) = some m' ∧
      LinkedHeap { s with m := m' } := by
  have hend₁ := h.ok.block_end hb₁
  have hend₂ := h.ok.block_end hb₂
  obtain ⟨m₁, hwrite₁, h₁⟩ := h.setLink hb₁ (v := b₂.virt) (by omega)
    (Or.inl ⟨rfl, Or.inl (Or.inr ⟨b₂, hb₂, rfl⟩)⟩)
  obtain ⟨m₂, hwrite₂, h₂⟩ := @LinkedHeap.setLink { s with m := m₁ } b₂ h₁ hb₂ offsetPrev b₁.virt
    (by omega) (Or.inr rfl)
  refine ⟨m₂, ?_, h₂⟩
  unfold Pfi.flink
  dsimp only at hwrite₂ ⊢
  rw [h.ok.hdrOf hb₁, h.ok.hdrOf hb₂, hwrite₁, Option.bind_some, hwrite₂]

end Links

/-! ## Runs -/

/-- A call on live pointers. -/
theorem LinkedHeap.call {s s' : LinkSys} (h : LinkedHeap s.sys) {op : LinkOp} (hvalid : s.Valid op)
    (hserves : s.Serves op) (hcall : s.call op = some s') : LinkedHeap s'.sys := by
  cases op with
  | fmalloc size =>
      by_cases h0 : Refuses s.sys.m size
      · rw [LinkSys.call_fmalloc (avmfAlloc_failed_faults h0)] at hcall
        have hsame := (if_pos h0).symm.trans hcall
        rw [← Option.some.inj hsame]
        exact h.fmalloc_refused hserves h0
      · obtain ⟨m', hmalloc, -, -, hheap⟩ := h.fmalloc hserves h0
        simp only [LinkSys.call] at hcall
        rw [hmalloc] at hcall
        rw [← Option.some.inj hcall]
        exact hheap
  | flink ptr1 ptr2 =>
      obtain ⟨⟨b₁, hb₁, rfl⟩, ⟨b₂, hb₂, rfl⟩⟩ := hvalid
      obtain ⟨m', hlink, hheap⟩ := h.flink hb₁ hb₂
      simp only [LinkSys.call] at hcall
      rw [hlink] at hcall
      rw [← Option.some.inj hcall]
      exact hheap
  | ffree ptr =>
      obtain ⟨b, hb, rfl⟩ := hvalid
      simp only [LinkSys.call] at hcall
      rw [h.ok.hdrOf hb, Option.map_eq_some_iff] at hcall
      obtain ⟨⟨freed, m'⟩, hres, rfl⟩ := hcall
      obtain ⟨rfl, hheap⟩ := h.freed (Or.inl (Or.inr ⟨b, hb, rfl⟩)) hres
      exact hheap

/-- A run that has stopped stays so. -/
theorem exec_linkStep_none (ops : List LinkOp) : exec linkStep none ops = none := by
  induction ops with
  | nil => rfl
  | cons op ops ih => exact ih

/-- A run of served calls on live pointers, as far as it goes. -/
theorem LinkedHeap.run {s s' : LinkSys} (h : LinkedHeap s.sys) {ops : List LinkOp}
    (hvalid : Along linkStep (WhenRunning LinkSys.Valid) (some s) ops)
    (hserves : Along linkStep (WhenRunning LinkSys.Serves) (some s) ops)
    (hrun : exec linkStep (some s) ops = some s') : LinkedHeap s'.sys := by
  induction ops generalizing s with
  | nil =>
      obtain rfl := Option.some.inj hrun
      exact h
  | cons op ops ih =>
      rw [exec_cons, linkStep_some] at hrun
      obtain ⟨hv, hvalid⟩ := hvalid
      obtain ⟨hs, hserves⟩ := hserves
      rw [linkStep_some] at hvalid hserves
      cases hcall : s.call op with
      | none =>
          rw [hcall, exec_linkStep_none] at hrun
          cases hrun
      | some t =>
          rw [hcall] at hrun hvalid hserves
          exact ih (h.call (hv s rfl) (hs s rfl) hcall) hvalid hserves hrun

theorem linkedHeap_start {m : Machine} (h : Sys.Ok { m := m }) (hgranted : Sys.Granted { m := m })
    (hreach : WithinReach m) : LinkedHeap { m := m } :=
  ⟨h, hgranted, hreach.sys, fun _ hb => absurd hb List.not_mem_nil⟩

/-- Every state of a run of served calls on live pointers after `pager_init`,
    with its tables within reach. -/
theorem linkedHeap_run {mem : Nat → Fin 512 → Nat} {e820 : List E820Entry} {bits retries : Nat}
    {m : Machine} (hmap : E820Ok e820 bits (2 ^ 45)) (hbits : 32 ≤ bits ∧ bits ≤ 52)
    (hram : RamBelow e820 (2 ^ bits))
    (hres : pagerInit (bootMachine mem) e820 bits retries = some m)
    (hgranted : Sys.Granted { m := m }) (hreach : WithinReach m) {ops : List LinkOp} {s : LinkSys}
    (hvalid : Along linkStep (WhenRunning LinkSys.Valid) (some { sys := { m := m } }) ops)
    (hserves : Along linkStep (WhenRunning LinkSys.Serves) (some { sys := { m := m } }) ops)
    (hrun : exec linkStep (some { sys := { m := m } }) ops = some s) : LinkedHeap s.sys :=
  (linkedHeap_start (pagerInit_ok hmap hbits hram hres hgranted) hgranted hreach).run
    (s := { sys := { m := m } }) hvalid hserves hrun

end Pfi
