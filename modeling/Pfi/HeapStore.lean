import Pfi.Realloc
import Pfi.BlockStore

/-! # The heap as a store of blocks

    The heap keeps headers in paged memory; its client knows of no address, page
    or header, but of a store of blocks.  `Represents` ties the two: the live
    blocks are the cells, `nxt` leads where the cell does, and each byte that
    the store knows is in memory behind the header.

    A write to one block changes one cell (`Represents.write`), and an allocation
    makes one at a pointer that was never given (`Represents.fmalloc`).  The walk
    of `ffree` is followed with both sides losing one block at each turn
    (`Represents.ffree`), which is why it returns exactly if the store has a
    chain there (`Represents.ffree_returns`). -/

namespace Pfi

open Words RadixTable Run BlockStore

/-! ## Blocks and cells -/

/-- The pointer of a header, if it is not null. -/
def ptrOf (hdr : Nat) : Option Nat := if hdr = 0 then none else some (hdr + sizeofAllocHdr)

/-- What memory holds of a cell. -/
structure CellAt (m : Machine) (b : Block) (c : Cell Nat Nat) : Prop where
  sized : SizedBlock m b c.room
  fits : sizeofAllocHdr + c.room ≤ b.size
  next : c.next = ptrOf (word64 (m.bytesAt (b.phys + offsetNxt) 8))
  bytes : ∀ i v, c.bytes i = some v → i < c.room ∧ m.loadByte (b.phys + sizeofAllocHdr + i) = v

structure Represents (s : Sys) (a : Store Nat Nat) : Prop where
  heap : LinkedHeap s
  cells : ∀ b ∈ s.live, ∃ c, a.cell (b.virt + sizeofAllocHdr) = some c ∧ CellAt s.m b c
  live : ∀ p c, a.cell p = some c → ∃ b ∈ s.live, p = b.virt + sizeofAllocHdr
  used : ∀ p ∈ a.used, ∃ hd ∈ s.m.avmf.staticHeaders, p = hd.virtAddr + sizeofAllocHdr

section Cells

variable {m m' : Machine} {b : Block} {c : Cell Nat Nat} {size : Nat}

/-- A block that is not written to. -/
theorem CellAt.kept (h : CellAt m b c)
    (hsame : ∀ q, b.phys ≤ q → q < b.phys + b.size → m'.loadByte q = m.loadByte q) :
    CellAt m' b c := by
  have hfits := h.fits
  simp only [sizeofAllocHdr] at hfits
  refine ⟨h.sized.kept (fun q hlo hhi => ?_), h.fits, ?_, fun i v hv => ?_⟩
  · simp only [sizeofAllocHdr] at hhi
    exact hsame q hlo (by omega)
  · rw [bytesAt_congr (fun q hlo hhi => ?_)]
    · exact h.next
    · simp only [offsetNxt] at hlo hhi
      exact hsame q (by omega) (by omega)
  · obtain ⟨hi, hbyte⟩ := h.bytes i v hv
    refine ⟨hi, ?_⟩
    rw [hsame _ (by omega) (by simp only [sizeofAllocHdr]; omega)]
    exact hbyte

/-- Bytes written behind the header. -/
theorem CellAt.written (h : CellAt m b c) {o : Nat} {vs : List Nat}
    (hw : Written m (b.phys + (sizeofAllocHdr + o)) vs m') {f : Nat → Option Nat}
    (hin : ∀ i v, f i = some v → i < c.room)
    (hnew : ∀ i v, f i = some v → o ≤ i → i < o + vs.length → vs.getD (i - o) 0 = v)
    (hold : ∀ i v, f i = some v → ¬ (o ≤ i ∧ i < o + vs.length) → c.bytes i = some v) :
    CellAt m' b { c with bytes := f } := by
  refine ⟨h.sized.kept (fun q hlo hhi => ?_), h.fits, ?_, fun i v hv => ⟨hin i v hv, ?_⟩⟩
  · rw [hw q, if_neg (by omega)]
  · rw [hw.bytesAt_apart (Or.inl (by simp only [offsetNxt, sizeofAllocHdr]; omega))]
    exact h.next
  · rw [hw]
    by_cases hi : o ≤ i ∧ i < o + vs.length
    · rw [if_pos (by omega), ← hnew i v hv hi.1 hi.2]
      congr 1
      omega
    · rw [if_neg (by omega)]
      exact (h.bytes i v (hold i v hv hi)).2

/-- The size of a live block is the room of its cell. -/
theorem CellAt.room (h : CellAt m b c) (hsized : SizedBlock m b size) : c.room = size :=
  h.sized.field.symm.trans hsized.field

end Cells

section Represents

variable {s t : Sys} {a : Store Nat Nat} {b : Block} {p size : Nat}

theorem Represents.next (h : Represents s a) (hb : b ∈ s.live) :
    a.next (b.virt + sizeofAllocHdr) = ptrOf (nxtAt s.m b.virt) := by
  obtain ⟨c, hc, hat⟩ := h.cells b hb
  unfold Store.next
  rw [hc, Option.bind_some, hat.next, (h.heap.header hb).1.nxt]

/-- A known byte is read at its address. -/
theorem Represents.read (h : Represents s a) {c : Cell Nat Nat} (hc : a.cell p = some c) {i v : Nat}
    (hv : c.bytes i = some v) : s.m.readByte (add64 p i) = some v := by
  obtain ⟨b, hb, rfl⟩ := h.live p c hc
  obtain ⟨c', hc', hat⟩ := h.cells b hb
  rw [hc] at hc'
  obtain rfl := Option.some.inj hc'
  obtain ⟨hi, hbyte⟩ := hat.bytes i v hv
  have hfits := hat.fits
  have hend := h.heap.ok.block_end hb
  rw [add64_of_lt (by omega), ← hbyte, Nat.add_assoc, Nat.add_assoc]
  exact readByte_mapped (h.heap.ok.mapped hb _ (by omega))

/-- The pointers of two blocks differ. -/
theorem Represents.pointer_ne (h : Represents s a) {d : Block} (hb : b ∈ s.live) (hd : d ∈ s.live)
    (hne : d ≠ b) : d.virt + sizeofAllocHdr ≠ b.virt + sizeofAllocHdr :=
  fun heq => hne (h.heap.ok.owned.eq_of_virt hd hb (Nat.add_right_cancel heq))

/-! ## Writes -/

/-- A write to one block changes its cell. -/
theorem Represents.write (h : Represents s a) (hb : b ∈ s.live) {m' : Machine} {o : Nat}
    {vs : List Nat} (hsame : SameTables s.m m') (hw : Written s.m (b.phys + o) vs m')
    (hin : o + vs.length ≤ b.size) (hheap : LinkedHeap { s with m := m' }) {c : Cell Nat Nat}
    (hc : CellAt m' b c) :
    Represents { s with m := m' } (a.set (b.virt + sizeofAllocHdr) c) := by
  refine ⟨hheap, fun d hd => ?_, fun q x hx => ?_, fun q hq => ?_⟩
  · by_cases hdb : d = b
    · subst hdb
      exact ⟨c, Store.set_cell_self a _ c, hc⟩
    · obtain ⟨x, hx, hat⟩ := h.cells d hd
      refine ⟨x, ?_, hat.kept (fun q hlo hhi => h.heap.ok.kept_beside hb hd hdb hw hin hlo hhi)⟩
      rw [Store.set_cell_of_ne (h.pointer_ne hb hd hdb)]
      exact hx
  · by_cases hq : q = b.virt + sizeofAllocHdr
    · exact ⟨b, hb, hq⟩
    · rw [Store.set_cell_of_ne hq] at hx
      exact h.live q x hx
  · dsimp only
    rw [hsame.avmf]
    rcases hq with rfl | hq
    · obtain ⟨hd, hmem, hvirt, -⟩ := h.heap.ok.owned.recorded b hb
      exact ⟨hd, hmem, by rw [hvirt]⟩
    · exact h.used q hq

/-- Bytes stored behind the header of a live block. -/
theorem Represents.put (h : Represents s a) (hb : b ∈ s.live) {c : Cell Nat Nat}
    (hc : a.cell (b.virt + sizeofAllocHdr) = some c) {o : Nat} {vs : List Nat}
    (hin : o + vs.length ≤ c.room) (hbytes : ∀ v ∈ vs, v < 256) :
    ∃ m', Pfi.writeBytes s.m (add64 (b.virt + sizeofAllocHdr) o) vs = some m' ∧
      Represents { s with m := m' } (a.set (b.virt + sizeofAllocHdr) (c.put o vs)) := by
  obtain ⟨c', hc', hat⟩ := h.cells b hb
  rw [hc] at hc'
  obtain rfl := Option.some.inj hc'
  have hfits := hat.fits
  have hend := h.heap.ok.block_end hb
  have hpages : sizeofAllocHdr + o + vs.length ≤ b.size := by omega
  obtain ⟨m', hwrite, hsame, hw⟩ := h.heap.ok.writeBlock h.heap.granted.2 hb hpages hbytes
  refine ⟨m', ?_, h.write hb hsame hw (by omega)
    (h.heap.written hb hsame (Nat.le_add_right _ _) (by omega) hw)
    (hat.written hw (fun i v hv => ?_) (fun i v hv hlo hhi => ?_) (fun i v hv hout => ?_))⟩
  · rw [add64_of_lt (by omega), Nat.add_assoc]
    exact hwrite
  · by_cases hi : o ≤ i ∧ i < o + vs.length
    · omega
    · rw [if_neg hi] at hv
      exact (hat.bytes i v hv).1
  · rw [if_pos ⟨hlo, hhi⟩] at hv
    rw [List.getD_eq_getElem?_getD, hv]
    rfl
  · rw [if_neg hout] at hv
    exact hv

/-- One of the links of a live block is written. -/
theorem Represents.setField (h : Represents s a) (hb : b ∈ s.live) {o v : Nat} (hv : v < 2 ^ 64)
    (hlink : o = offsetNxt ∧ LinkSafe s v ∨ o = offsetPrev) :
    ∃ m', Pfi.writeBytes s.m (add64 b.virt o) (bytes64 v) = some m' ∧
      LinkedHeap { s with m := m' } ∧ SameTables s.m m' ∧
      Written s.m (b.phys + o) (bytes64 v) m' := by
  obtain ⟨m', hwrite, hheap⟩ := h.heap.setLink hb hv hlink
  have ho : o + 8 ≤ sizeofAllocHdr := by
    rcases hlink with ⟨rfl, -⟩ | rfl
    · decide
    · decide
  obtain ⟨m₁, hwrite₁, hsame, hw, -⟩ := h.heap.ok.setField h.heap.granted hb (v := v) ho
  rw [hwrite] at hwrite₁
  obtain rfl := Option.some.inj hwrite₁
  exact ⟨m', hwrite, hheap, hsame, hw⟩

/-- Bytes behind the header are not those of a link. -/
theorem CellAt.relinked {m m' : Machine} {c : Cell Nat Nat} (h : CellAt m b c) {o v : Nat}
    (ho : o = offsetNxt ∨ o = offsetPrev) (hw : Written m (b.phys + o) (bytes64 v) m')
    {n : Option Nat} (hn : n = ptrOf (word64 (m'.bytesAt (b.phys + offsetNxt) 8))) :
    CellAt m' b { c with next := n } := by
  have hlen := length_bytes64 v
  have hplace : offsetSize + 8 ≤ o ∧ o + 8 ≤ sizeofAllocHdr := by
    rcases ho with rfl | rfl
    · decide
    · decide
  refine ⟨⟨h.sized.word, ?_, h.sized.pages⟩, h.fits, hn, fun i x hx => ?_⟩
  · rw [hw.bytesAt_apart (Or.inl (by omega))]
    exact h.sized.field
  · obtain ⟨hi, hbyte⟩ := h.bytes i x hx
    refine ⟨hi, ?_⟩
    rw [hw, if_neg (by omega)]
    exact hbyte

/-- Two live blocks are linked. -/
theorem Represents.flink (h : Represents s a) {b₁ b₂ : Block} (hb₁ : b₁ ∈ s.live)
    (hb₂ : b₂ ∈ s.live) {c : Cell Nat Nat} (hc : a.cell (b₁.virt + sizeofAllocHdr) = some c) :
    ∃ m', Pfi.flink s.m (b₁.virt + sizeofAllocHdr) (b₂.virt + sizeofAllocHdr) = some m' ∧
      Represents { s with m := m' } (a.set (b₁.virt + sizeofAllocHdr)
        { c with next := some (b₂.virt + sizeofAllocHdr) }) := by
  have hend₁ := h.heap.ok.block_end hb₁
  have hend₂ := h.heap.ok.block_end hb₂
  have hin₁ := h.heap.ok.header_in hb₁
  have hin₂ := h.heap.ok.header_in hb₂
  have hne₂ := (h.heap.ok.block hb₂).2.2.1
  obtain ⟨m₁, hwrite₁, hheap₁, hsame₁, hw₁⟩ := h.setField hb₁ (v := b₂.virt) (by omega)
    (Or.inl ⟨rfl, Or.inl (Or.inr ⟨b₂, hb₂, rfl⟩)⟩)
  obtain ⟨c', hc', hat⟩ := h.cells b₁ hb₁
  rw [hc] at hc'
  obtain rfl := Option.some.inj hc'
  have hread := @Written.bytesAt s.m _ m₁ [] (bytes64 b₂.virt) [] (by simpa using hw₁)
  have hlink : word64 (m₁.bytesAt (b₁.phys + offsetNxt) 8) = b₂.virt := by
    rw [length_bytes64] at hread
    exact (congrArg word64 hread).trans (word64_bytes64 (by omega))
  have h₁ := h.write hb₁ hsame₁ hw₁ (by rw [length_bytes64]; exact Nat.le_trans (by decide) hin₁)
    hheap₁ (c := { c with next := some (b₂.virt + sizeofAllocHdr) })
    (hat.relinked (Or.inl rfl) hw₁ (by rw [hlink, ptrOf, if_neg hne₂]))
  -- `prev` is no part of a cell
  obtain ⟨m₂, hwrite₂, hheap₂, hsame₂, hw₂⟩ :=
    h₁.setField (b := b₂) hb₂ (o := offsetPrev) (v := b₁.virt) (by omega) (Or.inr rfl)
  obtain ⟨d, hd, hat₂⟩ := h₁.cells b₂ hb₂
  have hstay := hat₂.relinked (Or.inr rfl) hw₂ (n := d.next) (by
    rw [hw₂.bytesAt_apart (Or.inl (by simp only [offsetNxt, offsetPrev]; omega))]
    exact hat₂.next)
  have h₂ := h₁.write (b := b₂) hb₂ hsame₂ hw₂
    (by rw [length_bytes64]; exact Nat.le_trans (by decide) hin₂) hheap₂ hstay
  rw [Store.set_same hd] at h₂
  refine ⟨m₂, ?_, h₂⟩
  unfold Pfi.flink
  dsimp only at hwrite₂ ⊢
  rw [h.heap.ok.hdrOf hb₁, h.heap.ok.hdrOf hb₂, hwrite₁, Option.bind_some, hwrite₂]

/-! ## An allocation -/

/-- A request without a block changes nothing for the client. -/
theorem Represents.refused (h : Represents s a)
    (hserves : LinkSys.Serves { sys := s } (.fmalloc size)) (h0 : Refuses s.m size) :
    Represents (s.step (fmallocOp size)) a := by
  have hheap := h.heap.fmalloc_refused hserves h0
  have hlive : (s.step (fmallocOp size)).live = s.live := if_pos h0
  have hlist : s.m.avmf.staticHeaders <+: (s.step (fmallocOp size)).m.avmf.staticHeaders :=
    (headers_invariant _).alloc (List.prefix_refl _) _ _ _
  refine ⟨hheap, fun b hb => ?_, fun q c hc => ?_, fun q hq => ?_⟩
  · have hbs : b ∈ s.live := by
      rw [← hlive]
      exact hb
    obtain ⟨c, hc, hat⟩ := h.cells b hbs
    exact ⟨c, hc, hat.kept (fun q hlo hhi => hheap.ok.loadByte_kept hserves.1.2
      (storesTouched_avmfAlloc _ _ _ _) hb hlo hhi)⟩
  · rw [hlive]
    exact h.live q c hc
  · obtain ⟨hd, hmem, heq⟩ := h.used q hq
    exact ⟨hd, hlist.subset hmem, heq⟩

/-- A block is given at a pointer that was never given before: its region meets
    no other. -/
theorem Represents.fmalloc (h : Represents s a)
    (hserves : LinkSys.Serves { sys := s } (.fmalloc size)) (h0 : ¬ Refuses s.m size)
    (hfits : size + sizeofAllocHdr ≤ 2 ^ 64) :
    ∃ m', Pfi.fmalloc s.m size = some ((fmallocBlock s.m size).virt + sizeofAllocHdr, m') ∧
      (s.step (fmallocOp size)).live = fmallocBlock s.m size :: s.live ∧
      (fmallocBlock s.m size).virt + sizeofAllocHdr ∉ a.used ∧
      Represents { s.step (fmallocOp size) with m := m' }
        (a.set ((fmallocBlock s.m size).virt + sizeofAllocHdr) (Cell.fresh size)) := by
  obtain ⟨hok, hgranted, -, hlive, hstores, -⟩ := h.heap.ok.fmalloc h.heap.within hserves h0
  obtain ⟨m', hmalloc, hsame, hwritten, hheap⟩ := h.heap.fmalloc hserves h0
  obtain ⟨hd, post, hregions, hregionVirt, -⟩ := avmfAlloc_records h0
  have hvirt : hd.virtAddr = (fmallocBlock s.m size).virt := hregionVirt
  have hword : size < 2 ^ 64 := by
    simp only [sizeofAllocHdr] at hfits
    omega
  have hregion : (s.step (fmallocOp size)).m.avmf.staticHeaders
      = s.m.avmf.staticHeaders ++ hd :: post := hregions
  have hheaders : m'.avmf.staticHeaders = s.m.avmf.staticHeaders ++ hd :: post := by
    rw [hsame.avmf]
    exact hregion
  -- every pointer given so far has a region, and the new region is apart from them
  have hfresh : (fmallocBlock s.m size).virt + sizeofAllocHdr ∉ a.used := by
    intro hused
    obtain ⟨hd', hmem, heq⟩ := h.used _ hused
    have hapart := hok.owned.regions.apart
    have hsized := hok.owned.regions.sized
    rw [hregion] at hapart hsized
    have hno := (List.pairwise_append.mp hapart).2.2 hd' hmem hd List.mem_cons_self
    have hpos := (hsized hd' (List.mem_append_left _ hmem)).1
    have hpos' := (hsized hd (List.mem_append_right _ List.mem_cons_self)).1
    have hsame := Nat.add_right_cancel heq
    unfold AvmfHeader.ApartFrom Apart at hno
    rw [hvirt] at hno
    omega
  have hnew : fmallocBlock s.m size ∈ (s.step (fmallocOp size)).live := by
    rw [hlive]
    exact List.mem_cons_self
  -- the header is written into the new block, so the live blocks keep their bytes
  have hbeside : ∀ c ∈ s.live, ∀ q, c.phys ≤ q → q < c.phys + c.size →
      m'.loadByte q = s.m.loadByte q := by
    intro c hc q hlo hhi
    have hct : c ∈ (s.step (fmallocOp size)).live := by
      rw [hlive]
      exact List.mem_cons_of_mem _ hc
    rw [hok.kept_beside hnew hct (hok.ne_new hlive hc) (o := 0) hwritten (by
      rw [Nat.zero_add, length_allocHdr]
      exact hok.header_in hnew) hlo hhi]
    exact hok.loadByte_kept hgranted.2 hstores hct hlo hhi
  have hnewCell : CellAt m' (fmallocBlock s.m size) (Cell.fresh size) := by
    have hsized := sizedBlock_allocHdr hwritten rfl
    rw [Nat.mod_eq_of_lt hword] at hsized
    have hpage := (hok.block hnew).1
    refine ⟨hsized, ?_, ?_, ?_⟩
    · refine (fits_iff (Nat.mod_eq_of_lt hword).symm ?_).mpr hfits
      rw [hsized.pages] at hpage
      omega
    · rw [(headerBytes_allocHdr hwritten).nxt]
      rfl
    · intro i v hv
      cases hv
  refine ⟨m', hmalloc, hlive, hfresh, hheap, fun c hc => ?_, fun q x hx => ?_, fun q hq => ?_⟩
  · -- the cell of each live block
    by_cases hceq : c = fmallocBlock s.m size
    · subst hceq
      exact ⟨_, Store.set_cell_self a _ _, hnewCell⟩
    · have hcs : c ∈ s.live := by
        dsimp only at hc
        rw [hlive] at hc
        exact (List.mem_cons.mp hc).resolve_left hceq
      obtain ⟨x, hx, hat⟩ := h.cells c hcs
      have hne : c.virt + sizeofAllocHdr ≠ (fmallocBlock s.m size).virt + sizeofAllocHdr := by
        intro heq
        refine hfresh ?_
        rw [← heq]
        exact a.cell_used _ x hx
      refine ⟨x, ?_, hat.kept (hbeside c hcs)⟩
      rw [Store.set_cell_of_ne hne]
      exact hx
  · -- the live block of each cell
    by_cases hq : q = (fmallocBlock s.m size).virt + sizeofAllocHdr
    · exact ⟨_, hnew, hq⟩
    · rw [Store.set_cell_of_ne hq] at hx
      obtain ⟨b, hb, heq⟩ := h.live q x hx
      refine ⟨b, ?_, heq⟩
      dsimp only
      rw [hlive]
      exact List.mem_cons_of_mem _ hb
  · -- the region of each pointer
    dsimp only
    rw [hheaders]
    rcases hq with rfl | hq
    · exact ⟨hd, List.mem_append_right _ List.mem_cons_self, by rw [hvirt]⟩
    · obtain ⟨hd', hmem, heq⟩ := h.used q hq
      exact ⟨hd', List.mem_append_left _ hmem, heq⟩

/-! ## The loop of a free -/

/-- One block is freed. -/
theorem Represents.free (h : Represents s a) (hb : b ∈ s.live) :
    Represents (s.step (.free b.virt)) (a.drop [b.virt + sizeofAllocHdr]) := by
  have hheap := h.heap.free hb
  have hne : ∀ c ∈ (s.step (.free b.virt)).live,
      c ∈ s.live ∧ c.virt + sizeofAllocHdr ∉ [b.virt + sizeofAllocHdr] := by
    intro c hc
    obtain ⟨hcs, hvirt⟩ := mem_free_live.mp hc
    exact ⟨hcs, fun hmem => hvirt (Nat.add_right_cancel (List.mem_singleton.mp hmem))⟩
  refine ⟨hheap, fun c hc => ?_, fun q x hx => ?_, fun q hq => ?_⟩
  · obtain ⟨hcs, hout⟩ := hne c hc
    obtain ⟨x, hx, hat⟩ := h.cells c hcs
    refine ⟨x, ?_, hat.kept (fun q hlo hhi => hheap.ok.loadByte_kept hheap.granted.2
      (storesTouched_avmfFree _ _) hc hlo hhi)⟩
    rw [Store.drop_cell_of_not_mem hout]
    exact hx
  · by_cases hq : q ∈ [b.virt + sizeofAllocHdr]
    · rw [Store.drop_cell_of_mem hq] at hx
      cases hx
    · rw [Store.drop_cell_of_not_mem hq] at hx
      obtain ⟨c, hc, rfl⟩ := h.live q x hx
      refine ⟨c, mem_free_live.mpr ⟨hc, fun hvirt => hq ?_⟩, rfl⟩
      rw [hvirt]
      exact List.mem_singleton.mpr rfl
  · have hheaders := avmfFree_headers s.m b.virt
    show ∃ hd ∈ (avmfFree s.m b.virt).avmf.staticHeaders, _
    rw [hheaders]
    exact h.used q hq

/-- A loop that returns has freed a chain of the store.  The induction is on its
    turns: both sides lose the block of each. -/
theorem Represents.ffree (h : Represents s a) {hdr fuel : Nat} (hhdr : LinkSafe s hdr)
    {freed : List Nat} {m' : Machine} (hres : ffreeLoop fuel s.m hdr = some (freed, m')) :
    ∃ ps, a.Chain (ptrOf hdr) ps ∧ m' = (exec Sys.step s (freed.map MemOp.free)).m ∧
      Represents (exec Sys.step s (freed.map MemOp.free)) (a.drop ps) := by
  induction fuel generalizing s a hdr freed m' with
  | zero => cases hres
  | succ fuel ih =>
      by_cases h0 : hdr = 0
      · simp only [ffreeLoop] at hres
        rw [if_pos h0] at hres
        obtain ⟨rfl, rfl⟩ := Prod.mk.inj (Option.some.inj hres)
        refine ⟨[], ?_, rfl, ?_⟩
        · rw [ptrOf, if_pos h0]
          exact Store.chain_nil a
        · rw [Store.drop_nil]
          exact h
      · rcases hhdr with (hc | ⟨b, hb, rfl⟩) | hdead
        · exact absurd hc h0
        · rw [h.heap.loopOk.turn hb, Option.map_eq_some_iff] at hres
          obtain ⟨⟨rest, m₁⟩, hrest, heq⟩ := hres
          obtain ⟨rfl, rfl⟩ := Prod.mk.inj heq
          obtain ⟨ps, hchain, hm, hrep⟩ :=
            ih (h.free hb) (h.heap.free_safe hb (h.heap.header hb).2.2) hrest
          obtain ⟨c, hc, -⟩ := h.cells b hb
          refine ⟨(b.virt + sizeofAllocHdr) :: ps, ?_, hm, ?_⟩
          · rw [ptrOf, if_neg h0, Store.chain_cons, hc, h.next hb]
            exact ⟨rfl, Option.some_ne_none c, hchain⟩
          · rw [← Store.drop_cons]
            exact hrep
        · rw [ffreeLoop_fault h0 hdead.unmapped] at hres
          cases hres

/-- Where the store has a chain, the loop returns. -/
theorem Represents.ffree_returns (h : Represents s a) {hdr fuel : Nat} (hhdr : LinkSafe s hdr)
    {ps : List Nat} (hchain : a.Chain (ptrOf hdr) ps) (hfuel : ps.length < fuel) :
    (ffreeLoop fuel s.m hdr).isSome := by
  induction ps generalizing s a hdr fuel with
  | nil =>
      obtain ⟨fuel, rfl⟩ : ∃ k, fuel = k + 1 := ⟨fuel - 1, by omega⟩
      have h0 : hdr = 0 := by
        by_contra h0
        rw [ptrOf, if_neg h0] at hchain
        exact hchain.1
      simp only [ffreeLoop]
      rw [if_pos h0]
      rfl
  | cons p ps ih =>
      obtain ⟨fuel, rfl⟩ : ∃ k, fuel = k + 1 := ⟨fuel - 1, by omega⟩
      have h0 : hdr ≠ 0 := by
        rintro rfl
        exact hchain.1
      rw [ptrOf, if_neg h0, Store.chain_cons] at hchain
      obtain ⟨-, hlive, hrest⟩ := hchain
      obtain ⟨c, hc⟩ := Option.ne_none_iff_exists'.mp hlive
      obtain ⟨b, hb, heq⟩ := h.live _ c hc
      obtain rfl := Nat.add_right_cancel heq
      rw [h.next hb] at hrest
      rw [h.heap.loopOk.turn hb, Option.isSome_map]
      exact ih (h.free hb) (h.heap.free_safe hb (h.heap.header hb).2.2) hrest
        (Nat.lt_of_succ_lt_succ hfuel)

/-- A chain is no longer than there are live blocks. -/
theorem Represents.chain_length (h : Represents s a) {p : Option Nat} {ps : List Nat}
    (hchain : a.Chain p ps) : ps.length ≤ s.live.length := by
  have hsub : ps ⊆ s.live.map (fun b => b.virt + sizeofAllocHdr) := by
    intro q hq
    obtain ⟨c, hc⟩ := Option.ne_none_iff_exists'.mp (hchain.2 q hq)
    obtain ⟨b, hb, rfl⟩ := h.live q c hc
    exact List.mem_map_of_mem hb
  have hle := (List.Nodup.subperm (Links.linked_nodup hchain.1) hsub).length_le
  rw [List.length_map] at hle
  exact hle

/-- The loop at a live block, with enough turns, returns if the store has a
    chain. -/
theorem Represents.ffree_none (h : Represents s a) (hb : b ∈ s.live) {fuel : Nat}
    (hfuel : s.live.length < fuel) (hnone : ffreeLoop fuel s.m b.virt = none) :
    ¬ a.Chained (b.virt + sizeofAllocHdr) := by
  rintro ⟨ps, hchain⟩
  have hptr : ptrOf b.virt = some (b.virt + sizeofAllocHdr) := if_neg (h.heap.ok.block hb).2.2.1
  have hsome := h.ffree_returns (Or.inl (Or.inr ⟨b, hb, rfl⟩)) (by rw [hptr]; exact hchain)
    (Nat.lt_of_le_of_lt (h.chain_length hchain) hfuel)
  rw [hnone] at hsome
  cases hsome

end Represents

end Pfi
