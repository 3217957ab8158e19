import Pfi.LinkStates

/-! # Reallocation

    `frealloc` copies as many bytes as the old header says into a new block,
    whatever its size, and then frees with `ffree`, which follows the links.

    The copy reads the old block and writes the new one, which do not meet, so
    it is a write of the bytes that were there (`copyBytes_eq`); within the new
    block it leaves all other memory and every header
    (`LinkedHeap.copied`).  The free then ends after one block exactly if the
    old block has no successor.  So a call that is not refused does what it
    should exactly if the old size and a header fit into the new block and
    `nxt` is null (`frealloc_keeps_iff`). -/

namespace Pfi

open Words RadixTable Run

/-! ## The function -/

/-- `memcpy`, byte by byte; `none` if an access faults. -/
def copyBytes : Machine → (dest src n : Nat) → Option Machine
  | m, _, _, 0 => some m
  | m, dest, src, n + 1 =>
      (m.readByte src).bind (fun v => (m.writeByte dest v).bind (fun m' =>
        copyBytes m' (add64 dest 1) (add64 src 1) n))

/-- The pointer that is returned, the number of bytes that are copied to it, the
    blocks that are freed, and the machine. -/
structure FreallocResult where
  ret : Nat
  copied : Nat
  freed : List Nat
  m : Machine

def frealloc (fuel : Nat) (m : Machine) (ptr newSize : Nat) : Option FreallocResult :=
  let hdr := hdrOf ptr
  (loadBytes m hdr allocHdrSig.length).bind (fun sig =>
    if sig ≠ allocHdrSig then some ⟨0, 0, [], m⟩
    else
      (fmalloc m newSize).bind (fun out =>
        if out.1 = 0 then some ⟨0, 0, [], out.2⟩
        else
          (sizeField out.2 hdr).bind (fun size =>
            (copyBytes out.2 out.1 ptr size).bind (fun m =>
              (ffreeLoop fuel m hdr).map (fun r => ⟨out.1, size, r.1, r.2⟩)))))

/-! ## What it should do -/

/-- Memory outside a block that holds no page table of the second machine is the
    same. -/
def SameOutside (b : Block) (m m' : Machine) : Prop :=
  ∀ q, ¬ (b.phys ≤ q ∧ q < b.phys + b.size) → q / pageSize * pageSize ∉ m'.tableLog →
    m'.loadByte q = m.loadByte q

/-- The new block has the bytes of the old one, nothing else is written, and the
    old block alone is freed; or a null pointer is returned and the old block
    is as it was. -/
structure FreallocKeeps (m : Machine) (b : Block) (size newSize : Nat) (r : FreallocResult) :
    Prop where
  contents : r.ret ≠ 0 → ∃ bytes,
    loadBytes m (b.virt + sizeofAllocHdr) (min size newSize) = some bytes ∧
      loadBytes r.m r.ret (min size newSize) = some bytes
  inside : r.ret ≠ 0 → (fmallocBlock m newSize).Holds r.ret r.copied
  outside : r.ret ≠ 0 → SameOutside (fmallocBlock m newSize) m r.m
  freed : r.ret ≠ 0 → r.freed = [b.virt]
  null : r.ret = 0 → r.freed = [] ∧
    ∀ i, i < b.size → r.m.readByte (b.virt + i) = m.readByte (b.virt + i)

/-- The call returns and does that. -/
def FreallocRight (m : Machine) (b : Block) (size newSize : Nat) : Prop :=
  ∃ fuel r, frealloc fuel m (b.virt + sizeofAllocHdr) newSize = some r ∧
    FreallocKeeps m b size newSize r

/-! ## The copy -/

section Copy

variable {m : Machine} {a d p q n : Nat}

/-- A copy between ranges that do not meet writes the bytes that were there.  By
    induction on the count; a byte that is written is not read later. -/
theorem copyBytes_eq (hok : TablesOk m) (hroot : m.cr3 / pageSize = m.root)
    (hsrc : MappedTo m a p n) (hdest : MappedTo m d q n) (hasrc : a + n < 2 ^ 64)
    (hadest : d + n < 2 ^ 64) (hapart : p + n ≤ q ∨ q + n ≤ p)
    (hout : ∀ i, i < n → ∀ x ∈ m.tableLog, x / pageSize ≠ (q + i) / pageSize) :
    copyBytes m d a n = writeBytes m d (m.bytesAt p n) := by
  induction n generalizing m a d p q with
  | zero => rfl
  | succ n ih =>
      obtain ⟨t, ht, rfl⟩ := Option.map_eq_some_iff.mp hdest.first
      have hread := readByte_mapped hsrc.first
      have hbyte : m.loadByte p < 256 := Nat.mod_lt _ (by decide)
      have hsame := storeByte_sameTables (hout 0 (Nat.succ_pos _)) (m.loadByte p)
      rw [Nat.add_zero] at hsame
      have hload := loadByte_storeByte m t.1 (v := m.loadByte p)
      have hwrite : m.writeByte d (m.loadByte p) = some (m.storeByte t.1 (m.loadByte p)) := by
        unfold Machine.writeByte
        rw [ht]
        rfl
      generalize m.storeByte t.1 (m.loadByte p) = m₁ at hsame hload hwrite
      have hregs := hsame.regs
      have htranslate := hsame.translate hok hroot
      have hrest : m₁.bytesAt (p + 1) n = m.bytesAt (p + 1) n := by
        refine bytesAt_congr (fun r hlo hhi => ?_)
        rw [hload r hbyte, if_neg (by omega)]
      have hbytes : m.bytesAt p (n + 1) = m.loadByte p :: m.bytesAt (p + 1) n := by
        unfold Machine.bytesAt
        rw [List.range_succ_eq_map, List.map_cons, List.map_map]
        refine congrArg _ (List.map_congr_left (fun i _ => ?_))
        show m.loadByte (p + (i + 1)) = m.loadByte (p + 1 + i)
        rw [Nat.add_assoc, Nat.add_comm 1 i]
      have hnext := @ih m₁ (a + 1) (d + 1) (p + 1) (t.1 + 1) (hsame.tablesOk hok)
        (by rw [hregs.cr3, hregs.root]; exact hroot) (hsrc.rest.congr htranslate)
        (hdest.rest.congr htranslate) (by omega) (by omega) (by omega) (by
          intro i hi x hx
          rw [hsame.tableLog] at hx
          have hx' := hout (i + 1) (Nat.succ_lt_succ hi) x hx
          rw [show t.1 + 1 + i = t.1 + (i + 1) by omega]
          exact hx')
      rw [hbytes]
      unfold copyBytes writeBytes
      rw [hread, Option.bind_some, hwrite, Option.bind_some, Option.bind_some,
        add64_of_lt (by omega), add64_of_lt (by omega), hnext, hrest]

end Copy

/-! ## Memory outside a block -/

section Outside

variable {m m' m'' : Machine} {b : Block}

/-- What a table of the last machine is, was none before. -/
theorem SameOutside.trans (h : SameOutside b m m') (h' : SameOutside b m' m'')
    (hlog : ∀ x ∈ m'.tableLog, x ∈ m''.tableLog) : SameOutside b m m'' := by
  intro q hq hout
  rw [h' q hq hout, h q hq (fun hx => hout (hlog _ hx))]

/-- A call of the memory system. -/
theorem SameOutside.of_stores (hok : TablesOk m') (h : StoresTouched m m') (b : Block) :
    SameOutside b m m' := by
  intro q _ hout
  unfold Machine.loadByte
  rw [hok.kept h hout]

/-- A write to the block. -/
theorem SameOutside.of_written {o : Nat} {vs : List Nat} (h : Written m (b.phys + o) vs m')
    (hin : o + vs.length ≤ b.size) : SameOutside b m m' := by
  intro q hq _
  rw [h q, if_neg (by omega)]

/-- Another live block is outside, and holds no table. -/
theorem SameOutside.live {s t : Sys} (h : SameOutside b s.m t.m) (hok : t.Ok)
    (hlog : TablesGranted t.m) (hb : b ∈ t.live) {c : Block} (hc : c ∈ t.live) (hne : c ≠ b)
    {q : Nat} (hlo : c.phys ≤ q) (hhi : q < c.phys + c.size) : t.m.loadByte q = s.m.loadByte q := by
  have hapart := hok.live_apart hb hc hne
  refine h q (by omega) (fun hx => hok.outside hlog hc hlo hhi _ hx ?_)
  exact Nat.mul_div_cancel _ (by decide)

end Outside

/-! ## Two blocks -/

section Blocks

variable {t : Sys} {b new : Block} {rest : List Block}

/-- A live block is known by its address. -/
theorem Owned.eq_of_virt {a : Avmf} {log : List Nat} {live : List Block} (h : Owned a log live)
    (hb : b ∈ live) (hnew : new ∈ live) (hvirt : b.virt = new.virt) : b = new := by
  obtain ⟨hd, hmem, hv, hp, hs⟩ := h.recorded b hb
  obtain ⟨hd', hmem', hv', hp', hs'⟩ := h.recorded new hnew
  have hsame : hd = hd' := by
    by_contra hne
    have hapart := h.regions.apart.forall hmem hmem' hne
    have hpos := (h.regions.sized hd hmem).1
    have hpos' := (h.regions.sized hd' hmem').1
    unfold AvmfHeader.ApartFrom Apart at hapart
    omega
  subst hsame
  rcases b with ⟨bv, bp, bs⟩
  rcases new with ⟨nv, np, ns⟩
  dsimp only at hv hp hs hv' hp' hs'
  rw [← hv, ← hp, ← hs, ← hv', ← hp', ← hs']

/-- A new block is none of the others. -/
theorem Sys.Ok.ne_new (h : t.Ok) (hlive : t.live = new :: rest) (hb : b ∈ rest) : b ≠ new := by
  rintro rfl
  have hpage := (h.block (b := b) (by rw [hlive]; exact List.mem_cons_self)).1
  have hapart := h.owned.pages.apart
  rw [hlive] at hapart
  have hself : Block.Page b (b.phys / 4096) := by
    unfold Block.Page
    omega
  exact (List.pairwise_cons.mp hapart).1 b hb _ hself hself

end Blocks

/-! ## The steps of the call -/

section Steps

variable {s : Sys} {b : Block} {size newSize : Nat}

/-- After an `fmalloc` that gives a block. -/
theorem LinkedHeap.given (h : LinkedHeap s)
    (hserves : LinkSys.Serves { sys := s } (.fmalloc newSize)) (h0 : ¬ Refuses s.m newSize) :
    ∃ m', Pfi.fmalloc s.m newSize
        = some ((fmallocBlock s.m newSize).virt + sizeofAllocHdr, m') ∧
      LinkedHeap { s.step (fmallocOp newSize) with m := m' } ∧
      (s.step (fmallocOp newSize)).live = fmallocBlock s.m newSize :: s.live ∧
      SameOutside (fmallocBlock s.m newSize) s.m m' := by
  obtain ⟨hok, -, -, hlive, hstores, -⟩ := h.ok.fmalloc h.within hserves h0
  obtain ⟨m', hmalloc, hsame, hwritten, hheap⟩ := h.fmalloc hserves h0
  have hin := hok.header_in (b := fmallocBlock s.m newSize) (by
    rw [hlive]
    exact List.mem_cons_self)
  refine ⟨m', hmalloc, hheap, hlive, SameOutside.trans
    (SameOutside.of_stores hok.agrees.tables hstores _)
    (@SameOutside.of_written _ _ (fmallocBlock s.m newSize) 0 _ hwritten (by
      rw [Nat.zero_add, length_allocHdr]
      exact hin)) (fun x hx => ?_)⟩
  rw [hsame.tableLog]
  exact hx

/-- The size that the header of a live block has. -/
theorem SizedBlock.sizeField (hsized : SizedBlock s.m b size) (h : s.Ok)
    (hb : b ∈ s.live) {t : Sys} (hok : t.Ok) (hbt : b ∈ t.live)
    (hkept : ∀ q, b.phys ≤ q → q < b.phys + b.size → t.m.loadByte q = s.m.loadByte q) :
    Pfi.sizeField t.m b.virt = some size := by
  have hpage := (h.block hb).1
  have hload := hok.loadBytes hbt (o := offsetSize) (n := 8) (by decide)
  have hbytes : t.m.bytesAt (b.phys + offsetSize) 8 = s.m.bytesAt (b.phys + offsetSize) 8 :=
    bytesAt_congr (fun q hlo hhi => hkept q (by simp only [offsetSize] at hlo; omega)
      (by simp only [offsetSize] at hhi; omega))
  unfold Pfi.sizeField readWord
  rw [hok.field hbt (by decide), hload, hbytes]
  exact congrArg some hsized.field

/-- The bytes of the old block are copied into the new one, behind both
    headers. -/
theorem LinkedHeap.copied (h : LinkedHeap s) {new : Block} (hb : b ∈ s.live) (hnew : new ∈ s.live)
    (hne : b ≠ new) {n : Nat} (hin : sizeofAllocHdr + n ≤ b.size)
    (hfits : sizeofAllocHdr + n ≤ new.size) :
    ∃ m', copyBytes s.m (new.virt + sizeofAllocHdr) (b.virt + sizeofAllocHdr) n = some m' ∧
      SameTables s.m m' ∧
      Written s.m (new.phys + sizeofAllocHdr)
        (s.m.bytesAt (b.phys + sizeofAllocHdr) n) m' := by
  have hlen : (s.m.bytesAt (b.phys + sizeofAllocHdr) n).length = n := by
    simp [Machine.bytesAt]
  have hapart := h.ok.live_apart hnew hb hne
  have hend := h.ok.block_end hb
  have hend' := h.ok.block_end hnew
  obtain ⟨m', hwrite, hsame, hwritten⟩ := h.ok.writeBlock h.granted.2 hnew
    (o := sizeofAllocHdr) (by rw [hlen]; exact hfits) (fun v hv => by
      obtain ⟨i, -, rfl⟩ := List.mem_map.mp hv
      exact Nat.mod_lt _ (by decide))
  refine ⟨m', ?_, hsame, hwritten⟩
  rw [← hwrite]
  refine copyBytes_eq h.ok.agrees.tables h.ok.agrees.root ((h.ok.mapped hb).part hin)
    ((h.ok.mapped hnew).part hfits) (by omega) (by omega) (by omega) (fun i hi => ?_)
  rw [Nat.add_assoc]
  exact h.ok.outside h.granted.2 hnew (by omega) (by omega)

/-- The signature of a live block is found. -/
theorem LinkedHeap.frealloc_signed (h : LinkedHeap s) (hb : b ∈ s.live) (fuel newSize : Nat) :
    frealloc fuel s.m (b.virt + sizeofAllocHdr) newSize
      = (Pfi.fmalloc s.m newSize).bind (fun out =>
          if out.1 = 0 then some ⟨0, 0, [], out.2⟩
          else
            (Pfi.sizeField out.2 b.virt).bind (fun size =>
              (copyBytes out.2 out.1 (b.virt + sizeofAllocHdr) size).bind (fun m =>
                (ffreeLoop fuel m b.virt).map (fun r => ⟨out.1, size, r.1, r.2⟩)))) := by
  have hsig := (h.ok.headerAt hb (h.header hb).1).sig
  unfold frealloc
  dsimp only
  rw [h.ok.hdrOf hb, hsig, Option.bind_some, if_neg (fun hc => hc rfl)]

/-- A call that is refused. -/
theorem LinkedHeap.frealloc_refused (h : LinkedHeap s) (hb : b ∈ s.live)
    (hserves : LinkSys.Serves { sys := s } (.fmalloc newSize)) (h0 : Refuses s.m newSize) :
    FreallocRight s.m b size newSize := by
  obtain ⟨hok, -, -⟩ := h.ok.served h.within hserves
  have hlive : (s.step (fmallocOp newSize)).live = s.live := if_pos h0
  have hb' : b ∈ (s.step (fmallocOp newSize)).live := by
    rw [hlive]
    exact hb
  have hstores : StoresTouched s.m (s.step (fmallocOp newSize)).m :=
    storesTouched_avmfAlloc _ _ _ _
  refine ⟨0, ⟨0, 0, [], (fmallocAlloc s.m newSize).m⟩, ?_, ?_⟩
  · rw [h.frealloc_signed hb, Pfi.fmalloc_refused h0, Option.bind_some]
    exact if_pos rfl
  · refine ⟨fun hc => absurd rfl hc, fun hc => absurd rfl hc, fun hc => absurd rfl hc,
      fun hc => absurd rfl hc, fun _ => ⟨rfl, fun i hi => ?_⟩⟩
    have hread' : (s.step (fmallocOp newSize)).m.readByte (b.virt + i)
        = some ((s.step (fmallocOp newSize)).m.loadByte (b.phys + i)) :=
      readByte_mapped (hok.mapped hb' i hi)
    rw [readByte_mapped (h.ok.mapped hb i hi)]
    rw [hok.loadByte_kept hserves.1.2 hstores hb' (by omega) (by omega)] at hread'
    exact hread'

/-- A call that gets a block copies as many bytes as the old header says, and
    frees. -/
theorem LinkedHeap.frealloc_given (h : LinkedHeap s) (hb : b ∈ s.live)
    (hsized : SizedBlock s.m b size) (hserves : LinkSys.Serves { sys := s } (.fmalloc newSize))
    (h0 : ¬ Refuses s.m newSize) :
    ∃ t : Sys, LinkedHeap t ∧ t.live = fmallocBlock s.m newSize :: s.live ∧
      SameOutside (fmallocBlock s.m newSize) s.m t.m ∧
      ∀ fuel, frealloc fuel s.m (b.virt + sizeofAllocHdr) newSize
        = (copyBytes t.m ((fmallocBlock s.m newSize).virt + sizeofAllocHdr)
            (b.virt + sizeofAllocHdr) size).bind (fun m =>
              (ffreeLoop fuel m b.virt).map (fun r =>
                ⟨(fmallocBlock s.m newSize).virt + sizeofAllocHdr, size, r.1, r.2⟩)) := by
  obtain ⟨m', hmalloc, hheap, hlive, hsame⟩ := h.given hserves h0
  refine ⟨_, hheap, hlive, hsame, fun fuel => ?_⟩
  have hbt : b ∈ (s.step (fmallocOp newSize)).live := by
    rw [hlive]
    exact List.mem_cons_of_mem _ hb
  have hnew : fmallocBlock s.m newSize ∈ (s.step (fmallocOp newSize)).live := by
    rw [hlive]
    exact List.mem_cons_self
  have hne : b ≠ fmallocBlock s.m newSize := hheap.ok.ne_new hlive hb
  have hret : (fmallocBlock s.m newSize).virt + sizeofAllocHdr ≠ 0 := Nat.succ_ne_zero _
  have hsize := hsized.sizeField h.ok hb hheap.ok hbt
    (fun q hlo hhi => hsame.live hheap.ok hheap.granted.2 hnew hbt hne hlo hhi)
  rw [h.frealloc_signed hb, hmalloc, Option.bind_some]
  dsimp only
  rw [if_neg hret, hsize, Option.bind_some]

/-- If the bytes fit, the copy reaches no header and nothing else, and the free
    is left. -/
theorem LinkedHeap.frealloc_fits (h : LinkedHeap s) (hb : b ∈ s.live)
    (hsized : SizedBlock s.m b size) (hserves : LinkSys.Serves { sys := s } (.fmalloc newSize))
    (h0 : ¬ Refuses s.m newSize)
    (hfits : sizeofAllocHdr + size ≤ (fmallocBlock s.m newSize).size) :
    ∃ u : Sys, LinkedHeap u ∧ u.live = fmallocBlock s.m newSize :: s.live ∧
      SameOutside (fmallocBlock s.m newSize) s.m u.m ∧
      nxtOf u.m b.virt = nxtOf s.m b.virt ∧
      (∀ i, i < size →
        u.m.loadByte ((fmallocBlock s.m newSize).phys + sizeofAllocHdr + i)
          = s.m.loadByte (b.phys + sizeofAllocHdr + i)) ∧
      ∀ fuel, frealloc fuel s.m (b.virt + sizeofAllocHdr) newSize
        = (ffreeLoop fuel u.m b.virt).map (fun r =>
            ⟨(fmallocBlock s.m newSize).virt + sizeofAllocHdr, size, r.1, r.2⟩) := by
  obtain ⟨t, ht, hlive, houtside, hcall⟩ := h.frealloc_given hb hsized hserves h0
  generalize fmallocBlock s.m newSize = new at hfits hlive houtside hcall ⊢
  have hnew : new ∈ t.live := by
    rw [hlive]
    exact List.mem_cons_self
  have hbt : b ∈ t.live := by
    rw [hlive]
    exact List.mem_cons_of_mem _ hb
  have hne := ht.ok.ne_new hlive hb
  -- the old bytes lie in the old block, so the copy reads no other
  have hold : sizeofAllocHdr + size ≤ b.size := by
    have hpage := (h.ok.block hb).1
    have hend := ht.ok.block_end hnew
    rw [hsized.pages] at hpage ⊢
    exact (fits_iff (Nat.mod_eq_of_lt hsized.word).symm (by omega)).mpr (by omega)
  obtain ⟨m', hcopy, hsame, hwritten⟩ := ht.copied hbt hnew hne hold hfits
  have hlen : (t.m.bytesAt (b.phys + sizeofAllocHdr) size).length = size := by
    simp [Machine.bytesAt]
  have hu := ht.written hnew hsame (Nat.le_refl _) (by rw [hlen]; exact hfits) hwritten
  -- the allocation has left the old block as it was
  have hkept : ∀ q, b.phys ≤ q → q < b.phys + b.size → t.m.loadByte q = s.m.loadByte q :=
    fun q hlo hhi => houtside.live ht.ok ht.granted.2 hnew hbt hne hlo hhi
  refine ⟨_, hu, hlive, houtside.trans ?_ ?_, ?_, fun i hi => ?_, fun fuel => ?_⟩
  · intro q hq hout
    rw [hwritten q, hlen, if_neg (by omega)]
  · intro x hx
    rw [hsame.tableLog]
    exact hx
  · have hin := h.ok.header_in hb
    have hheader := (h.header hb).1
    have hheader' : HeaderBytes m' b.phys (nxtAt s.m b.virt) (prevAt s.m b.virt) :=
      hheader.kept (fun q hlo hhi => by
        rw [ht.ok.kept_beside hnew hbt hne hwritten (by rw [hlen]; exact hfits) hlo (by omega)]
        exact hkept q hlo (by omega))
    rw [(h.ok.headerAt hb hheader).nxt]
    exact (hu.ok.headerAt hbt hheader').nxt
  · dsimp only
    rw [hwritten, hlen, if_pos ⟨by omega, by omega⟩, Nat.add_sub_cancel_left]
    unfold Machine.bytesAt
    rw [List.getD_eq_getElem _ _ (by simpa using hi), List.getElem_map, List.getElem_range]
    exact hkept _ (by omega) (by omega)
  · rw [hcall fuel, hcopy, Option.bind_some]

/-- The free of a block without a successor ends after it. -/
theorem LinkedHeap.ffree_single (h : LinkedHeap s) (hb : b ∈ s.live)
    (hnull : nxtOf s.m b.virt = some 0) :
    ffreeLoop 2 s.m b.virt = some ([b.virt], avmfFree s.m b.virt) := by
  have hnext : nxtAt s.m b.virt = 0 := by
    unfold nxtAt
    rw [hnull]
    rfl
  rw [h.loopOk.turn hb, hnext]
  rfl

/-- A free that frees one block is of a block without a successor. -/
theorem LinkedHeap.ffree_alone (h : LinkedHeap s) (hb : b ∈ s.live) {fuel : Nat} {m' : Machine}
    (hres : ffreeLoop fuel s.m b.virt = some ([b.virt], m')) : nxtOf s.m b.virt = some 0 := by
  obtain ⟨n, -, hends, hfreed⟩ := h.loopOk.returned (Or.inr (Or.inl ⟨b, hb, rfl⟩)) hres
  have hlen := congrArg List.length hfreed
  simp only [Walk.positions, List.length_map, List.length_range, List.length_singleton] at hlen
  subst hlen
  have hrest := (Walk.endsAfter_succ.mp hends).2
  have hnull : nxtAt s.m b.virt = 0 := not_not.mp hrest.ends
  rw [(h.header hb).2.1, hnull]

/-- A call that gets a block does what it should if the bytes fit and the old
    block has no successor. -/
theorem LinkedHeap.frealloc_right (h : LinkedHeap s) (hb : b ∈ s.live)
    (hsized : SizedBlock s.m b size) (hserves : LinkSys.Serves { sys := s } (.fmalloc newSize))
    (h0 : ¬ Refuses s.m newSize) (hnull : nxtOf s.m b.virt = some 0)
    (hfits : sizeofAllocHdr + size ≤ (fmallocBlock s.m newSize).size) :
    FreallocRight s.m b size newSize := by
  obtain ⟨u, hu, hlive, houtside, hnxt, hbytes, hcall⟩ :=
    h.frealloc_fits hb hsized hserves h0 hfits
  have hholds := ((fmallocBlock s.m newSize).holds_iff size).mpr hfits
  unfold FreallocRight
  generalize hgiven : fmallocBlock s.m newSize = new at hfits hlive houtside hbytes hcall hholds
  have hnew : new ∈ u.live := by
    rw [hlive]
    exact List.mem_cons_self
  have hbu : b ∈ u.live := by
    rw [hlive]
    exact List.mem_cons_of_mem _ hb
  have hne := hu.ok.ne_new hlive hb
  have hvirt : new.virt ≠ b.virt :=
    fun hsame => hne (hu.ok.owned.eq_of_virt hbu hnew hsame.symm)
  have hf := hu.free hbu
  have hnewf : new ∈ (u.step (.free b.virt)).live := mem_free_live.mpr ⟨hnew, hvirt⟩
  have hstores := storesTouched_avmfFree u.m b.virt
  refine ⟨2, ⟨new.virt + sizeofAllocHdr, size, [b.virt], avmfFree u.m b.virt⟩, ?_, ?_⟩
  · rw [hcall 2, hu.ffree_single hbu (hnxt.trans hnull)]
    rfl
  · refine ⟨fun _ => ?_, fun _ => ?_, fun _ => ?_, fun _ => rfl,
      fun hc => absurd hc (Nat.succ_ne_zero _)⟩
    · have hmin := Nat.min_le_left size newSize
      have hbend := h.ok.block_end hb
      have hold : sizeofAllocHdr + size ≤ b.size := by
        have hpage := (h.ok.block hb).1
        have hend := hu.ok.block_end hnew
        rw [hsized.pages] at hpage ⊢
        exact (fits_iff (Nat.mod_eq_of_lt hsized.word).symm (by omega)).mpr (by omega)
      refine ⟨_, h.ok.loadBlock hb (by omega), (hf.ok.loadBlock hnewf (by omega)).trans ?_⟩
      refine congrArg some (List.map_congr_left (fun i hi => ?_))
      rw [List.mem_range] at hi
      have hstay : (avmfFree u.m b.virt).loadByte (new.phys + sizeofAllocHdr + i)
          = u.m.loadByte (new.phys + sizeofAllocHdr + i) :=
        hf.ok.loadByte_kept hf.granted.2 hstores hnewf (by omega) (by omega)
      exact hstay.trans (hbytes i (by omega))
    · rw [hgiven]
      exact hholds
    · rw [hgiven]
      refine houtside.trans (SameOutside.of_stores hf.ok.agrees.tables hstores new) (fun x hx => ?_)
      rw [(avmfFree_allocator u.m b.virt).2.2.2.2]
      exact hx

/-- A call that gets a block does what it should only then. -/
theorem LinkedHeap.frealloc_only (h : LinkedHeap s) (hb : b ∈ s.live)
    (hsized : SizedBlock s.m b size) (hserves : LinkSys.Serves { sys := s } (.fmalloc newSize))
    (h0 : ¬ Refuses s.m newSize) (hright : FreallocRight s.m b size newSize) :
    nxtOf s.m b.virt = some 0 ∧ sizeofAllocHdr + size ≤ (fmallocBlock s.m newSize).size := by
  obtain ⟨fuel, r, hres, hkeeps⟩ := hright
  obtain ⟨t, -, -, -, hcall⟩ := h.frealloc_given hb hsized hserves h0
  obtain ⟨m₁, -, hfree⟩ := Option.bind_eq_some_iff.mp ((hcall fuel).symm.trans hres)
  obtain ⟨out, -, hr⟩ := Option.map_eq_some_iff.mp hfree
  have hret : r.ret = (fmallocBlock s.m newSize).virt + sizeofAllocHdr := by rw [← hr]
  have hcopied : r.copied = size := by rw [← hr]
  have hne : r.ret ≠ 0 := by
    rw [hret]
    exact Nat.succ_ne_zero _
  have hfits := hkeeps.inside hne
  rw [hret, hcopied, Block.holds_iff] at hfits
  refine ⟨?_, hfits⟩
  -- so the copy is done, and what is freed is the old block alone
  obtain ⟨u, hu, hlive, -, hnxt, -, hcall'⟩ := h.frealloc_fits hb hsized hserves h0 hfits
  obtain ⟨out', hloop, heq⟩ := Option.map_eq_some_iff.mp ((hcall' fuel).symm.trans hres)
  have hfreed := hkeeps.freed hne
  rw [← heq] at hfreed
  dsimp only at hfreed
  have hbu : b ∈ u.live := by
    rw [hlive]
    exact List.mem_cons_of_mem _ hb
  rw [← hnxt]
  have halone : ffreeLoop fuel u.m b.virt = some ([b.virt], out'.2) := by
    rw [hloop, ← hfreed]
  exact hu.ffree_alone hbu halone

end Steps

/-! ## Two blocks -/

/-- A heap with `n` pages from page `g` on to spare, headers for them and
    addresses below the PML4. -/
structure StockedHeap (s : Sys) (g n : Nat) : Prop where
  heap : LinkedHeap s
  supply : Supply s.m.avmf g n
  pml4 : s.m.firmwarePml4 = 0x200000
  user : 0 < s.m.avmf.heap .user ∧ s.m.avmf.heap .user + 4096 * n ≤ 0x200000
  index : s.m.avmf.headerIndex + n < avmfStaticSize

theorem FreshStart.stocked {m : Machine} {g : Nat} (h : FreshStart m g 215) :
    StockedHeap { m := m } g 215 := by
  have hindex := h.index
  refine ⟨linkedHeap_start h.ok h.granted h.reach, h.supply, h.pml4, ?_, ?_⟩
  · show 0 < m.avmf.heap .user ∧ m.avmf.heap .user + _ ≤ _
    rw [h.heap .user (by decide)]
    decide
  · simp only [avmfStaticSize]
    omega

/-- What the allocation of `k` pages takes. -/
theorem StockedHeap.allocated {s : Sys} {g n k size : Nat} (h : StockedHeap s g n) (hk : 0 < k)
    (hkn : k + 3 * (k + 1) ≤ n) (hsize : add64 size sizeofAllocHdr = 4096 * k) :
    (fmallocAlloc s.m size).virt = s.m.avmf.heap .user ∧ (s.step (fmallocOp size)).Granted ∧
      (s.step (fmallocOp size)).m.firmwarePml4 = s.m.firmwarePml4 ∧
      (∃ g', Supply (s.step (fmallocOp size)).m.avmf g' (n - (k + 3 * (k + 1)))) ∧
      (s.step (fmallocOp size)).m.avmf.heap .user = s.m.avmf.heap .user + 4096 * k ∧
      (s.step (fmallocOp size)).m.avmf.headerIndex
        ≤ s.m.avmf.headerIndex + 1 + 3 * (k + 1) := by
  obtain ⟨hpos, hend⟩ := h.user
  have hindex := h.index
  have hheapEnd : 0x200000 ≤ heapEnd .user := by decide
  have hround : align4k (4096 * k) = 4096 * k := by
    rw [align4k_of_lt (by omega)]
    omega
  obtain ⟨a, hrec, hrecords⟩ := h.supply.records .user (pagePresent ||| pageRw) hk (by omega)
    (by decide) hpos (by omega) (by omega)
  obtain ⟨hgranted, hsupply⟩ := hrecords.mapped hkn (m := s.m) h.heap.granted
    (s.m.avmf.heap .user) (g * 4096) (pagePresent ||| pageRw)
  have hresult := avmfAlloc_of_recorded hrec
  rw [hround, ← hsize] at hresult
  rw [← hsize] at hgranted hsupply
  have hm : (s.step (fmallocOp size)).m = pagerMapRange { s.m with avmf := a }
      (s.m.avmf.heap .user) (g * 4096) (add64 size sizeofAllocHdr) (pagePresent ||| pageRw) :=
    congrArg AllocResult.m hresult
  -- mapping takes pages from the stock, but none of the user heap's addresses
  have huser : (s.step (fmallocOp size)).m.avmf.heap .user = a.heap .user := by
    rw [hm]
    exact pagerMapRange_keeps (P := fun a' _ => a'.heap .user = a.heap .user)
      (fun _ hx => allocPageTable_heap (by decide) hx) rfl
  have hafter : (s.step (fmallocOp size)).m.avmf.headerIndex + s.m.tableLog.length
      ≤ (s.step (fmallocOp size)).m.tableLog.length + a.headerIndex := by
    rw [hm]
    exact pagerMapRange_keeps
      (P := fun a' log => a'.headerIndex + s.m.tableLog.length ≤ log.length + a.headerIndex)
      (fun _ hx => allocPageTable_index hx) (Nat.le_of_eq (Nat.add_comm _ _))
  -- at most three tables for each page are recorded with the block
  have hcount := pagerMapRange_count_calls { s.m with avmf := a } (s.m.avmf.heap .user)
    (g * 4096) (add64 size sizeofAllocHdr) (pagePresent ||| pageRw)
  rw [← hm, hsize, show 4096 * k / pageSize = k from Nat.mul_div_cancel_left k (by decide)]
    at hcount
  rw [← hm] at hsupply
  refine ⟨?_, ?_, ?_, hsupply, ?_, ?_⟩
  · unfold fmallocAlloc
    rw [hresult]
  · unfold Sys.Granted
    rw [hm]
    exact hgranted
  · rw [hm]
    exact (sameRegs_pagerMapRange _ _ _ _ _).firmwarePml4
  · rw [huser, hrecords.heap, if_pos rfl]
  · have hnext := hrecords.index
    dsimp only at hcount
    omega

/-- A block of `k` pages is given. -/
theorem StockedHeap.fmalloc {s : Sys} {g n k size : Nat} (h : StockedHeap s g n) (hk : 0 < k)
    (hkn : k + 3 * (k + 1) ≤ n) (hword : size < 2 ^ 64)
    (hsize : add64 size sizeofAllocHdr = 4096 * k) :
    LinkSys.Serves { sys := s } (.fmalloc size) ∧ ¬ Refuses s.m size ∧
      ∃ m' g' b, Pfi.fmalloc s.m size = some (b.virt + sizeofAllocHdr, m') ∧
        (s.step (fmallocOp size)).live = b :: s.live ∧
        StockedHeap { s.step (fmallocOp size) with m := m' } g' (n - (k + 3 * (k + 1))) ∧
        nxtOf m' b.virt = some 0 ∧ SizedBlock m' b size := by
  obtain ⟨hvirt, hgranted, hregs, ⟨g', hsupply⟩, huser, hheaders⟩ := h.allocated hk hkn hsize
  obtain ⟨hpos, hend⟩ := h.user
  have hpml4 := h.pml4
  have h0 : (fmallocAlloc s.m size).virt ≠ 0 := by
    rw [hvirt]
    exact Nat.ne_of_gt hpos
  have hindex := h.index
  have hround : align4k (4096 * k) = 4096 * k := by
    rw [align4k_of_lt (by omega)]
    omega
  have hserves : LinkSys.Serves { sys := s } (.fmalloc size) := by
    refine ⟨hgranted, fun _ => ?_, fun _ => Or.inl ?_⟩
    · unfold UserClear
      dsimp only
      rw [hsize, hround]
      omega
    · show (fmallocAlloc s.m size).virt + align4k (add64 size sizeofAllocHdr) ≤ s.m.firmwarePml4
      rw [hvirt, hsize, hround]
      omega
  obtain ⟨m', hmalloc, hsame, hwritten, hheap⟩ := h.heap.fmalloc hserves h0
  obtain ⟨-, -, -, hlive, -⟩ := h.heap.ok.fmalloc h.heap.within hserves h0
  have hnew : fmallocBlock s.m size ∈ (s.step (fmallocOp size)).live := by
    rw [hlive]
    exact List.mem_cons_self
  have hsized := sizedBlock_allocHdr hwritten rfl
  rw [Nat.mod_eq_of_lt hword] at hsized
  refine ⟨hserves, h0, m', g', _, hmalloc, hlive, ⟨hheap, ?_, ?_, ?_, ?_⟩,
    (hheap.ok.headerAt hnew (headerBytes_allocHdr hwritten)).nxt, hsized⟩
  · dsimp only
    rw [hsame.avmf]
    exact hsupply
  · dsimp only
    rw [hsame.regs.firmwarePml4, hregs]
    exact hpml4
  · dsimp only
    rw [hsame.avmf, huser]
    omega
  · dsimp only
    rw [hsame.avmf]
    omega

/-- The first block on the small map, of `k` pages. -/
theorem FreshStart.firstBlock {m : Machine} {g k size : Nat} (h : FreshStart m g 215)
    (hk : 0 < k) (hkn : k + 3 * (k + 1) ≤ 215) (hword : size < 2 ^ 64)
    (hsize : add64 size sizeofAllocHdr = 4096 * k) :
    ∃ s b g', LinkSys.call { sys := { m := m } } (.fmalloc size) = some s ∧ b ∈ s.sys.live ∧
      StockedHeap s.sys g' (215 - (k + 3 * (k + 1))) ∧ nxtOf s.sys.m b.virt = some 0 ∧
      SizedBlock s.sys.m b size := by
  obtain ⟨-, -, m', g', b, hmalloc, hlive, hheap, hnull, hsized⟩ :=
    h.stocked.fmalloc hk hkn hword hsize
  refine ⟨{ sys := { Sys.step { m := m } (fmallocOp size) with m := m' } }, b, g', ?_, ?_, hheap,
    hnull, hsized⟩
  · simp only [LinkSys.call]
    rw [hmalloc]
    rfl
  · dsimp only
    rw [hlive]
    exact List.mem_cons_self

/-! ## Every state -/

/-- In every state of the heap, `frealloc` of a live block does what it should
    exactly if `avmf_alloc` has no block for the request, or the old block has
    no successor and its size and a header fit into the pages of the new one. -/
theorem frealloc_keeps_iff {s : Sys} {b : Block} {size newSize : Nat} (h : LinkedHeap s)
    (hb : b ∈ s.live) (hsized : SizedBlock s.m b size)
    (hserves : LinkSys.Serves { sys := s } (.fmalloc newSize)) :
    FreallocRight s.m b size newSize ↔
      Refuses s.m newSize ∨ (nxtOf s.m b.virt = some 0 ∧
        sizeofAllocHdr + size ≤ align4k (add64 newSize sizeofAllocHdr)) := by
  by_cases h0 : Refuses s.m newSize
  · exact iff_of_true (h.frealloc_refused hb hserves h0) (Or.inl h0)
  · rw [or_iff_right h0]
    constructor
    · exact h.frealloc_only hb hsized hserves h0
    · rintro ⟨hnull, hfits⟩
      exact h.frealloc_right hb hsized hserves h0 hnull hfits

/-- A block of a page is made one of two. -/
theorem frealloc_keeps_larger :
    ∃ m s b, pagerInit (bootMachine (fun _ _ => 0)) lowE820 36 1 = some m ∧
      LinkSys.call { sys := { m := m } } (.fmalloc 4062) = some s ∧ b ∈ s.sys.live ∧
      FreallocRight s.sys.m b 4062 8158 := by
  obtain ⟨m, g, hres, h⟩ := lowE820_fresh (fun _ _ => 0)
  obtain ⟨s, b, g', hcall, hb, hheap, hnull, hsized⟩ :=
    @FreshStart.firstBlock m g 1 4062 h (by decide) (by decide) (by decide) (by decide)
  obtain ⟨hserves, -⟩ :=
    @StockedHeap.fmalloc _ _ _ 2 8158 hheap (by decide) (by decide) (by decide) (by decide)
  exact ⟨m, s, b, hres, hcall, hb, (frealloc_keeps_iff hheap.heap hb hsized hserves).mpr
    (Or.inr ⟨hnull, by decide⟩)⟩

/-- A block of two pages is not made one of one page: all of it is copied. -/
theorem frealloc_smaller :
    ∃ m s b, pagerInit (bootMachine (fun _ _ => 0)) lowE820 36 1 = some m ∧
      LinkSys.call { sys := { m := m } } (.fmalloc 8158) = some s ∧ b ∈ s.sys.live ∧
      SizedBlock s.sys.m b 8158 ∧ LinkSys.Serves s (.fmalloc 4062) ∧
      ¬ FreallocRight s.sys.m b 8158 4062 := by
  obtain ⟨m, g, hres, h⟩ := lowE820_fresh (fun _ _ => 0)
  obtain ⟨s, b, g', hcall, hb, hheap, -, hsized⟩ :=
    @FreshStart.firstBlock m g 2 8158 h (by decide) (by decide) (by decide) (by decide)
  obtain ⟨hserves, h0, -⟩ :=
    @StockedHeap.fmalloc _ _ _ 1 4062 hheap (by decide) (by decide) (by decide) (by decide)
  refine ⟨m, s, b, hres, hcall, hb, hsized, hserves, fun hright => ?_⟩
  have hfits := (hheap.heap.frealloc_only hb hsized hserves h0 hright).2
  exact absurd hfits (show ¬ sizeofAllocHdr + 8158 ≤ align4k (add64 4062 sizeofAllocHdr) by decide)

end Pfi
