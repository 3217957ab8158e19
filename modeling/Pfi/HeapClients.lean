import Pfi.HeapStore

/-! # Runs of a client of the heap

    Each call on its own: what it does to memory is what its operations do to
    the store (`Sys.Refines`).  `frealloc` is an allocation, a copy and the free
    of the old chain, so it is composed of the lemmas about the store's parts.
    `fcalloc` is an allocation and no more: the `memset` that it calls stores
    nothing for a zero byte.

    By induction every run of calls is a run of operations
    (`ClientRun.refines`), from which what the library says of runs is read off:
    a byte of a live block is the last one that the client stored there
    (`client_byte_stays`). -/

namespace Pfi

open Words RadixTable Run BlockStore

/-! ## Calls -/

/-- A call of a client, or a store to bytes of a block. -/
inductive ClientCall where
  | fmalloc (size : Nat)
  | fcalloc (nmemb size : Nat)
  | flink (ptr1 ptr2 : Nat)
  | ffree (ptr : Nat)
  | frealloc (ptr newSize : Nat)
  | put (ptr offset : Nat) (bytes : List Nat)
deriving Repr, DecidableEq

/-- What is returned, zero for nothing, and the memory system; `none` if the call
    faults or does not return.  A turn of a loop frees a live block, so that one
    more turn than there are live blocks is enough. -/
def Sys.client (s : Sys) : ClientCall → Option (Nat × Sys)
  | .fmalloc size =>
      (fmalloc s.m size).map (fun r => (r.1, { s.step (fmallocOp size) with m := r.2 }))
  | .fcalloc nmemb size =>
      (fcalloc memsetQuads s.m nmemb size).map
        (fun r => (r.1, { s.step (fmallocOp (mul64 nmemb size)) with m := r.2 }))
  | .flink ptr1 ptr2 => (flink s.m ptr1 ptr2).map (fun m => (0, { s with m := m }))
  | .ffree ptr =>
      (ffreeLoop (s.live.length + 1) s.m (hdrOf ptr)).map
        (fun r => (0, { exec Sys.step s (r.1.map MemOp.free) with m := r.2 }))
  | .frealloc ptr newSize =>
      (frealloc (s.live.length + 2) s.m ptr newSize).map (fun r => (r.ret,
        if r.ret = 0 then { s with m := r.m }
        else
          { exec Sys.step (s.step (fmallocOp newSize)) (r.freed.map MemOp.free) with m := r.m }))
  | .put ptr offset bytes =>
      (writeBytes s.m (add64 ptr offset) bytes).map (fun m => (0, { s with m := m }))

/-- What the call is for the client, by what it returns. -/
def ClientCall.ops (ret : Nat) : ClientCall → List (Op Nat Nat)
  | .fmalloc size => if ret = 0 then [] else [.alloc ret size]
  | .fcalloc nmemb size => if ret = 0 then [] else [.alloc ret (nmemb * size)]
  | .flink ptr1 ptr2 => [.link ptr1 ptr2]
  | .ffree ptr => [.free ptr]
  | .frealloc ptr newSize =>
      if ret = 0 then [] else [.alloc ret newSize, .copy ptr ret, .free ptr]
  | .put ptr offset bytes => [.put ptr offset bytes]

/-- The pointer that a call frees. -/
def ClientCall.frees : ClientCall → Option Nat
  | .ffree ptr => some ptr
  | .frealloc ptr _ => some ptr
  | _ => none

/-- The size that a call hands to `fmalloc`. -/
def ClientCall.request : ClientCall → Option Nat
  | .fmalloc size => some size
  | .fcalloc nmemb size => some (mul64 nmemb size)
  | .frealloc _ newSize => some newSize
  | _ => none

/-- The block of a pointer, with the size that was asked for. -/
def Sys.BlockOf (s : Sys) (ptr : Nat) (b : Block) (size : Nat) : Prop :=
  b ∈ s.live ∧ ptr = b.virt + sizeofAllocHdr ∧ SizedBlock s.m b size

/-- Sizes leave room for the header, pointers are live, the bytes that `frealloc`
    copies fit into the new pages, and a store is within the block. -/
def Sys.Proper (s : Sys) : ClientCall → Prop
  | .fmalloc size => size + sizeofAllocHdr ≤ 2 ^ 64
  | .fcalloc nmemb size => nmemb * size + sizeofAllocHdr ≤ 2 ^ 64
  | .flink ptr1 ptr2 => (∃ b n, s.BlockOf ptr1 b n) ∧ ∃ b n, s.BlockOf ptr2 b n
  | .ffree ptr => ∃ b n, s.BlockOf ptr b n
  | .frealloc ptr newSize => newSize + sizeofAllocHdr ≤ 2 ^ 64 ∧
      ∃ b n, s.BlockOf ptr b n ∧ sizeofAllocHdr + n ≤ align4k (add64 newSize sizeofAllocHdr)
  | .put ptr offset bytes => (∀ v ∈ bytes, v < 256) ∧
      ∃ b n, s.BlockOf ptr b n ∧ offset + bytes.length ≤ n

/-- Each request that succeeds takes a clear range, without the page at which the
    PML4 is reached, and gets its page tables. -/
def Sys.ServesCall (s : Sys) (c : ClientCall) : Prop :=
  ∀ size, c.request = some size → LinkSys.Serves { sys := s } (.fmalloc size)

/-- A run of proper calls that are served, with what each returns. -/
inductive ClientRun : Sys → List (ClientCall × Nat) → Sys → Prop where
  | nil (s : Sys) : ClientRun s [] s
  | cons {s t u : Sys} {c : ClientCall} {ret : Nat} {cs : List (ClientCall × Nat)} : s.Proper c →
      s.ServesCall c → s.client c = some (ret, t) → ClientRun t cs u →
      ClientRun s ((c, ret) :: cs) u

/-! ## What a call does -/

/-- A call that returns is a run of operations, and one that does not is the free
    of a block without a chain. -/
def Sys.Refines (s : Sys) (a : Store Nat Nat) (c : ClientCall) : Prop :=
  (∀ ret t, s.client c = some (ret, t) → ∃ a', Steps a (c.ops ret) a' ∧ Represents t a') ∧
    (s.client c = none → ∃ p, c.frees = some p ∧ ¬ a.Chained p)

section Calls

variable {s t : Sys} {a a' : Store Nat Nat} {b : Block} {p size : Nat} {c : ClientCall}

theorem Sys.refines_of_some (ret : Nat) (hcall : s.client c = some (ret, t))
    (hsteps : Steps a (c.ops ret) a') (hrep : Represents t a') : s.Refines a c := by
  constructor
  · intro ret' t' hcall'
    rw [hcall] at hcall'
    obtain ⟨rfl, rfl⟩ := Prod.mk.inj (Option.some.inj hcall')
    exact ⟨a', hsteps, hrep⟩
  · intro hnone
    rw [hcall] at hnone
    cases hnone

/-- The cell of a pointer. -/
theorem Represents.blockOf (h : Represents s a) (hb : s.BlockOf p b size) :
    ∃ x, a.cell p = some x ∧ x.room = size ∧ CellAt s.m b x := by
  obtain ⟨hmem, rfl, hsized⟩ := hb
  obtain ⟨x, hx, hat⟩ := h.cells b hmem
  exact ⟨x, hx, hat.room hsized, hat⟩

/-- What was asked for in all is no part of what the client sees. -/
theorem Represents.asked (h : Represents s a) (f : MemoryAllocType → Nat) :
    Represents { s with asked := f } a := by
  obtain ⟨⟨hok, hgranted, hwithin, hheaders⟩, hcells, hlive, hused⟩ := h
  refine ⟨⟨⟨hok.owned, hok.agrees⟩, hgranted, ⟨hwithin.reach, hwithin.spared⟩, fun b hb => ?_⟩,
    hcells, hlive, hused⟩
  obtain ⟨nxt, prev, n, hbytes, hsized, hsafe⟩ := hheaders b hb
  exact ⟨nxt, prev, n, hbytes, hsized, hsafe.imp id (fun hdead =>
    ⟨hdead.unmapped, hdead.canonical, hdead.region⟩)⟩

theorem Represents.client_fmalloc (h : Represents s a)
    (hserves : LinkSys.Serves { sys := s } (.fmalloc size))
    (hfits : size + sizeofAllocHdr ≤ 2 ^ 64) : s.Refines a (.fmalloc size) := by
  by_cases h0 : Refuses s.m size
  · refine Sys.refines_of_some 0 ?_ (.nil a) (h.refused hserves h0)
    simp only [Sys.client]
    rw [Pfi.fmalloc_refused h0]
    rfl
  · obtain ⟨m', hmalloc, -, hfresh, hrep⟩ := h.fmalloc hserves h0 hfits
    refine @Sys.refines_of_some _ _ _ _ (.fmalloc size)
      ((fmallocBlock s.m size).virt + sizeofAllocHdr) ?_ (.one (.alloc size hfresh)) hrep
    simp only [Sys.client]
    rw [hmalloc]
    rfl

theorem Represents.client_fcalloc (h : Represents s a) {nmemb : Nat}
    (hserves : LinkSys.Serves { sys := s } (.fmalloc (mul64 nmemb size)))
    (hfits : nmemb * size + sizeofAllocHdr ≤ 2 ^ 64) : s.Refines a (.fcalloc nmemb size) := by
  have hword : nmemb * size < 2 ^ 64 := by
    simp only [sizeofAllocHdr] at hfits
    omega
  have hproduct : mul64 nmemb size = nmemb * size := Nat.mod_eq_of_lt hword
  rw [hproduct] at hserves
  by_cases h0 : Refuses s.m (nmemb * size)
  · refine Sys.refines_of_some 0 ?_ (.nil a) (h.refused hserves h0)
    simp only [Sys.client, Pfi.fcalloc]
    rw [hproduct, Pfi.fmalloc_refused h0, Option.bind_some, if_pos rfl]
    rfl
  · obtain ⟨m', hmalloc, -, hfresh, hrep⟩ := h.fmalloc hserves h0 hfits
    have hret : (fmallocBlock s.m (nmemb * size)).virt + sizeofAllocHdr ≠ 0 := Nat.succ_ne_zero _
    refine @Sys.refines_of_some _ _ _ _ (.fcalloc nmemb size)
      ((fmallocBlock s.m (nmemb * size)).virt + sizeofAllocHdr) ?_
      (.one (.alloc (nmemb * size) hfresh)) hrep
    simp only [Sys.client, Pfi.fcalloc]
    rw [hproduct, hmalloc, Option.bind_some]
    dsimp only
    rw [if_neg hret, memsetQuads_zero]
    rfl

theorem Represents.client_flink (h : Represents s a) {p₁ p₂ : Nat} {b₁ b₂ : Block} {n₁ n₂ : Nat}
    (hb₁ : s.BlockOf p₁ b₁ n₁) (hb₂ : s.BlockOf p₂ b₂ n₂) : s.Refines a (.flink p₁ p₂) := by
  obtain ⟨x, hx, -⟩ := h.blockOf hb₁
  obtain ⟨y, hy, -⟩ := h.blockOf hb₂
  obtain ⟨hmem₁, rfl, -⟩ := hb₁
  obtain ⟨hmem₂, rfl, -⟩ := hb₂
  obtain ⟨m', hlink, hrep⟩ := h.flink hmem₁ hmem₂ hx
  refine Sys.refines_of_some 0 ?_ (.one (.link hx ?_)) hrep
  · simp only [Sys.client]
    rw [hlink]
    rfl
  · rw [hy]
    exact Option.some_ne_none y

theorem Represents.client_put (h : Represents s a) {o : Nat} {vs : List Nat}
    (hb : s.BlockOf p b size) (hbytes : ∀ v ∈ vs, v < 256) (hin : o + vs.length ≤ size) :
    s.Refines a (.put p o vs) := by
  obtain ⟨x, hx, rfl, -⟩ := h.blockOf hb
  obtain ⟨hmem, rfl, -⟩ := hb
  obtain ⟨m', hwrite, hrep⟩ := h.put hmem hx hin hbytes
  refine Sys.refines_of_some 0 ?_ (.one (.put hx hin)) hrep
  simp only [Sys.client]
  rw [hwrite]
  rfl

theorem Represents.client_ffree (h : Represents s a) (hb : s.BlockOf p b size) :
    s.Refines a (.ffree p) := by
  obtain ⟨hmem, rfl, -⟩ := hb
  have hptr : ptrOf b.virt = some (b.virt + sizeofAllocHdr) :=
    if_neg (h.heap.ok.block hmem).2.2.1
  constructor
  · intro ret t hcall
    simp only [Sys.client] at hcall
    rw [h.heap.ok.hdrOf hmem, Option.map_eq_some_iff] at hcall
    obtain ⟨⟨freed, m'⟩, hres, heq⟩ := hcall
    obtain ⟨rfl, rfl⟩ := Prod.mk.inj heq
    obtain ⟨ps, hchain, rfl, hrep⟩ := h.ffree (Or.inl (Or.inr ⟨b, hmem, rfl⟩)) hres
    rw [hptr] at hchain
    exact ⟨a.drop ps, .one (.free hchain), hrep⟩
  · intro hnone
    simp only [Sys.client] at hnone
    rw [h.heap.ok.hdrOf hmem, Option.map_eq_none_iff] at hnone
    exact ⟨_, rfl, h.ffree_none hmem (Nat.lt_succ_self _) hnone⟩

/-! ## A reallocation -/

/-- What a list of frees leaves beside the machine does not depend on it. -/
theorem exec_free_with (s : Sys) (m x : Machine) (ps : List Nat) :
    { exec Sys.step s (ps.map MemOp.free) with m := x }
      = { exec Sys.step { s with m := m } (ps.map MemOp.free) with m := x } := by
  induction ps generalizing s m with
  | nil => rfl
  | cons p ps ih =>
      rw [List.map_cons, exec_cons, exec_cons]
      exact ih (s.step (.free p)) (avmfFree m p)

/-- The old bytes are copied into a new block, as far as there is room. -/
theorem Represents.copied (h : Represents s a) {new : Block} (hb : b ∈ s.live) (hnew : new ∈ s.live)
    (hne : b ≠ new) {d x : Cell Nat Nat} (hd : a.cell (b.virt + sizeofAllocHdr) = some d)
    (hx : a.cell (new.virt + sizeofAllocHdr) = some x)
    (hfits : sizeofAllocHdr + d.room ≤ new.size) :
    ∃ m', copyBytes s.m (new.virt + sizeofAllocHdr) (b.virt + sizeofAllocHdr) d.room = some m' ∧
      Represents { s with m := m' } (a.set (new.virt + sizeofAllocHdr) (x.copy d)) := by
  obtain ⟨d', hd', hatd⟩ := h.cells b hb
  rw [hd] at hd'
  obtain rfl := Option.some.inj hd'
  obtain ⟨x', hx', hatx⟩ := h.cells new hnew
  rw [hx] at hx'
  obtain rfl := Option.some.inj hx'
  obtain ⟨m', hcopy, hsame, hw⟩ := h.heap.copied hb hnew hne hatd.fits hfits
  have hlen : (s.m.bytesAt (b.phys + sizeofAllocHdr) d.room).length = d.room := by
    simp [Machine.bytesAt]
  have hroom : ∀ i v, (x.copy d).bytes i = some v → (i < d.room ∧ i < x.room) ∧
      d.bytes i = some v := by
    intro i v hv
    by_cases hi : i < min d.room x.room
    · have hbyte : (x.copy d).bytes i = d.bytes i := if_pos hi
      rw [hbyte] at hv
      exact ⟨Nat.lt_min.mp hi, hv⟩
    · have hbyte : (x.copy d).bytes i = none := if_neg hi
      rw [hbyte] at hv
      cases hv
  refine ⟨m', hcopy, h.write hnew hsame hw (by rw [hlen]; exact hfits)
    (h.heap.written hnew hsame (Nat.le_refl _) (by rw [hlen]; exact hfits) hw)
    (hatx.written (o := 0) hw (fun i v hv => (hroom i v hv).1.2)
      (fun i v hv _ hi => ?_) (fun i v hv hout => ?_))⟩
  · obtain ⟨⟨hid, -⟩, hv⟩ := hroom i v hv
    unfold Machine.bytesAt
    rw [Nat.sub_zero, List.getD_eq_getElem _ _ (by simpa using hid), List.getElem_map,
      List.getElem_range]
    exact (hatd.bytes i v hv).2
  · obtain ⟨⟨hid, -⟩, -⟩ := hroom i v hv
    exact absurd ⟨Nat.zero_le i, by rw [hlen]; omega⟩ hout

/-- A new block is on no chain. -/
theorem chained_set {q : Nat} (hq : q ∉ a.used) (x y : Cell Nat Nat) (h : a.Chained p) :
    ((a.set q x).set q y).Chained p := by
  obtain ⟨ps, hchain⟩ := h
  refine ⟨ps, (Store.chain_congr (fun r hr => ?_)).mpr hchain⟩
  have hne : r ≠ q := by
    rintro rfl
    obtain ⟨z, hz⟩ := Option.ne_none_iff_exists'.mp (hchain.2 r hr)
    exact hq (a.cell_used r z hz)
  rw [Store.set_cell_of_ne hne, Store.set_cell_of_ne hne]

theorem Represents.client_frealloc (h : Represents s a) {newSize : Nat}
    (hserves : LinkSys.Serves { sys := s } (.fmalloc newSize)) (hb : s.BlockOf p b size)
    (hnewFits : newSize + sizeofAllocHdr ≤ 2 ^ 64)
    (hfits : sizeofAllocHdr + size ≤ align4k (add64 newSize sizeofAllocHdr)) :
    s.Refines a (.frealloc p newSize) := by
  obtain ⟨d, hd, rfl, -⟩ := h.blockOf hb
  obtain ⟨hmem, rfl, -⟩ := hb
  by_cases h0 : Refuses s.m newSize
  · refine Sys.refines_of_some 0 ?_ (.nil a) ((h.refused hserves h0).asked s.asked)
    have hlive : (s.step (fmallocOp newSize)).live = s.live := if_pos h0
    simp only [Sys.client]
    rw [h.heap.frealloc_signed hmem, Pfi.fmalloc_refused h0, Option.bind_some, if_pos rfl,
      Option.map_some, if_pos rfl, hlive]
    rfl
  · obtain ⟨m₁, hmalloc, hlive, hfresh, hrep⟩ := h.fmalloc hserves h0 hnewFits
    have hfitsNew : sizeofAllocHdr + d.room ≤ (fmallocBlock s.m newSize).size := hfits
    generalize fmallocBlock s.m newSize = new at hmalloc hlive hfresh hrep hfitsNew
    have hnew : new ∈ (s.step (fmallocOp newSize)).live := by
      rw [hlive]
      exact List.mem_cons_self
    have hbt : b ∈ (s.step (fmallocOp newSize)).live := by
      rw [hlive]
      exact List.mem_cons_of_mem _ hmem
    have hne : b ≠ new := hrep.heap.ok.ne_new hlive hmem
    have hret : new.virt + sizeofAllocHdr ≠ 0 := Nat.succ_ne_zero _
    -- the old cell is still there, and its header gives the number of bytes to copy
    have hd₁ : (a.set (new.virt + sizeofAllocHdr) (Cell.fresh newSize)).cell
        (b.virt + sizeofAllocHdr) = some d := by
      rw [Store.set_cell_of_ne (fun heq => hfresh (by
        rw [← heq]
        exact a.cell_used _ d hd))]
      exact hd
    obtain ⟨d', hd', hat⟩ := hrep.cells b hbt
    rw [hd₁] at hd'
    obtain rfl := Option.some.inj hd'
    have hsize := hat.sized.sizeField hrep.heap.ok hbt hrep.heap.ok hbt (fun _ _ _ => rfl)
    obtain ⟨m₂, hcopy, hrep₂⟩ :=
      @Represents.copied _ _ b hrep new hbt hnew hne _ _ hd₁ (Store.set_cell_self a _ _) hfitsNew
    -- past the copy the call is the loop of the free
    have hcall : frealloc (s.live.length + 2) s.m (b.virt + sizeofAllocHdr) newSize
        = (ffreeLoop (s.live.length + 2) m₂ b.virt).map (fun r =>
            ⟨new.virt + sizeofAllocHdr, d.room, r.1, r.2⟩) := by
      dsimp only at hcopy hsize
      rw [h.heap.frealloc_signed hmem, hmalloc, Option.bind_some]
      dsimp only
      rw [if_neg hret, hsize, Option.bind_some, hcopy, Option.bind_some]
    have hptr : ptrOf b.virt = some (b.virt + sizeofAllocHdr) :=
      if_neg (h.heap.ok.block hmem).2.2.1
    constructor
    · -- a call that returns: an allocation, a copy and a free of the store
      intro ret t hres
      simp only [Sys.client] at hres
      rw [hcall, Option.map_map, Option.map_eq_some_iff] at hres
      obtain ⟨⟨freed, m'⟩, hloop, heq⟩ := hres
      dsimp only [Function.comp] at heq
      rw [if_neg hret] at heq
      obtain ⟨rfl, rfl⟩ := Prod.mk.inj heq
      obtain ⟨ps, hchain, rfl, hrep₃⟩ :=
        hrep₂.ffree (Or.inl (Or.inr ⟨b, hbt, rfl⟩)) hloop
      rw [hptr] at hchain
      have hops : ClientCall.ops (new.virt + sizeofAllocHdr)
          (.frealloc (b.virt + sizeofAllocHdr) newSize)
          = [.alloc (new.virt + sizeofAllocHdr) newSize,
            .copy (b.virt + sizeofAllocHdr) (new.virt + sizeofAllocHdr),
            .free (b.virt + sizeofAllocHdr)] := by
        simp only [ClientCall.ops]
        rw [if_neg hret]
      have hsteps := Steps.cons (.alloc newSize hfresh)
        (.cons (.copy hd₁ (Store.set_cell_self a _ _)) (.one (.free hchain)))
      rw [← hops] at hsteps
      refine ⟨_, hsteps, ?_⟩
      rw [exec_free_with _ m₂]
      exact hrep₃
    · -- a call that does not return stands in the loop of the free
      intro hnone
      simp only [Sys.client] at hnone
      rw [hcall, Option.map_map, Option.map_eq_none_iff] at hnone
      refine ⟨_, rfl, fun hchained => hrep₂.ffree_none hbt ?_ hnone
        (chained_set hfresh _ _ hchained)⟩
      dsimp only
      rw [hlive, List.length_cons]
      exact Nat.lt_succ_self _

/-- Every proper call that is served. -/
theorem Represents.call (h : Represents s a) (hproper : s.Proper c) (hserves : s.ServesCall c) :
    s.Refines a c := by
  cases c with
  | fmalloc size => exact h.client_fmalloc (hserves size rfl) hproper
  | fcalloc nmemb size => exact h.client_fcalloc (hserves _ rfl) hproper
  | flink p₁ p₂ =>
      obtain ⟨⟨b₁, n₁, hb₁⟩, b₂, n₂, hb₂⟩ := hproper
      exact h.client_flink hb₁ hb₂
  | ffree p =>
      obtain ⟨b, n, hb⟩ := hproper
      exact h.client_ffree hb
  | frealloc p newSize =>
      obtain ⟨hnew, b, n, hb, hfits⟩ := hproper
      exact h.client_frealloc (hserves newSize rfl) hb hnew hfits
  | put p o vs =>
      obtain ⟨hbytes, b, n, hb, hin⟩ := hproper
      exact h.client_put hb hbytes hin

end Calls

/-! ## Runs -/

/-- The operations of the calls of a run. -/
def runOps (cs : List (ClientCall × Nat)) : List (Op Nat Nat) := cs.flatMap (fun c => c.1.ops c.2)

theorem ClientRun.refines {s t : Sys} {cs : List (ClientCall × Nat)} (hrun : ClientRun s cs t)
    {a : Store Nat Nat} (h : Represents s a) :
    ∃ a', Steps a (runOps cs) a' ∧ Represents t a' := by
  induction hrun generalizing a with
  | nil => exact ⟨a, .nil a, h⟩
  | cons hproper hserves hcall _ ih =>
      obtain ⟨a₁, hsteps, h₁⟩ := (h.call hproper hserves).1 _ _ hcall
      obtain ⟨a₂, hsteps₂, h₂⟩ := ih h₁
      exact ⟨a₂, hsteps.append hsteps₂, h₂⟩

/-- A heap without blocks. -/
theorem represents_start {m : Machine} (h : LinkedHeap { m := m }) :
    Represents { m := m } Store.empty :=
  ⟨h, fun _ hb => absurd hb List.not_mem_nil, fun _ _ hc => absurd hc.symm (Option.some_ne_none _),
    fun _ hp => absurd hp id⟩

/-- What stores at a byte of a used pointer is a `put`: the others store at a
    pointer that they have just given. -/
theorem runOps_writes {cs : List (ClientCall × Nat)} {a a' : Store Nat Nat} {p i : Nat}
    (h : Steps a (runOps cs) a') (hp : p ∈ a.used) {op : Op Nat Nat} (hop : op ∈ runOps cs)
    (hw : op.Writes p i) :
    ∃ o vs ret, (ClientCall.put p o vs, ret) ∈ cs ∧ o ≤ i ∧ i < o + vs.length := by
  have hnew : ∀ n c ret, (c, ret) ∈ cs → Op.alloc p n ∉ ClientCall.ops ret c := by
    intro n c ret hc hmem
    exact h.alloc_unused hp n (List.mem_flatMap.mpr ⟨(c, ret), hc, hmem⟩)
  obtain ⟨⟨c, ret⟩, hc, hmem⟩ := List.mem_flatMap.mp hop
  dsimp only at hmem
  have hgiven : ∀ {n : Nat} {rest : List (Op Nat Nat)}, p = ret →
      ClientCall.ops ret c = .alloc ret n :: rest → False := by
    intro n rest heq hops
    refine hnew n c ret hc ?_
    rw [hops, heq]
    exact List.mem_cons_self
  cases c with
  | fmalloc size =>
      simp only [ClientCall.ops] at hmem
      split at hmem
      · cases hmem
      · rw [List.mem_singleton.mp hmem] at hw
        exact absurd hw id
  | fcalloc nmemb size =>
      simp only [ClientCall.ops] at hmem
      split at hmem
      · cases hmem
      · rw [List.mem_singleton.mp hmem] at hw
        exact absurd hw id
  | flink p₁ p₂ =>
      rw [List.mem_singleton.mp hmem] at hw
      exact absurd hw id
  | ffree q =>
      rw [List.mem_singleton.mp hmem] at hw
      exact absurd hw id
  | frealloc q newSize =>
      simp only [ClientCall.ops] at hmem hgiven
      split at hmem
      · cases hmem
      · next hret =>
          rw [if_neg hret] at hgiven
          rcases List.mem_cons.mp hmem with rfl | hmem
          · exact absurd hw id
          · rcases List.mem_cons.mp hmem with rfl | hmem
            · exact absurd rfl (hgiven hw)
            · rw [List.mem_singleton.mp hmem] at hw
              exact absurd hw id
  | put q o vs =>
      rw [List.mem_singleton.mp hmem] at hw
      obtain ⟨rfl, hin⟩ := hw
      exact ⟨o, vs, ret, hc, hin⟩

theorem ClientRun.split {s t : Sys} {cs cs' : List (ClientCall × Nat)}
    (hrun : ClientRun s (cs ++ cs') t) : ∃ u, ClientRun s cs u ∧ ClientRun u cs' t := by
  induction cs generalizing s with
  | nil => exact ⟨s, .nil s, hrun⟩
  | cons c cs ih =>
      cases hrun with
      | cons hproper hserves hcall hrest =>
          obtain ⟨u, hfirst, hsecond⟩ := ih hrest
          exact ⟨u, .cons hproper hserves hcall hfirst, hsecond⟩

/-- On a fresh heap, a page of which the first byte is stored. -/
theorem FreshStart.clientRun {m : Machine} {g : Nat} (h : FreshStart m g 215) :
    ∃ p t, ClientRun { m := m } [(.fmalloc 4062, p), (.put p 0 [7], 0)] t ∧
      ∃ b n, t.BlockOf p b n := by
  obtain ⟨hserves, -, m₁, g', b, hmalloc, hlive, hheap, -, hsized⟩ :=
    @StockedHeap.fmalloc _ _ _ 1 4062 h.stocked (by decide) (by decide) (by decide) (by decide)
  have hproper : Sys.Proper { m := m } (.fmalloc 4062) := by
    show 4062 + sizeofAllocHdr ≤ 2 ^ 64
    decide
  have hserved : Sys.ServesCall { m := m } (.fmalloc 4062) := by
    rintro size ⟨rfl⟩
    exact hserves
  have hcall : Sys.client { m := m } (.fmalloc 4062) = some (b.virt + sizeofAllocHdr,
      { Sys.step { m := m } (fmallocOp 4062) with m := m₁ }) := by
    simp only [Sys.client]
    rw [hmalloc]
    rfl
  have hrefines := (represents_start h.stocked.heap).call hproper hserved
  generalize Sys.step { m := m } (fmallocOp 4062) = u at hcall hlive
  obtain ⟨a, -, hrep⟩ := hrefines.1 _ _ hcall
  have hb : b ∈ u.live := by
    rw [hlive]
    exact List.mem_cons_self
  obtain ⟨c, hc, hat⟩ := hrep.cells b hb
  have hroom := hat.room hsized
  have hin : 0 + ([7] : List Nat).length ≤ c.room := by
    rw [hroom]
    decide
  obtain ⟨m₂, hwrite, hrep₂⟩ := hrep.put hb hc hin (by decide)
  have hput : Sys.client { u with m := m₁ } (.put (b.virt + sizeofAllocHdr) 0 [7])
      = some (0, { u with m := m₂ }) := by
    simp only [Sys.client]
    rw [hwrite]
    rfl
  have hsecond : Sys.Proper { u with m := m₁ } (.put (b.virt + sizeofAllocHdr) 0 [7]) :=
    ⟨by decide, b, 4062, ⟨hb, rfl, hsized⟩, by decide⟩
  have hnone : Sys.ServesCall { u with m := m₁ } (.put (b.virt + sizeofAllocHdr) 0 [7]) :=
    fun _ hrequest => nomatch hrequest
  refine ⟨b.virt + sizeofAllocHdr, _,
    .cons hproper hserved hcall (.cons hsecond hnone hput (.nil _)), b, 4062, hb, rfl, ?_⟩
  obtain ⟨c', hc', hat'⟩ := hrep₂.cells b hb
  rw [Store.set_cell_self] at hc'
  obtain rfl := Option.some.inj hc'
  rw [← hroom]
  exact hat'.sized

/-! ## After `pager_init` -/

section Init

variable {mem : Nat → Fin 512 → Nat} {e820 : List E820Entry} {bits retries : Nat} {m : Machine}

theorem pagerInit_represents (hmap : E820Ok e820 bits (2 ^ 45)) (hbits : 32 ≤ bits ∧ bits ≤ 52)
    (hram : RamBelow e820 (2 ^ bits))
    (hres : pagerInit (bootMachine mem) e820 bits retries = some m)
    (hgranted : Sys.Granted { m := m }) (hreach : WithinReach m) :
    Represents { m := m } Store.empty :=
  represents_start (linkedHeap_start (pagerInit_ok hmap hbits hram hres hgranted) hgranted hreach)

/-- After `pager_init` with its tables within reach, every run of proper calls
    that are served is a run of operations on a store of blocks, which the heap
    represents at its end; and what does not return there is the free of a block
    from which the links lead back or to a freed block. -/
theorem client_run_refines (hmap : E820Ok e820 bits (2 ^ 45)) (hbits : 32 ≤ bits ∧ bits ≤ 52)
    (hram : RamBelow e820 (2 ^ bits))
    (hres : pagerInit (bootMachine mem) e820 bits retries = some m)
    (hgranted : Sys.Granted { m := m }) (hreach : WithinReach m)
    {cs : List (ClientCall × Nat)} {t : Sys} (hrun : ClientRun { m := m } cs t) :
    ∃ a, Steps Store.empty (runOps cs) a ∧ Represents t a ∧
      ∀ c, t.Proper c → t.ServesCall c → t.client c = none →
        ∃ p, c.frees = some p ∧ ¬ a.Chained p := by
  obtain ⟨a, hsteps, hrep⟩ :=
    hrun.refines (pagerInit_represents hmap hbits hram hres hgranted hreach)
  exact ⟨a, hsteps, hrep, fun c hproper hserves hnone =>
    (hrep.call hproper hserves).2 hnone⟩

/-- A page and a byte. -/
theorem client_run_refines_first :
    ∃ m p t, pagerInit (bootMachine (fun _ _ => 0)) lowE820 36 1 = some m ∧
      ∃ a, Steps Store.empty (runOps [(.fmalloc 4062, p), (.put p 0 [7], 0)]) a ∧
        Represents t a := by
  obtain ⟨m, g, hres, h⟩ := lowE820_fresh (fun _ _ => 0)
  obtain ⟨p, t, hrun, -⟩ := h.clientRun
  obtain ⟨a, hsteps, hrep, -⟩ :=
    client_run_refines lowE820_ok (by decide) (by decide) hres h.granted h.reach hrun
  exact ⟨m, p, t, hres, a, hsteps, hrep⟩

/-- A byte that a client stores is read as long as the block is live, whatever
    is given, linked, freed and moved in between, until the client stores there
    again. -/
theorem client_byte_stays (hmap : E820Ok e820 bits (2 ^ 45)) (hbits : 32 ≤ bits ∧ bits ≤ 52)
    (hram : RamBelow e820 (2 ^ bits))
    (hres : pagerInit (bootMachine mem) e820 bits retries = some m)
    (hgranted : Sys.Granted { m := m }) (hreach : WithinReach m)
    {cs cs' : List (ClientCall × Nat)} {p o k ret : Nat} {vs : List Nat} {t : Sys}
    (hrun : ClientRun { m := m } (cs ++ (.put p o vs, ret) :: cs') t)
    (hlive : ∃ b n, t.BlockOf p b n) (hk : k < vs.length)
    (hputs : ∀ o' vs' ret', (ClientCall.put p o' vs', ret') ∈ cs' →
      ¬ (o' ≤ o + k ∧ o + k < o' + vs'.length)) :
    t.m.readByte (add64 p (o + k)) = some vs[k] := by
  obtain ⟨u, hfirst, hrest⟩ := hrun.split
  obtain ⟨a, -, ha⟩ := hfirst.refines (pagerInit_represents hmap hbits hram hres hgranted hreach)
  cases hrest with
  | cons hproper hserves hcall hafter =>
      obtain ⟨a₁, hput, h₁⟩ := (ha.call hproper hserves).1 _ _ hcall
      obtain ⟨a₂, hsteps, h₂⟩ := hafter.refines h₁
      -- the byte after the store
      obtain ⟨x, hx, hbyte⟩ : ∃ x, a₁.cell p = some x ∧ x.bytes (o + k) = some vs[k] := by
        cases hput with
        | cons hstep hnil =>
            cases hnil
            cases hstep with
            | put hc _ => exact ⟨_, Store.set_cell_self a p _, Cell.put_bytes _ hk⟩
      obtain ⟨b, n, hb⟩ := hlive
      obtain ⟨y, hy, -⟩ := h₂.blockOf hb
      obtain ⟨-, hsame⟩ := hsteps.kept hx (fun op hop hw => by
        obtain ⟨o', vs', ret', hmem, hin⟩ := runOps_writes hsteps (a₁.cell_used p x hx) hop hw
        exact hputs o' vs' ret' hmem hin) hy
      exact h₂.read hy (hsame.trans hbyte)

theorem client_byte_stays_first :
    ∃ m p t, pagerInit (bootMachine (fun _ _ => 0)) lowE820 36 1 = some m ∧
      ClientRun { m := m } [(.fmalloc 4062, p), (.put p 0 [7], 0)] t ∧
      t.m.readByte (add64 p 0) = some 7 := by
  obtain ⟨m, g, hres, h⟩ := lowE820_fresh (fun _ _ => 0)
  obtain ⟨p, t, hrun, hlive⟩ := h.clientRun
  exact ⟨m, p, t, hres, hrun, @client_byte_stays _ _ _ _ _ lowE820_ok (by decide) (by decide)
    hres h.granted h.reach [(.fmalloc 4062, p)] [] p 0 0 0 [7] t hrun hlive (by decide)
    (fun _ _ _ hmem => absurd hmem List.not_mem_nil)⟩

end Init

end Pfi
