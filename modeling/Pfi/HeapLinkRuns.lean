import Pfi.HeapLinks
import Pfi.RoundTrip
import Mathlib.Data.List.Perm.Subperm

/-! # Runs of linked blocks

    Between calls every link of a live block is null or leads to a live block,
    and what was freed stays dead (`LinkSys.Ok`).  In such a state a free does
    what it should exactly when its chain ends and no other live block links
    into it (`LinkSys.Ok.frees_iff`), and then the state is again one
    (`LinkSys.Ok.ffree`); so do `flink` and a served `fmalloc` leave one
    (`LinkSys.Ok.flink`, `LinkSys.Ok.fmalloc`).  Over a run from `pager_init`
    the two conditions are therefore the same (`heap_links_iff`). -/

namespace Pfi

open Words RadixTable Run

/-! ## The invariant between calls -/

/-- A link is null or leads to a live block. -/
def LinkTo (live : List Block) (p : Nat) : Prop := p = 0 ∨ ∃ c ∈ live, c.virt = p

structure LinkSys.Ok (s : LinkSys) : Prop where
  ok : s.sys.Ok
  granted : s.sys.Granted
  within : s.sys.Within
  headers : ∀ b ∈ s.sys.live, ∃ nxt prev, HeaderBytes s.sys.m b.phys nxt prev ∧
    LinkTo s.sys.live nxt ∧ LinkTo s.sys.live prev
  freed : ∀ p ∈ s.freed, p ≠ 0 ∧ (∀ b ∈ s.sys.live, b.virt ≠ p) ∧
    ∃ hd ∈ s.sys.m.avmf.staticHeaders, hd.virtAddr = p

section Between

variable {s : LinkSys} {b : Block} {hdr ptr n p : Nat}

/-- The links of a live block, as they are read. -/
theorem LinkSys.Ok.header (h : s.Ok) (hb : b ∈ s.sys.live) :
    HeaderBytes s.sys.m b.phys (nxtAt s.sys.m b.virt) (prevAt s.sys.m b.virt) ∧
      nxtOf s.sys.m b.virt = some (nxtAt s.sys.m b.virt) ∧
      prevOf s.sys.m b.virt = some (prevAt s.sys.m b.virt) ∧
      LinkTo s.sys.live (nxtAt s.sys.m b.virt) ∧ LinkTo s.sys.live (prevAt s.sys.m b.virt) := by
  obtain ⟨nxt, prev, hbytes, hnxt, hprev⟩ := h.headers b hb
  have hd := h.ok.headerAt hb hbytes
  have hn : nxtAt s.sys.m b.virt = nxt := by
    unfold nxtAt
    rw [hd.nxt]
    rfl
  have hp : prevAt s.sys.m b.virt = prev := by
    unfold prevAt
    rw [hd.prev]
    rfl
  rw [hn, hp]
  exact ⟨hbytes, hd.nxt, hd.prev, hnxt, hprev⟩

/-- The start of a loop. -/
theorem LinkSys.Ok.loopOk (h : s.Ok) : LoopOk (nxtAt s.sys.m) (prevAt s.sys.m) s.sys := by
  refine ⟨h.ok, h.granted, h.within, fun b hb => ?_⟩
  obtain ⟨hbytes, -, -, hnxt, -⟩ := h.header hb
  refine ⟨hbytes, ?_⟩
  rcases hnxt with h0 | hlive
  · exact Or.inl h0
  · exact Or.inr (Or.inl hlive)

/-- The pointer of a live block leads to its header. -/
theorem Sys.Ok.hdrOf {t : Sys} (h : t.Ok) (hb : b ∈ t.live) :
    Pfi.hdrOf (b.virt + sizeofAllocHdr) = b.virt := by
  obtain ⟨hsize, hend, -, -⟩ := h.block hb
  unfold Pfi.hdrOf add64
  simp only [sizeofAllocHdr]
  omega

/-- What `nxt` leads to is the chain, when it ends. -/
theorem nxtReach_iff {m : Machine} (hends : Walk.EndsAfter (· ≠ 0) (nxtAt m) hdr n) :
    NxtReach m hdr p ↔ p ∈ Walk.positions (nxtAt m) hdr n := by
  rw [Walk.mem_positions]
  constructor
  · intro hreach
    induction hreach with
    | start h0 =>
        refine ⟨0, ?_, rfl⟩
        by_contra hn
        rw [show n = 0 by omega] at hends
        exact hends.ends h0
    | @step _ c hb hnxt hne ih =>
        obtain ⟨k, hk, rfl⟩ := ih
        have hnext : (nxtAt m)^[k + 1] hdr = c := by
          rw [Function.iterate_succ_apply']
          unfold nxtAt at hnxt ⊢
          rw [hnxt]
          rfl
        refine ⟨k + 1, ?_, hnext⟩
        by_contra hn
        rw [show n = k + 1 by omega] at hends
        exact hends.ends (by rw [hnext]; exact hne)
  · rintro ⟨k, hk, rfl⟩
    induction k with
    | zero => exact NxtReach.start (hends.before 0 hk)
    | succ k ih =>
        have hne := hends.before (k + 1) hk
        have hprior := ih (by omega)
        rw [Function.iterate_succ_apply'] at hne ⊢
        generalize (nxtAt m)^[k] hdr = q at hne hprior ⊢
        unfold nxtAt at hne ⊢
        cases hread : nxtOf m q with
        | none =>
            rw [hread] at hne
            exact absurd rfl hne
        | some c =>
            rw [hread] at hne
            exact hprior.step hread hne

/-- The chain from a live block goes through live blocks. -/
theorem LinkSys.Ok.chain_live (h : s.Ok) (hhdr : LinkTo s.sys.live hdr)
    (hends : Walk.EndsAfter (· ≠ 0) (nxtAt s.sys.m) hdr n) :
    ∀ p ∈ Walk.positions (nxtAt s.sys.m) hdr n, ∃ b ∈ s.sys.live, b.virt = p := by
  induction n generalizing hdr with
  | zero => exact fun p hp => absurd hp List.not_mem_nil
  | succ n ih =>
      obtain ⟨hne, hrest⟩ := Walk.endsAfter_succ.mp hends
      rcases hhdr with h0 | ⟨b, hb, rfl⟩
      · exact absurd h0 hne
      · intro p hp
        rw [Walk.positions_succ] at hp
        rcases List.mem_cons.mp hp with rfl | hp
        · exact ⟨b, hb, rfl⟩
        · exact ih (h.header hb).2.2.2.1 hrest p hp

/-- There are no more headers on a chain than live blocks. -/
theorem ffreeLoop_fuel {live : List Block} {nxt : Nat → Nat}
    (hends : Walk.EndsAfter (· ≠ 0) nxt hdr n)
    (hlive : ∀ p ∈ Walk.positions nxt hdr n, ∃ b ∈ live, b.virt = p) : n < live.length + 1 := by
  have hsub : Walk.positions nxt hdr n ⊆ live.map Block.virt := by
    intro p hp
    obtain ⟨b, hb, rfl⟩ := hlive p hp
    exact List.mem_map_of_mem hb
  have hle := (List.Nodup.subperm hends.nodup hsub).length_le
  rw [List.length_map] at hle
  unfold Walk.positions at hle
  rw [List.length_map, List.length_range] at hle
  omega

/-- A detached chain is freed as it should be. -/
theorem LinkSys.Ok.frees (h : s.Ok) (hb : b ∈ s.sys.live) (hptr : ptr = b.virt + sizeofAllocHdr)
    (hdet : s.Detached (.ffree ptr)) : s.Frees (.ffree ptr) := by
  obtain ⟨⟨n, hends⟩, hbeside⟩ := hdet
  rw [hptr, h.ok.hdrOf hb] at hends hbeside
  obtain ⟨hloop, hend, hcs⟩ := h.loopOk.runs hends (h.chain_live (Or.inr ⟨b, hb, rfl⟩) hends)
    (Nat.lt_succ_self n)
  have hreach := fun p => nxtReach_iff (p := p) hends
  have hhdr : Pfi.hdrOf ptr = b.virt := by
    rw [hptr, h.ok.hdrOf hb]
  refine ⟨n + 1, _, _, by rw [hhdr]; exact hloop, hends.nodup, fun p => ?_, ?_⟩
  · rw [hhdr]
    exact (hreach p).symm
  · intro c hc p hp
    obtain ⟨hclive, hcout⟩ := List.mem_filter.mp hc
    rw [decide_eq_true_eq] at hcout
    have hc' := (hcs c).mpr ⟨hclive, hcout⟩
    have hafter := hend.ok.headerAt hc' (hend.headers c hc').1
    obtain ⟨-, hnxt, hprev, hnlink, hplink⟩ := h.header hclive
    rw [hafter.nxt, hafter.prev, ← hnxt, ← hprev]
    rcases List.mem_append.mp hp with hp | hp
    · exact hbeside c hclive (fun hr => hcout ((hreach _).mp hr)) p ((hreach p).mpr hp)
    · -- freed before: no link leads there
      obtain ⟨hp0, hpdead, -⟩ := h.freed p hp
      have hno : ∀ q, LinkTo s.sys.live q → some q ≠ some p := by
        rintro q (rfl | ⟨d, hd, rfl⟩) heq
        · exact hp0 (Option.some.inj heq).symm
        · exact hpdead d hd (Option.some.inj heq)
      rw [hnxt, hprev]
      exact ⟨hno _ hnlink, hno _ hplink⟩

/-- A free that does what it should is of a detached chain. -/
theorem LinkSys.Ok.frees_iff (h : s.Ok) (hlive : s.Live ptr) :
    s.Frees (.ffree ptr) ↔ s.Detached (.ffree ptr) := by
  obtain ⟨b, hb, hptr⟩ := hlive
  constructor
  · rintro ⟨fuel, freed, m', hres, -, -, hdangle⟩
    have hhdr := h.ok.hdrOf hb
    rw [hptr, hhdr] at hres
    obtain ⟨n, hfuel, hends, rfl⟩ := h.loopOk.returned (Or.inr (Or.inl ⟨b, hb, rfl⟩)) hres
    obtain ⟨hloop, hend, hcs⟩ :=
      h.loopOk.runs hends (h.chain_live (Or.inr ⟨b, hb, rfl⟩) hends) hfuel
    rw [hres] at hloop
    have hm' := (Prod.mk.inj (Option.some.inj hloop)).2
    have hreach := fun p => nxtReach_iff (p := p) hends
    show (∃ n, _) ∧ _
    rw [hptr, hhdr]
    refine ⟨⟨n, hends⟩, fun c hc hbeside p hp => ?_⟩
    have hcout : c.virt ∉ Walk.positions (nxtAt s.sys.m) b.virt n :=
      fun hin => hbeside ((hreach _).mpr hin)
    have hc' := (hcs c).mpr ⟨hc, hcout⟩
    have hafter := hend.ok.headerAt hc' (hend.headers c hc').1
    have hno := hdangle c (List.mem_filter.mpr ⟨hc, decide_eq_true hcout⟩) p
      (List.mem_append_left _ ((hreach p).mp hp))
    obtain ⟨-, hnxt, hprev, -, -⟩ := h.header hc
    rw [hm', hafter.nxt, hafter.prev, ← hnxt, ← hprev] at hno
    exact hno
  · exact h.frees hb hptr

/-! ## The calls keep the invariant -/

/-- A free leaves every header on the region list. -/
theorem avmfFree_headers (m : Machine) (virt : Nat) :
    (avmfFree m virt).avmf.staticHeaders = m.avmf.staticHeaders := by
  rw [avmfFree_avmf]
  unfold avmfFreePhys
  rcases avmfFind_cases m.avmf virt with ⟨j, hfind, -, -⟩ | ⟨hfind, -⟩
  · rw [hfind]
  · rw [hfind]

theorem exec_free_headers (t : Sys) (ps : List Nat) :
    (exec Sys.step t (ps.map MemOp.free)).m.avmf.staticHeaders = t.m.avmf.staticHeaders := by
  induction ps generalizing t with
  | nil => rfl
  | cons p ps ih =>
      rw [List.map_cons, exec_cons, ih]
      exact avmfFree_headers t.m p

/-- A detached chain is freed, and the state is as before. -/
theorem LinkSys.Ok.ffree (h : s.Ok) (hlive : s.Live ptr) (hdet : s.Detached (.ffree ptr)) :
    ∃ s', s.call (.ffree ptr) = some s' ∧ s'.Ok := by
  obtain ⟨b, hb, hptr⟩ := hlive
  obtain ⟨⟨n, hends⟩, hbeside⟩ := hdet
  have hhdr : Pfi.hdrOf ptr = b.virt := by
    rw [hptr, h.ok.hdrOf hb]
  rw [hhdr] at hends hbeside
  have hchain := h.chain_live (Or.inr ⟨b, hb, rfl⟩) hends
  obtain ⟨hloop, hend, hcs⟩ := h.loopOk.runs hends hchain (ffreeLoop_fuel hends hchain)
  have hreach := fun p => nxtReach_iff (p := p) hends
  have hheaders := exec_free_headers s.sys (Walk.positions (nxtAt s.sys.m) b.virt n)
  generalize Walk.positions (nxtAt s.sys.m) b.virt n = ps at hchain hloop hend hcs hreach hheaders
  refine ⟨⟨exec Sys.step s.sys (ps.map MemOp.free), ps ++ s.freed⟩, ?_, ⟨hend.ok, hend.granted,
    hend.within, fun c hc => ?_, fun p hp => ?_⟩⟩
  · simp only [LinkSys.call]
    rw [hhdr, hloop]
    rfl
  · obtain ⟨hclive, hcout⟩ := (hcs c).mp hc
    obtain ⟨-, hnxt, hprev, hnlink, hplink⟩ := h.header hclive
    have hno := hbeside c hclive (fun hr => hcout ((hreach _).mp hr))
    have hstill : ∀ q, LinkTo s.sys.live q → q ∉ ps →
        LinkTo (exec Sys.step s.sys (ps.map MemOp.free)).live q := by
      rintro q (h0 | ⟨d, hd, rfl⟩) hq
      · exact Or.inl h0
      · exact Or.inr ⟨d, (hcs d).mpr ⟨hd, hq⟩, rfl⟩
    refine ⟨_, _, (hend.headers c hc).1, hstill _ hnlink (fun hq => ?_),
      hstill _ hplink (fun hq => ?_)⟩
    · exact (hno _ ((hreach _).mpr hq)).1 hnxt
    · exact (hno _ ((hreach _).mpr hq)).2 hprev
  · dsimp only
    rw [hheaders]
    rcases List.mem_append.mp hp with hp | hp
    · obtain ⟨d, hd, rfl⟩ := hchain p hp
      obtain ⟨hr, hmem, hvirt, -, -⟩ := h.ok.owned.recorded d hd
      exact ⟨(h.ok.block hd).2.2.1, fun c hc heq => ((hcs c).mp hc).2 (heq ▸ hp),
        hr, hmem, hvirt⟩
    · obtain ⟨h0, hdead, hr⟩ := h.freed p hp
      exact ⟨h0, fun c hc => hdead c ((hcs c).mp hc).1, hr⟩

/-- A field of a live block is written. -/
theorem Sys.Ok.setField {t : Sys} (h : t.Ok) (hgranted : t.Granted) (hb : b ∈ t.live) {o v : Nat}
    (ho : o + 8 ≤ sizeofAllocHdr) :
    ∃ m', Pfi.writeBytes t.m (add64 b.virt o) (bytes64 v) = some m' ∧ SameTables t.m m' ∧
      Written t.m (b.phys + o) (bytes64 v) m' ∧
      ∀ c ∈ t.live, c ≠ b → ∀ nxt prev, HeaderBytes t.m c.phys nxt prev →
        HeaderBytes m' c.phys nxt prev := by
  simp only [sizeofAllocHdr] at ho
  have hlen := length_bytes64 v
  obtain ⟨m', hwrite, hsame, hwritten⟩ :=
    h.writeBytes hgranted.2 hb (o := o) (by omega) (bytes64_lt v)
  rw [h.field hb (by omega)]
  refine ⟨m', hwrite, hsame, hwritten, fun c hc hne nxt prev hd => hd.kept (fun q hlo hhi => ?_)⟩
  have hapart := h.live_apart hb hc hne
  have hbsize := (h.block hb).1
  have hcsize := (h.block hc).1
  simp only [sizeofAllocHdr] at hhi
  rw [hwritten q, if_neg (by omega)]

theorem granted_sameTables {t : Sys} (h : t.Granted) {m' : Machine} (hsame : SameTables t.m m') :
    Sys.Granted { t with m := m' } := by
  unfold Sys.Granted TablesGranted
  show m'.avmf.wrapped = false ∧ ∀ x ∈ m'.tableLog, _
  rw [hsame.avmf, hsame.tableLog]
  exact h

/-- Two live blocks are linked. -/
theorem LinkSys.Ok.flink (h : s.Ok) {b₁ b₂ : Block} (hb₁ : b₁ ∈ s.sys.live)
    (hb₂ : b₂ ∈ s.sys.live) :
    ∃ m', s.call (.flink (b₁.virt + sizeofAllocHdr) (b₂.virt + sizeofAllocHdr))
        = some { s with sys := { s.sys with m := m' } } ∧
      LinkSys.Ok { s with sys := { s.sys with m := m' } } ∧
      nxtOf m' b₁.virt = some b₂.virt := by
  obtain ⟨hsize₁, hend₁, -, -⟩ := h.ok.block hb₁
  obtain ⟨hsize₂, hend₂, -, -⟩ := h.ok.block hb₂
  obtain ⟨m₁, hwrite₁, hsame₁, hwritten₁, hothers₁⟩ :=
    h.ok.setField h.granted hb₁ (o := offsetNxt) (v := b₂.virt) (by decide)
  have hok₁ := h.ok.sameTables hsame₁
  have hgranted₁ := granted_sameTables h.granted hsame₁
  obtain ⟨m₂, hwrite₂, hsame₂, hwritten₂, hothers₂⟩ :=
    hok₁.setField hgranted₁ hb₂ (o := offsetPrev) (v := b₁.virt) (by decide)
  have hok₂ : Sys.Ok { s.sys with m := m₂ } := hok₁.sameTables hsame₂
  -- the first store changes `nxt` of the first block only
  have hfirst : ∀ c ∈ s.sys.live, ∀ nxt prev, HeaderBytes s.sys.m c.phys nxt prev →
      HeaderBytes m₁ c.phys (if c = b₁ then b₂.virt else nxt) prev := by
    intro c hc nxt prev hd
    by_cases heq : c = b₁
    · subst heq
      rw [if_pos rfl]
      exact hd.setNxt (by omega) hwritten₁
    · rw [if_neg heq]
      exact hothers₁ c hc heq nxt prev hd
  -- the second one changes `prev` of the second block only
  have hboth : ∀ c ∈ s.sys.live, ∀ nxt prev, HeaderBytes s.sys.m c.phys nxt prev →
      HeaderBytes m₂ c.phys (if c = b₁ then b₂.virt else nxt)
        (if c = b₂ then b₁.virt else prev) := by
    intro c hc nxt prev hd
    have hd₁ := hfirst c hc nxt prev hd
    by_cases heq : c = b₂
    · subst heq
      rw [if_pos rfl]
      exact hd₁.setPrev (by omega) hwritten₂
    · rw [if_neg heq]
      exact hothers₂ c hc heq _ prev hd₁
  have hwithin₂ : Sys.Within { s.sys with m := m₂ } :=
    @Sys.Within.sameTables { s.sys with m := m₁ } (h.within.sameTables hsame₁ h.ok.agrees.tables)
      m₂ hsame₂ hok₁.agrees.tables
  refine ⟨m₂, ?_, ⟨hok₂, granted_sameTables hgranted₁ hsame₂, hwithin₂, fun c hc => ?_,
    fun p hp => ?_⟩, ?_⟩
  · show (Pfi.flink s.sys.m _ _).map _ = _
    unfold Pfi.flink
    dsimp only
    rw [h.ok.hdrOf hb₁, h.ok.hdrOf hb₂, hwrite₁, Option.bind_some]
    exact congrArg (Option.map _) hwrite₂
  · obtain ⟨nxt, prev, hd, hnxt, hprev⟩ := h.headers c hc
    refine ⟨_, _, hboth c hc nxt prev hd, ?_, ?_⟩
    · split
      · exact Or.inr ⟨b₂, hb₂, rfl⟩
      · exact hnxt
    · split
      · exact Or.inr ⟨b₁, hb₁, rfl⟩
      · exact hprev
  · -- the blocks that were freed keep their regions
    obtain ⟨h0, hdead, hr⟩ := h.freed p hp
    refine ⟨h0, hdead, ?_⟩
    show ∃ hd ∈ m₂.avmf.staticHeaders, hd.virtAddr = p
    rw [hsame₂.avmf, hsame₁.avmf]
    exact hr
  · obtain ⟨nxt, prev, hd, -, -⟩ := h.headers b₁ hb₁
    have hd₂ := hok₂.headerAt hb₁ (hboth b₁ hb₁ nxt prev hd)
    rw [if_pos rfl] at hd₂
    exact hd₂.nxt

/-- An allocation that fails leaves the blocks and their links. -/
theorem LinkSys.Ok.refused (h : s.Ok) {t : Sys} (hok : t.Ok) (hgranted : t.Granted)
    (hwithin : t.Within) (hstores : StoresTouched s.sys.m t.m)
    (hlist : s.sys.m.avmf.staticHeaders <+: t.m.avmf.staticHeaders)
    (hlive : t.live = s.sys.live) : LinkSys.Ok { s with sys := t } := by
  refine ⟨hok, hgranted, hwithin, fun c hc => ?_, fun p hp => ?_⟩
  · dsimp only at hc ⊢
    have hstays := fun nxt prev => @Sys.Ok.header_kept s.sys t c hok hgranted.2 hstores hc nxt prev
    rw [hlive] at hc ⊢
    obtain ⟨nxt, prev, hd, hlinks⟩ := h.headers c hc
    exact ⟨nxt, prev, hstays nxt prev hd, hlinks⟩
  · obtain ⟨h0, hdead, hd, hmem, hvirt⟩ := h.freed p hp
    dsimp only
    rw [hlive]
    exact ⟨h0, hdead, hd, hlist.subset hmem, hvirt⟩

/-- A new block is linked to nothing, and was not freed before. -/
theorem LinkSys.Ok.added (h : s.Ok) {t : Sys} (hok : t.Ok) (hgranted : t.Granted)
    (hwithin : t.Within) (hstores : StoresTouched s.sys.m t.m) {hd : AvmfHeader}
    {post : List AvmfHeader}
    (hlist : t.m.avmf.staticHeaders = s.sys.m.avmf.staticHeaders ++ hd :: post)
    (hvirt : hd.virtAddr = b.virt) (hlive : t.live = b :: s.sys.live) {m' : Machine} {size : Nat}
    (hsame : SameTables t.m m') (hwritten : Written t.m b.phys (allocHdr size) m') :
    LinkSys.Ok { s with sys := { t with m := m' } } := by
  have hbt : b ∈ t.live := by
    rw [hlive]
    exact List.mem_cons_self
  refine ⟨hok.sameTables hsame, granted_sameTables hgranted hsame,
    hwithin.sameTables hsame hok.agrees.tables, fun c hc => ?_, fun p hp => ?_⟩
  · dsimp only at hc ⊢
    by_cases heq : c = b
    · subst heq
      exact ⟨0, 0, headerBytes_allocHdr hwritten, Or.inl rfl, Or.inl rfl⟩
    · have hcs : c ∈ s.sys.live := by
        rw [hlive] at hc
        exact (List.mem_cons.mp hc).resolve_left heq
      have hstill : ∀ q, LinkTo s.sys.live q → LinkTo t.live q := by
        rintro q (h0 | ⟨d, hd, rfl⟩)
        · exact Or.inl h0
        · exact Or.inr ⟨d, by rw [hlive]; exact List.mem_cons_of_mem _ hd, rfl⟩
      obtain ⟨nxt, prev, hbytes, hnxt, hprev⟩ := h.headers c hcs
      have hbytes' := hok.header_kept hgranted.2 hstores hc hbytes
      have hapart := hok.live_apart hbt hc heq
      have hbsize := (hok.block hbt).1
      have hcsize := (hok.block hc).1
      refine ⟨nxt, prev, hbytes'.kept (fun q hlo hhi => ?_), hstill _ hnxt, hstill _ hprev⟩
      simp only [sizeofAllocHdr] at hhi
      have hlen := length_allocHdr size
      simp only [sizeofAllocHdr] at hlen
      rw [hwritten q, if_neg (by omega)]
  · obtain ⟨h0, hdead, hd', hmem, rfl⟩ := h.freed p hp
    dsimp only
    rw [hlive, hsame.avmf]
    refine ⟨h0, fun c hc => ?_, hd', by rw [hlist]; exact List.mem_append_left _ hmem, rfl⟩
    rcases List.mem_cons.mp hc with rfl | hc
    · have hapart := hok.owned.regions.apart
      rw [hlist] at hapart
      have hno := (List.pairwise_append.mp hapart).2.2 hd' hmem hd List.mem_cons_self
      have hsized := hok.owned.regions.sized
      rw [hlist] at hsized
      have hpos' := (hsized hd' (List.mem_append_left _ hmem)).1
      have hpos := (hsized hd (List.mem_append_right _ List.mem_cons_self)).1
      unfold AvmfHeader.ApartFrom Apart at hno
      omega
    · exact hdead c hc

/-- `fmalloc` writes a header to what it allocates. -/
theorem LinkSys.call_fmalloc {s : LinkSys} {size : Nat}
    (h : (fmallocAlloc s.sys.m size).m.faults = s.sys.m.faults) :
    s.call (.fmalloc size) =
      if (fmallocAlloc s.sys.m size).virt = 0 then
        some { s with sys := s.sys.step (fmallocOp size) }
      else
        (writeBytes (s.sys.step (fmallocOp size)).m (fmallocAlloc s.sys.m size).virt
          (allocHdr size)).map
            (fun m' => { s with sys := { s.sys.step (fmallocOp size) with m := m' } }) := by
  simp only [LinkSys.call]
  rw [fmalloc_of_returned h]
  by_cases h0 : (fmallocAlloc s.sys.m size).virt = 0
  · rw [if_pos h0, if_pos h0]
    rfl
  · rw [if_neg h0, if_neg h0, Option.map_map]
    rfl

/-- The block of a served `fmalloc` is linked to nothing. -/
theorem LinkSys.Ok.fmalloc (h : s.Ok) {size : Nat} (hserves : s.Serves (.fmalloc size)) :
    ∃ s', s.call (.fmalloc size) = some s' ∧ s'.Ok ∧
      s'.sys.live = (s.sys.step (fmallocOp size)).live ∧
      ∀ b ∈ s'.sys.live, b ∉ s.sys.live → nxtOf s'.sys.m b.virt = some 0 := by
  have hgranted : (s.sys.step (fmallocOp size)).Granted := hserves.1
  obtain ⟨hok, hwithin, hfaults⟩ := h.ok.served h.within hserves
  have hstores : StoresTouched s.sys.m (s.sys.step (fmallocOp size)).m :=
    storesTouched_avmfAlloc _ _ _ _
  have hlive : (s.sys.step (fmallocOp size)).live
      = (fmallocAlloc s.sys.m size).live (add64 size sizeofAllocHdr) s.sys.live := rfl
  unfold AllocResult.live at hlive
  rw [LinkSys.call_fmalloc hfaults]
  by_cases h0 : (fmallocAlloc s.sys.m size).virt = 0
  · rw [if_pos h0] at hlive
    rw [if_pos h0]
    have hlist :
        s.sys.m.avmf.staticHeaders <+: (s.sys.step (fmallocOp size)).m.avmf.staticHeaders :=
      (headers_invariant _).alloc (List.prefix_refl _) _ _ _
    exact ⟨_, rfl, h.refused hok hgranted hwithin hstores hlist hlive, rfl,
      fun b hb hnew => absurd (hlive ▸ hb) hnew⟩
  · rw [if_neg h0] at hlive
    rw [if_neg h0]
    obtain ⟨hd, post, hlist, hvirt, -, -⟩ := avmfAlloc_records h0
    have hb : (fmallocAlloc s.sys.m size).block (add64 size sizeofAllocHdr)
        ∈ (s.sys.step (fmallocOp size)).live := by
      rw [hlive]
      exact List.mem_cons_self
    obtain ⟨m', hwrite, hsame, hwritten⟩ := @Sys.Ok.writeBytes _ _ hok hgranted.2 hb 0
      (allocHdr size) (by rw [length_allocHdr]; decide) (allocHdr_lt size)
    refine ⟨_, congrArg (Option.map _) hwrite,
      h.added hok hgranted hwithin hstores hlist hvirt hlive hsame hwritten, rfl,
      fun c hc hnew => ?_⟩
    dsimp only at hc ⊢
    rw [hlive] at hc
    have hceq := (List.mem_cons.mp hc).resolve_right hnew
    rw [hceq]
    exact ((hok.sameTables hsame).headerAt hb (headerBytes_allocHdr hwritten)).nxt

end Between

/-! ## Runs -/

/-- A call of a served run frees what it should exactly when the chain is
    detached. -/
theorem LinkSys.Ok.call_iff {s : LinkSys} (h : s.Ok) {op : LinkOp} (hvalid : s.Valid op) :
    s.Frees op ↔ s.Detached op := by
  cases op with
  | fmalloc size => exact Iff.rfl
  | flink ptr1 ptr2 => exact Iff.rfl
  | ffree ptr => exact h.frees_iff hvalid

theorem LinkSys.Ok.call {s : LinkSys} (h : s.Ok) {op : LinkOp} (hvalid : s.Valid op)
    (hserves : s.Serves op) (hdet : s.Detached op) : ∃ s', s.call op = some s' ∧ s'.Ok := by
  cases op with
  | fmalloc size =>
      obtain ⟨s', hcall, hok, -⟩ := h.fmalloc hserves
      exact ⟨s', hcall, hok⟩
  | flink ptr1 ptr2 =>
      obtain ⟨⟨b₁, hb₁, rfl⟩, ⟨b₂, hb₂, rfl⟩⟩ := hvalid
      obtain ⟨m', hcall, hok, -⟩ := h.flink hb₁ hb₂
      exact ⟨_, hcall, hok⟩
  | ffree ptr => exact h.ffree hvalid hdet

/-- In a run of served calls on live pointers. -/
theorem LinkSys.Ok.run_iff {s : LinkSys} (h : s.Ok) {ops : List LinkOp}
    (hvalid : Along linkStep (WhenRunning LinkSys.Valid) (some s) ops)
    (hserves : Along linkStep (WhenRunning LinkSys.Serves) (some s) ops) :
    Along linkStep (WhenRunning LinkSys.Frees) (some s) ops
      ↔ Along linkStep (WhenRunning LinkSys.Detached) (some s) ops := by
  refine along_iff (I := fun o => ∃ s, o = some s ∧ s.Ok) ?_ ?_ ⟨s, rfl, h⟩ (hvalid.and hserves)
  · rintro _ op ⟨s, rfl, hs⟩ ⟨hv, -⟩
    have hiff := hs.call_iff (hv s rfl)
    constructor
    · rintro hf t ht
      cases ht
      exact hiff.mp (hf s rfl)
    · rintro hd t ht
      cases ht
      exact hiff.mpr (hd s rfl)
  · rintro _ op ⟨s, rfl, hs⟩ ⟨hv, hsv⟩ hd
    exact hs.call (hv s rfl) (hsv s rfl) (hd s rfl)

theorem linkSys_start {m : Machine} (h : Sys.Ok { m := m }) (hgranted : Sys.Granted { m := m })
    (hreach : WithinReach m) : LinkSys.Ok { sys := { m := m } } :=
  ⟨h, hgranted, hreach.sys, fun _ hb => absurd hb List.not_mem_nil,
    fun _ hp => absurd hp List.not_mem_nil⟩

/-! ## The first block -/

/-- On a fresh heap `fmalloc` gives the page at 0x1000. -/
theorem FreshStart.linked {m : Machine} {g : Nat} (h : FreshStart m g 215) :
    LinkSys.Serves { sys := { m := m } } (.fmalloc 4062) ∧
      ∃ s, LinkSys.call { sys := { m := m } } (.fmalloc 4062) = some s ∧ s.Ok ∧
        ∃ b, s.sys.live = [b] ∧ b.virt = 0x1000 ∧ nxtOf s.sys.m b.virt = some 0 := by
  obtain ⟨hlive, hgranted⟩ := h.allocated (k := 1) (by decide) (by decide) (by decide) .user 3
    (by decide)
  have hop : fmallocOp 4062 = .alloc (4096 * 1) .user 3 := by
    unfold fmallocOp
    rw [show add64 4062 sizeofAllocHdr = 4096 * 1 by decide,
      show pagePresent ||| pageRw = 3 by decide]
  have hheap := h.heap .user (by decide)
  have hserves : LinkSys.Serves { sys := { m := m } } (.fmalloc 4062) := by
    have hbase := h.reported (k := 1) (by decide) (by decide) (by decide) .user 3 (by decide)
    refine ⟨by rw [hop]; exact hgranted, fun _ => ?_, fun _ => Or.inl ?_⟩
    · unfold UserClear
      dsimp only
      rw [show align4k (add64 4062 sizeofAllocHdr) = 4096 by decide, hheap]
      decide
    · rw [show add64 4062 sizeofAllocHdr = 4096 * 1 by decide,
        show pagePresent ||| pageRw = 3 by decide, hbase, h.pml4]
      decide
  obtain ⟨s, hcall, hok, hlive', hnull⟩ :=
    (linkSys_start h.ok h.granted h.reach).fmalloc hserves
  rw [hop, hlive] at hlive'
  refine ⟨hserves, s, hcall, hok, _, hlive', rfl, hnull _ ?_ List.not_mem_nil⟩
  rw [hlive']
  exact List.mem_cons_self

section Init

variable {mem : Nat → Fin 512 → Nat} {e820 : List E820Entry} {bits retries : Nat} {m : Machine}

/-- In every run of served calls on live pointers after `pager_init`, each
    `ffree` returns, frees its chain once and leaves no link to what was freed,
    exactly when each chain that is freed ends and no other live block links
    into it.  The tables that `pager_init` leaves are within reach. -/
theorem heap_links_iff (hmap : E820Ok e820 bits (2 ^ 45)) (hbits : 32 ≤ bits ∧ bits ≤ 52)
    (hram : RamBelow e820 (2 ^ bits))
    (hres : pagerInit (bootMachine mem) e820 bits retries = some m)
    (hgranted : Sys.Granted { m := m }) (hreach : WithinReach m) {ops : List LinkOp}
    (hvalid : Along linkStep (WhenRunning LinkSys.Valid) (some { sys := { m := m } }) ops)
    (hserves : Along linkStep (WhenRunning LinkSys.Serves) (some { sys := { m := m } }) ops) :
    Along linkStep (WhenRunning LinkSys.Frees) (some { sys := { m := m } }) ops
      ↔ Along linkStep (WhenRunning LinkSys.Detached) (some { sys := { m := m } }) ops :=
  (linkSys_start (pagerInit_ok hmap hbits hram hres hgranted) hgranted hreach).run_iff hvalid
    hserves

/-- One block is taken and freed. -/
theorem heap_links_first :
    ∃ m, pagerInit (bootMachine (fun _ _ => 0)) lowE820 36 1 = some m ∧
      Along linkStep (WhenRunning LinkSys.Frees) (some { sys := { m := m } })
        [.fmalloc 4062, .ffree 0x1022] := by
  obtain ⟨m, g, hres, h⟩ := lowE820_fresh (fun _ _ => 0)
  obtain ⟨hserves, s, hcall, hok, b, hlive, hvirt, hnull⟩ := h.linked
  have hstep : linkStep (some { sys := { m := m } }) (.fmalloc 4062) = some s :=
    (linkStep_some _ _).trans hcall
  have hb : b ∈ s.sys.live := by
    rw [hlive]
    exact List.mem_cons_self
  have hptr : 0x1022 = b.virt + sizeofAllocHdr := by
    rw [hvirt]
    rfl
  have hnext : nxtAt s.sys.m b.virt = 0 := by
    unfold nxtAt
    rw [hnull]
    rfl
  have hne : b.virt ≠ 0 := by
    rw [hvirt]
    decide
  refine ⟨m, hres,
    (heap_links_iff lowE820_ok (by decide) (by decide) hres h.granted h.reach ?_ ?_).mpr ?_⟩
  · refine ⟨fun _ _ => trivial, ?_, trivial⟩
    rw [hstep]
    rintro _ ⟨rfl⟩
    exact ⟨b, hb, hptr⟩
  · refine ⟨?_, fun _ _ => trivial, trivial⟩
    rintro _ ⟨rfl⟩
    exact hserves
  · refine ⟨fun _ _ => trivial, ?_, trivial⟩
    rw [hstep]
    rintro _ ⟨rfl⟩
    unfold LinkSys.Detached
    dsimp only
    rw [hptr, hok.ok.hdrOf hb]
    constructor
    · refine ⟨1, Walk.endsAfter_succ.mpr ⟨hne, Walk.endsAfter_zero.mpr ?_⟩⟩
      rw [hnext]
      exact not_not.mpr rfl
    · intro c hc hbeside
      rw [hlive, List.mem_singleton] at hc
      rw [hc] at hbeside
      exact absurd (NxtReach.start hne) hbeside

/-- A block that is linked to itself: the free unmaps its header, and then reads
    it again. -/
theorem heap_links_cycle :
    ∃ m, pagerInit (bootMachine (fun _ _ => 0)) lowE820 36 1 = some m ∧
      Along linkStep (WhenRunning LinkSys.Valid) (some { sys := { m := m } })
        [.fmalloc 4062, .flink 0x1022 0x1022, .ffree 0x1022] ∧
      Along linkStep (WhenRunning LinkSys.Serves) (some { sys := { m := m } })
        [.fmalloc 4062, .flink 0x1022 0x1022, .ffree 0x1022] ∧
      ¬ Along linkStep (WhenRunning LinkSys.Frees) (some { sys := { m := m } })
        [.fmalloc 4062, .flink 0x1022 0x1022, .ffree 0x1022] := by
  obtain ⟨m, g, hres, h⟩ := lowE820_fresh (fun _ _ => 0)
  obtain ⟨hserves, s, hcall, hok, b, hlive, hvirt, -⟩ := h.linked
  have hstep : linkStep (some { sys := { m := m } }) (.fmalloc 4062) = some s :=
    (linkStep_some _ _).trans hcall
  have hb : b ∈ s.sys.live := by
    rw [hlive]
    exact List.mem_cons_self
  have hptr : 0x1022 = b.virt + sizeofAllocHdr := by
    rw [hvirt]
    rfl
  obtain ⟨m', hcall', hok', hself⟩ := hok.flink hb hb
  rw [← hptr] at hcall'
  have hstep' : linkStep (some s) (.flink 0x1022 0x1022)
      = some { s with sys := { s.sys with m := m' } } := (linkStep_some _ _).trans hcall'
  have hlive' : LinkSys.Live { s with sys := { s.sys with m := m' } } 0x1022 := ⟨b, hb, hptr⟩
  refine ⟨m, hres, ⟨fun _ _ => trivial, ?_, ?_, trivial⟩, ⟨?_, fun _ _ => trivial,
    fun _ _ => trivial, trivial⟩, ?_⟩
  · rw [hstep]
    rintro _ ⟨rfl⟩
    exact ⟨⟨b, hb, hptr⟩, ⟨b, hb, hptr⟩⟩
  · rw [hstep, hstep']
    rintro _ ⟨rfl⟩
    exact hlive'
  · rintro _ ⟨rfl⟩
    exact hserves
  · rintro ⟨-, -, hfrees, -⟩
    rw [hstep, hstep'] at hfrees
    obtain ⟨⟨n, hends⟩, -⟩ := (hok'.frees_iff hlive').mp (hfrees _ rfl)
    rw [hptr, hok'.ok.hdrOf hb] at hends
    have hfixed : nxtAt m' b.virt = b.virt := by
      unfold nxtAt
      rw [hself]
      rfl
    have hne : b.virt ≠ 0 := (hok'.ok.block hb).2.2.1
    exact @Walk.not_endsAfter_of_fixed Nat (· ≠ 0) (nxtAt m') b.virt n hne hfixed hends

end Init

end Pfi
