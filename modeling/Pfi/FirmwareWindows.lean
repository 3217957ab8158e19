import Pfi.Heap

/-! # The windows of the firmware under allocation

    `pager_init` maps three windows of addresses to themselves for the
    firmware, and the user heap starts inside the first of them: what
    `avmf_alloc` maps there takes the place of the firmware's own page.

    A call keeps the translation of every window address if the calls of
    `pager_map` that it makes replace no window page and the leaf that a free
    unmaps translates none (`HeapOp.Safe.call`); so does a run of such calls
    from `pager_init` on (`windows_kept`).  The first `fmalloc` of the firmware
    is not one (`fmalloc_remaps`). -/

namespace Pfi

open Words RadixTable Run

/-- No call of the range replaces a window page, and the free unmaps none. -/
def SparesWindows (m : Machine) : MemOp → Prop
  | .alloc size type flags => ∀ virt phys m',
      allocRecorded m size type flags = some (virt, phys, m') →
        ∀ c ∈ rangeCalls virt phys (align4k size) flags, ∀ a, InWindow a →
          ¬ c.Replaces (a / pageSize)
  | .free virt => (avmfFind m.avmf virt).1 ≠ none →
      ∀ a, InWindow a → ¬ SameLeaf m virt (a / pageSize)

/-- What is asked of a call: the tables are within reach, its mappings leave
    them well formed and spare the windows, and what it writes to is a usable
    block. -/
def HeapOp.Safe (m : Machine) : HeapOp → Prop
  | .avmfAlloc size type flags =>
      StepSound { m := m } (.alloc size type flags) ∧ SparesWindows m (.alloc size type flags)
  | .fmalloc size =>
      StepWorks { m := m } (fmallocOp size) ∧ SparesWindows m (fmallocOp size)
  | .fcalloc nmemb size =>
      StepWorks { m := m } (fmallocOp (mul64 nmemb size)) ∧
        SparesWindows m (fmallocOp (mul64 nmemb size))
  | .avmfFree virt => FreeSound m virt ∧ SparesWindows m (.free virt)

/-- Every window address is translated as before. -/
def WindowsKept (m m' : Machine) : Prop :=
  ∀ a, InWindow a → m'.translate a = m.translate a

/-- Windows that are kept twice are kept. -/
theorem WindowsKept.trans {m m' m'' : Machine} (h : WindowsKept m m')
    (h' : WindowsKept m' m'') : WindowsKept m m'' :=
  fun a ha => (h' a ha).trans (h a ha)

section Calls

variable {m : Machine}

/-- Calls of `pager_map` that replace no window page. -/
theorem Standing.spares {calls : List MapCall} (h : Standing m)
    (hsound : Along Pfi.mapStep (fun m c => c.Sound m) m calls)
    (hword : ∀ c ∈ calls, c.phys < 2 ^ 64)
    (hspares : ∀ c ∈ calls, ∀ a, InWindow a → ¬ c.Replaces (a / pageSize)) :
    WindowsKept m (Run.exec Pfi.mapStep m calls) := by
  induction calls generalizing m with
  | nil => exact fun _ _ => rfl
  | cons c calls ih =>
      have hfirst : WindowsKept m (Pfi.mapStep m c) := by
        intro a ha
        have hregs := sameRegs_mapStep m c
        unfold Machine.translate hwWalk
        rw [hregs.cr3, h.root, h.spared hsound.1 (hword c List.mem_cons_self)
          (hspares c List.mem_cons_self a ha)]
      exact hfirst.trans (ih (h.mapStep hsound.1 (hword c List.mem_cons_self)) hsound.2
        (fun c' hc' => hword c' (List.mem_cons_of_mem c hc'))
        (fun c' hc' => hspares c' (List.mem_cons_of_mem c hc')))

/-- An allocation keeps the windows that it does not map over. -/
theorem Standing.windowsAlloc (h : Standing m) {size flags : Nat} {type : MemoryAllocType}
    (hsound : StepSound { m := m } (.alloc size type flags))
    (hspares : SparesWindows m (.alloc size type flags)) :
    WindowsKept m (avmfAlloc m size type flags).m := by
  rcases hrec : allocRecorded m size type flags with _ | ⟨virt, phys, m'⟩
  · obtain ⟨v, p, r, -, -, -, hres⟩ := avmfAlloc_of_failed hrec
    rcases hres with hres | hres | hres
    · rw [hres]
      exact fun _ _ => rfl
    · rw [hres]
      exact fun _ _ => rfl
    · rw [hres]
      exact fun _ _ => rfl
  · have hstart := (h.recorded hrec).1
    have hcalls := hstart.spares (hsound virt phys m' hrec) rangeCallsFrom_word
      (hspares virt phys m' hrec)
    obtain ⟨v, p, r, -, -, -, -, -, -, hm'⟩ := allocRecorded_some hrec
    have hbefore : WindowsKept m m' := by
      rw [hm']
      exact fun _ _ => rfl
    rw [avmfAlloc_of_recorded hrec, pagerMapRange_eq_exec]
    exact hbefore.trans hcalls

/-- A release keeps them if it unmaps no page of theirs. -/
theorem Standing.windowsFree (h : Standing m) {virt : Nat} (hfree : FreesNoTable m virt)
    (hspares : SparesWindows m (.free virt)) : WindowsKept m (avmfFree m virt) := by
  cases hfind : (avmfFind m.avmf virt).1 with
  | none =>
      rw [avmfFree_missed hfind]
      exact fun _ _ => rfl
  | some j =>
      obtain ⟨a', ha', -, hres⟩ := h.released hfree hfind
      have hun := (ha'.unmap virt).2
      intro a ha
      have hout := hspares (by rw [hfind]; exact Option.some_ne_none j) a ha
      have hkept := hun.kept _ hout
      rw [hres]
      unfold Machine.translate hwWalk
      rw [hun.regs.cr3, ha'.root, hkept]

/-- A safe call does not fault and keeps the windows. -/
theorem HeapOp.Safe.call (h : HeapOk m) {op : HeapOp} (hsafe : op.Safe m) :
    ∃ m', heapCall m op = some m' ∧ HeapOk m' ∧ WindowsKept m m' := by
  have hwritten : ∀ {m₁ m' : Machine}, HeapOk m₁ → WindowsKept m m₁ → SameTables m₁ m' →
      HeapOk m' ∧ WindowsKept m m' := fun hm₁ hkept hsame =>
    ⟨hsame.heapOk hm₁, hkept.trans
      (fun a _ => hsame.translate hm₁.standing.pager.tables hm₁.standing.root a)⟩
  cases op with
  | avmfAlloc size type flags =>
      obtain ⟨hsound, hspares⟩ := hsafe
      obtain ⟨hafter, hfaults⟩ := h.alloc hsound
      exact ⟨_, returned_some hfaults, hafter, h.standing.windowsAlloc hsound hspares⟩
  | fmalloc size =>
      obtain ⟨hworks, hspares⟩ := hsafe
      obtain ⟨ret, m', hcall, -, hsame, -⟩ := h.fmalloc hworks
      exact ⟨m', heapCall_fmalloc hcall, hwritten (h.alloc hworks.sound).1
        (h.standing.windowsAlloc hworks.sound hspares) hsame⟩
  | fcalloc nmemb size =>
      obtain ⟨hworks, hspares⟩ := hsafe
      obtain ⟨ret, m', hcall, hsame⟩ := h.fcalloc hworks
      exact ⟨m', heapCall_fcalloc hcall, hwritten (h.alloc hworks.sound).1
        (h.standing.windowsAlloc hworks.sound hspares) hsame⟩
  | avmfFree virt =>
      obtain ⟨hfree, hspares⟩ := hsafe
      obtain ⟨hafter, hfaults⟩ := h.free hfree
      exact ⟨_, returned_some hfaults, hafter, h.standing.windowsFree hfree.keeps hspares⟩

end Calls

/-- A run of safe calls. -/
theorem HeapOk.run {m : Machine} (h : HeapOk m) {ops : List HeapOp}
    (hsafe : Along heapStep (fun s op => ∀ m', s = some m' → op.Safe m') (some m) ops) :
    ∃ m', exec heapStep (some m) ops = some m' ∧ WindowsKept m m' := by
  induction ops generalizing m with
  | nil => exact ⟨m, rfl, fun _ _ => rfl⟩
  | cons op ops ih =>
      obtain ⟨m₁, hcall, hm₁, hkept⟩ := (hsafe.1 m rfl).call h
      have hstep : heapStep (some m) op = some m₁ := hcall
      have hrest := hsafe.2
      rw [hstep] at hrest
      obtain ⟨m', hexec, hkept'⟩ := ih hm₁ hrest
      refine ⟨m', ?_, hkept.trans hkept'⟩
      rw [exec_cons, hstep]
      exact hexec

/-! ## From the state that `pager_init` leaves -/

section Init

variable {mem : Nat → Fin 512 → Nat} {e820 : List E820Entry} {bits retries : Nat} {m : Machine}

/-- After `pager_init` the page tables are marked. -/
theorem pagerInit_marked (hres : pagerInit (bootMachine mem) e820 bits retries = some m) :
    Marked m.avmf m.tableLog :=
  buildTables_keeps (P := Marked) Marked.table (m := initAvmf (bootMachine mem) e820 bits) rfl
    (fun _ hx => absurd hx List.not_mem_nil) hres

/-- The heap may be used after `pager_init`. -/
theorem pagerInit_heapOk (hmap : E820Ok e820 bits (2 ^ 47)) (hbits : 32 ≤ bits ∧ bits ≤ 52)
    (hres : pagerInit (bootMachine mem) e820 bits retries = some m) (hlog : TablesGranted m) :
    HeapOk m := by
  have hdone := pagerInit_done hmap (Nat.le_refl _) hbits hres hlog
  exact ⟨hdone.standing (pagerInit_worded hres) hlog, pagerInit_marked hres⟩

/-- In every run after `pager_init` of safe calls, every address of the
    firmware's windows keeps its translation, and no call faults. -/
theorem windows_kept (hmap : E820Ok e820 bits (2 ^ 47)) (hbits : 32 ≤ bits ∧ bits ≤ 52)
    (hres : pagerInit (bootMachine mem) e820 bits retries = some m) (hlog : TablesGranted m)
    {ops : List HeapOp}
    (hsafe : Along heapStep (fun s op => ∀ m', s = some m' → op.Safe m') (some m) ops) :
    ∃ m', exec heapStep (some m) ops = some m' ∧
      ∀ a, InWindow a → m'.translate a = m.translate a :=
  (pagerInit_heapOk hmap hbits hres hlog).run hsafe

end Init

/-- A page of kernel memory. -/
theorem windows_kept_page :
    ∃ m, pagerInit (bootMachine (fun _ _ => 0)) lowE820 36 1 = some m ∧
      ∃ m', exec heapStep (some m) [.avmfAlloc 4096 .kernel 3] = some m' ∧
        ∀ a, InWindow a → m'.translate a = m.translate a := by
  obtain ⟨m, g, hres, h⟩ := lowE820_fresh (fun _ _ => 0)
  obtain ⟨a', hrec, -⟩ := h.page (n := 215) (by decide) .kernel 3 (by decide)
  have hroom := h.supply.room
  have hin := h.supply.inBitmap
  simp only [bitmapSize] at hin
  refine ⟨m, hres, windows_kept ⟨by decide, by decide, by decide⟩ (by decide) hres h.granted.2
    ⟨?_, trivial⟩⟩
  intro m' hm'
  cases Option.some.inj hm'
  refine ⟨(h.stepWorks (by decide) .kernel (by decide)).sound, ?_⟩
  intro virt phys m₁ hrec' c hc a ha
  rw [hrec] at hrec'
  obtain ⟨rfl, hrest⟩ := Prod.mk.inj (Option.some.inj hrec')
  obtain ⟨rfl, -⟩ := Prod.mk.inj hrest
  rw [show align4k 4096 = 4096 by decide, rangeCalls_page 3 (by decide) (by omega),
    List.mem_singleton] at hc
  rw [hc, MapCall.replaces_page (not_huge_of_flags (by decide))]
  show ¬ a / pageSize % 2 ^ 36 = aosKernelSpaceBase / 4096 % 2 ^ 36
  unfold InWindow at ha
  simp only [aosKernelSpaceBase, pageSize]
  omega

/-- The first `fmalloc` takes the user page at 0x1000, which the firmware's
    first window holds: the address is translated to the heap's page from then
    on. -/
theorem fmalloc_remaps :
    ∃ m, pagerInit (bootMachine (fun _ _ => 0)) lowE820 36 1 = some m ∧
      ∃ m', exec heapStep (some m) [.fmalloc 4062] = some m' ∧ InWindow 0x1000 ∧
        (m.translate 0x1000).map Prod.fst = some 0x1000 ∧
        (m'.translate 0x1000).map Prod.fst ≠ some 0x1000 := by
  obtain ⟨m, g, hres, h⟩ := lowE820_fresh (fun _ _ => 0)
  have hok : HeapOk m :=
    pagerInit_heapOk ⟨by decide, by decide, by decide⟩ (by decide) hres h.granted.2
  have hworks : StepWorks { m := m } (fmallocOp 4062) := h.stepWorks (by decide) .user (by decide)
  obtain ⟨ret, m', hcall, -, hsame, -⟩ := hok.fmalloc hworks
  have hafter := (hok.alloc hworks.sound).1
  obtain ⟨a', hrec, -⟩ := h.page (n := 215) (by decide) .user 3 (by decide)
  have husable := hok.standing.reported hworks
  have hresult := avmfAlloc_of_recorded hrec
  have hfirst := h.first
  refine ⟨m, hres, m', ?_, by decide, ?_, ?_⟩
  · rw [exec_cons, exec_nil, heapStep_some]
    exact heapCall_fmalloc hcall
  · unfold Machine.translate
    rw [h.done.root]
    exact h.done.tables.identity 0x1000 (by decide)
  · rw [hsame.translate hafter.standing.pager.tables hafter.standing.root]
    unfold fmallocOp ReportedUsable at husable
    dsimp only at husable
    rw [show add64 4062 sizeofAllocHdr = 4096 by decide,
      show pagePresent ||| pageRw = 3 by decide] at husable ⊢
    rw [hresult] at husable ⊢
    obtain ⟨phys, hphys, husable⟩ := husable (Nat.succ_ne_zero _)
    have htranslate := (husable 0 (by decide)).2
    rw [← Option.some.inj hphys] at htranslate
    show (Machine.translate _ (spaceBase .user + 0)).map Prod.fst ≠ _
    rw [htranslate]
    intro hc
    have := Option.some.inj hc
    omega

end Pfi
