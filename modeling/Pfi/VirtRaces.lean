import Pfi.VirtSpaces
import Mathlib.Logic.Function.Basic

/-! # `avmf_alloc_virt` on several cores

    Only the addition to the heap pointer is under `avmf_lock`; the bound
    check and the read of the pointer that is returned come before it.  The
    atomic steps of a call are the check, the read and the addition, and the
    steps of any number of cores interleave.

    What the heaps have handed out tiles each space from its base to its heap
    pointer, as long as every addition finds the pointer that its call read.
    The first addition that does not, returns a range that was handed out
    before (`returned_separate_iff`). -/

namespace Pfi

open Words Run

/-! ## The cores -/

/-- Where a core stands in `avmf_alloc_virt`; `ptr` is the local variable. -/
inductive VirtPc where
  | idle
  | check (c : VirtCall)
  | read (c : VirtCall)
  | add (c : VirtCall) (ptr : Nat)
deriving Repr, DecidableEq

/-- The heap pointers, the cores, and the ranges returned so far. -/
structure VirtCores where
  heap : MemoryAllocType → Nat := spaceBase
  cores : Nat → VirtPc := fun _ => .idle
  returned : List Grant := []

/-- A core enters `avmf_alloc_virt`, or takes its next step in it. -/
inductive VirtAct where
  | call (core : Nat) (c : VirtCall)
  | go (core : Nat)
deriving Repr, DecidableEq

/-- The range that a call returns. -/
def VirtCall.grant (c : VirtCall) (ptr : Nat) : Grant := ⟨ptr, align4k c.size, c.size, c.type⟩

/-- A call of an unknown type returns at once. -/
def VirtCores.enter (s : VirtCores) (core : Nat) (c : VirtCall) : VirtCores :=
  match s.cores core with
  | .idle =>
      if c.type = .unknown then s
      else { s with cores := Function.update s.cores core (.check c) }
  | _ => s

/-- The next step of a core.  Empty ranges are not recorded. -/
def VirtCores.go (s : VirtCores) (core : Nat) : VirtCores :=
  match s.cores core with
  | .idle => s
  | .check c =>
      if heapEnd c.type < add64 (s.heap c.type) (align4k c.size) then
        { s with cores := Function.update s.cores core .idle }
      else { s with cores := Function.update s.cores core (.read c) }
  | .read c => { s with cores := Function.update s.cores core (.add c (s.heap c.type)) }
  | .add c ptr =>
      { heap := Function.update s.heap c.type (add64 (s.heap c.type) (align4k c.size))
        cores := Function.update s.cores core .idle
        returned :=
          if align4k c.size = 0 then s.returned else c.grant ptr :: s.returned }

def VirtCores.step (s : VirtCores) : VirtAct → VirtCores
  | .call core c => s.enter core c
  | .go core => s.go core

/-- The step does not wrap a sum. -/
def VirtPc.NoWrap (heap : MemoryAllocType → Nat) : VirtPc → Prop
  | .idle => True
  | .check c => heap c.type + align4k c.size < 2 ^ 64
  | .read _ => True
  | .add c _ => heap c.type + align4k c.size < 2 ^ 64

instance (heap : MemoryAllocType → Nat) : (pc : VirtPc) → Decidable (pc.NoWrap heap)
  | .idle => isTrue trivial
  | .check _ => inferInstanceAs (Decidable (_ < _))
  | .read _ => isTrue trivial
  | .add _ _ => inferInstanceAs (Decidable (_ < _))

def VirtCores.NoWrap (s : VirtCores) : VirtAct → Prop
  | .call _ c => c.size + 4095 < 2 ^ 64
  | .go core => (s.cores core).NoWrap s.heap

instance (s : VirtCores) : (act : VirtAct) → Decidable (s.NoWrap act)
  | .call _ _ => inferInstanceAs (Decidable (_ < _))
  | .go core => inferInstanceAs (Decidable ((s.cores core).NoWrap s.heap))

/-- The ranges returned do not meet and end in their space. -/
structure VirtCores.Separate (s : VirtCores) : Prop where
  apart : s.returned.Pairwise Grant.ApartFrom
  bound : ∀ g ∈ s.returned, g.virt + g.length ≤ heapEnd g.type

/-- An addition finds the heap pointer as its call read it, and the sum in the
    bound. -/
def VirtPc.Undisturbed (heap : MemoryAllocType → Nat) : VirtPc → Prop
  | .add c ptr =>
      align4k c.size = 0 ∨ (heap c.type = ptr ∧ ptr + align4k c.size ≤ heapEnd c.type)
  | _ => True

def VirtCores.Undisturbed (s : VirtCores) : VirtAct → Prop
  | .call _ _ => True
  | .go core => (s.cores core).Undisturbed s.heap

/-! ## The invariant -/

/-- The call is of a known type, and a pointer it read is in the part of the
    space that is handed out, or at its end. -/
def VirtPc.Ok (heap : MemoryAllocType → Nat) : VirtPc → Prop
  | .idle => True
  | .check c => c.type ≠ .unknown
  | .read c => c.type ≠ .unknown
  | .add c ptr => c.type ≠ .unknown ∧ spaceBase c.type ≤ ptr ∧ ptr ≤ heap c.type

/-- The ranges returned tile each space up to its heap pointer. -/
structure VirtCoresOk (s : VirtCores) : Prop where
  heap : ∀ t, t ≠ .unknown → spaceBase t ≤ s.heap t ∧ s.heap t ≤ heapEnd t
  inside : ∀ g ∈ s.returned, g.type ≠ .unknown ∧ spaceBase g.type ≤ g.virt ∧
    g.virt + g.length ≤ s.heap g.type
  apart : s.returned.Pairwise Grant.ApartFrom
  tiles : ∀ t, t ≠ .unknown → ∀ x, spaceBase t ≤ x → x < s.heap t →
    ∃ g ∈ s.returned, g.type = t ∧ g.virt ≤ x ∧ x < g.virt + g.length
  cores : ∀ i, (s.cores i).Ok s.heap

theorem VirtCoresOk.separate {s : VirtCores} (h : VirtCoresOk s) : s.Separate := by
  refine ⟨h.apart, ?_⟩
  intro g hg
  obtain ⟨ht, -, hend⟩ := h.inside g hg
  exact Nat.le_trans hend (h.heap g.type ht).2

theorem virtCoresOk_boot : VirtCoresOk {} := by
  constructor
  · intro t ht
    cases t with
    | unknown => exact absurd rfl ht
    | user => decide
    | kernel => decide
    | driver => decide
    | sensitive => decide
  · intro g hg
    cases hg
  · exact List.Pairwise.nil
  · intro t _ x hlo hhi
    exact absurd hlo (Nat.not_le_of_lt hhi)
  · intro i
    exact trivial

section Step

variable {s : VirtCores} {core : Nat} {c : VirtCall}

/-- A step that only moves a core. -/
theorem VirtCoresOk.move (h : VirtCoresOk s) {pc : VirtPc} (hpc : pc.Ok s.heap) :
    VirtCoresOk { s with cores := Function.update s.cores core pc } := by
  refine ⟨h.heap, h.inside, h.apart, h.tiles, ?_⟩
  intro i
  show (Function.update s.cores core pc i).Ok s.heap
  by_cases hi : i = core
  · rw [hi, Function.update_self]
    exact hpc
  · rw [Function.update_of_ne hi]
    exact h.cores i

/-- A range at the heap pointer meets none that was returned. -/
theorem VirtCoresOk.fresh (h : VirtCoresOk s) (ht : c.type ≠ .unknown)
    (hend : s.heap c.type + align4k c.size ≤ heapEnd c.type) :
    ∀ g ∈ s.returned, (c.grant (s.heap c.type)).ApartFrom g := by
  intro g hg
  obtain ⟨hgt, hbase, hgend⟩ := h.inside g hg
  unfold Grant.ApartFrom Apart VirtCall.grant
  dsimp only
  by_cases htt : g.type = c.type
  · rw [htt] at hgend
    exact Or.inr hgend
  · -- ranges of two types lie in two spaces
    have hstart := (h.heap c.type ht).1
    have hglimit := (h.heap g.type hgt).2
    have h1 := heapEnd_le_spaceEnd c.type
    have h2 := heapEnd_le_spaceEnd g.type
    rcases spaces_apart htt with hap | hap
    · right
      omega
    · left
      omega

/-- An addition that finds the pointer that was read. -/
theorem VirtCoresOk.add (h : VirtCoresOk s) (hpc : s.cores core = .add c (s.heap c.type))
    (hend : s.heap c.type + align4k c.size ≤ heapEnd c.type)
    (hpos : align4k c.size ≠ 0) : VirtCoresOk (s.go core) := by
  have hcore := h.cores core
  rw [hpc] at hcore
  obtain ⟨ht, hbase, -⟩ := hcore
  have hsum : add64 (s.heap c.type) (align4k c.size) = s.heap c.type + align4k c.size :=
    add64_of_lt (Nat.lt_of_le_of_lt hend (heapEnd_lt c.type))
  have hgo : s.go core
      = { heap := Function.update s.heap c.type (s.heap c.type + align4k c.size)
          cores := Function.update s.cores core .idle
          returned := c.grant (s.heap c.type) :: s.returned } := by
    simp only [VirtCores.go, hpc, hsum, if_neg hpos]
  -- no heap pointer goes back
  have hmono : ∀ t, s.heap t ≤ Function.update s.heap c.type
      (s.heap c.type + align4k c.size) t := by
    intro t
    by_cases htt : t = c.type
    · rw [htt, Function.update_self]
      exact Nat.le_add_right _ _
    · rw [Function.update_of_ne htt]
  rw [hgo]
  constructor
  · intro t htu
    dsimp only
    by_cases htt : t = c.type
    · rw [htt, Function.update_self]
      exact ⟨Nat.le_trans hbase (Nat.le_add_right _ _), hend⟩
    · rw [Function.update_of_ne htt]
      exact h.heap t htu
  · -- the new range ends at the new pointer
    intro g hg
    rcases List.mem_cons.mp hg with rfl | hg
    · refine ⟨ht, hbase, ?_⟩
      show s.heap c.type + align4k c.size
        ≤ Function.update s.heap c.type (s.heap c.type + align4k c.size) c.type
      rw [Function.update_self]
    · obtain ⟨h1, h2, h3⟩ := h.inside g hg
      exact ⟨h1, h2, Nat.le_trans h3 (hmono g.type)⟩
  · -- it begins at the old one, beyond all others
    exact List.pairwise_cons.mpr ⟨h.fresh ht hend, h.apart⟩
  · intro t htu x hlo hhi
    dsimp only at hhi
    by_cases hold : x < s.heap t
    · obtain ⟨g, hg, hx⟩ := h.tiles t htu x hlo hold
      exact ⟨g, List.mem_cons_of_mem _ hg, hx⟩
    · -- an address beyond the old pointer is in the new range
      by_cases htt : t = c.type
      · subst htt
        rw [Function.update_self] at hhi
        exact ⟨_, List.mem_cons_self, rfl, Nat.le_of_not_lt hold, hhi⟩
      · rw [Function.update_of_ne htt] at hhi
        exact absurd hhi hold
  · -- the other cores have read a pointer that is no larger than the new one
    intro i
    show (Function.update s.cores core .idle i).Ok _
    by_cases hi : i = core
    · rw [hi, Function.update_self]
      exact trivial
    · rw [Function.update_of_ne hi]
      have hok := h.cores i
      generalize s.cores i = pc at hok
      cases pc with
      | idle => exact trivial
      | check c' => exact hok
      | read c' => exact hok
      | add c' ptr => exact ⟨hok.1, hok.2.1, Nat.le_trans hok.2.2 (hmono c'.type)⟩

/-- An addition of no bytes. -/
theorem VirtCoresOk.addNone (h : VirtCoresOk s) {ptr : Nat} (hpc : s.cores core = .add c ptr)
    (hsum : s.heap c.type + align4k c.size < 2 ^ 64) (hzero : align4k c.size = 0) :
    VirtCoresOk (s.go core) := by
  have hheap : Function.update s.heap c.type (add64 (s.heap c.type) (align4k c.size))
      = s.heap := by
    rw [add64_of_lt hsum, hzero, Nat.add_zero, Function.update_eq_self]
  have hgo : s.go core = { s with cores := Function.update s.cores core .idle } := by
    simp only [VirtCores.go, hpc, hheap, if_pos hzero]
  rw [hgo]
  exact h.move trivial

/-- An undisturbed step keeps the invariant. -/
theorem VirtCoresOk.step (h : VirtCoresOk s) {act : VirtAct} (hwrap : s.NoWrap act)
    (hok : s.Undisturbed act) : VirtCoresOk (s.step act) := by
  cases act with
  | call core c =>
      simp only [VirtCores.step, VirtCores.enter]
      split
      · by_cases ht : c.type = .unknown
        · rw [if_pos ht]
          exact h
        · rw [if_neg ht]
          exact h.move ht
      · exact h
  | go core =>
      have hcore := h.cores core
      simp only [VirtCores.step]
      change (s.cores core).NoWrap s.heap at hwrap
      change (s.cores core).Undisturbed s.heap at hok
      cases hpc : s.cores core with
      | idle =>
          simp only [VirtCores.go, hpc]
          exact h
      | check c =>
          rw [hpc] at hcore
          simp only [VirtCores.go, hpc]
          split
          · exact h.move trivial
          · exact h.move hcore
      | read c =>
          rw [hpc] at hcore
          simp only [VirtCores.go, hpc]
          exact h.move ⟨hcore, (h.heap c.type hcore).1, Nat.le_refl _⟩
      | add c ptr =>
          rw [hpc] at hok hwrap
          rcases hok with hzero | ⟨rfl, hend⟩
          · exact h.addNone hpc hwrap hzero
          · by_cases hzero : align4k c.size = 0
            · exact h.addNone hpc hwrap hzero
            · exact h.add hpc hend hzero

/-- A disturbed addition returns a range that meets another, or ends beyond
    the bound. -/
theorem VirtCoresOk.disturbed (h : VirtCoresOk s) {act : VirtAct}
    (hsep : (s.step act).Separate) : s.Undisturbed act := by
  cases act with
  | call core c => exact trivial
  | go core =>
      have hcore := h.cores core
      show (s.cores core).Undisturbed s.heap
      cases hpc : s.cores core with
      | idle => exact trivial
      | check c => exact trivial
      | read c => exact trivial
      | add c ptr =>
          rw [hpc] at hcore
          obtain ⟨ht, hbase, hle⟩ := hcore
          by_cases hzero : align4k c.size = 0
          · exact Or.inl hzero
          · right
            have hreturned : (s.step (.go core)).returned = c.grant ptr :: s.returned := by
              simp only [VirtCores.step, VirtCores.go, hpc, if_neg hzero]
            obtain ⟨hapart, hbound⟩ := hsep
            rw [hreturned] at hapart hbound
            refine ⟨?_, hbound _ List.mem_cons_self⟩
            by_contra hne
            -- the pointer that was read lies in a range that was returned since
            obtain ⟨g, hg, -, hlo, hhi⟩ := h.tiles c.type ht ptr hbase (by omega)
            have hmeet := (List.pairwise_cons.mp hapart).1 g hg
            unfold Grant.ApartFrom Apart VirtCall.grant at hmeet
            dsimp only at hmeet
            omega

end Step

/-! ## Every interleaving -/

/-- In an interleaving in which no sum wraps, the ranges returned do not meet
    and end in their spaces in every state if and only if every addition is
    undisturbed. -/
theorem returned_separate_iff {acts : List VirtAct}
    (hwrap : Along VirtCores.step VirtCores.NoWrap {} acts) :
    Throughout VirtCores.step VirtCores.Separate {} acts
      ↔ Along VirtCores.step VirtCores.Undisturbed {} acts :=
  throughout_iff (fun _ h => h.separate) (fun _ _ h hwrap hok => h.step hwrap hok)
    (fun _ _ h _ hsep => h.disturbed hsep) virtCoresOk_boot hwrap

/-- Two calls one after the other, with a call on another heap between their
    steps. -/
theorem returned_separate_three :
    Throughout VirtCores.step VirtCores.Separate {}
        [.call 0 ⟨8192, .user⟩, .go 0, .call 1 ⟨1, .kernel⟩, .go 0, .go 1, .go 0,
          .call 2 ⟨4096, .user⟩, .go 1, .go 2, .go 1, .go 2, .go 2]
      ↔ Along VirtCores.step VirtCores.Undisturbed {}
        [.call 0 ⟨8192, .user⟩, .go 0, .call 1 ⟨1, .kernel⟩, .go 0, .go 1, .go 0,
          .call 2 ⟨4096, .user⟩, .go 1, .go 2, .go 1, .go 2, .go 2] :=
  returned_separate_iff ⟨by decide, by decide, by decide, by decide, by decide, by decide,
    by decide, by decide, by decide, by decide, by decide, by decide, trivial⟩

/-- Two cores that read the heap pointer before either adds to it are both
    given the page at `0x1000`. -/
theorem page_returned_twice :
    let acts : List VirtAct :=
      [.call 0 ⟨4096, .user⟩, .call 1 ⟨4096, .user⟩, .go 0, .go 1, .go 0, .go 1, .go 0, .go 1]
    Along VirtCores.step VirtCores.NoWrap {} acts ∧
      (exec VirtCores.step {} acts).returned
        = [⟨0x1000, 4096, 4096, .user⟩, ⟨0x1000, 4096, 4096, .user⟩] ∧
      ¬ (exec VirtCores.step {} acts).Separate := by
  intro acts
  have hreturned : (exec VirtCores.step {} acts).returned
      = [⟨0x1000, 4096, 4096, .user⟩, ⟨0x1000, 4096, 4096, .user⟩] := by decide
  refine ⟨⟨by decide, by decide, by decide, by decide, by decide, by decide, by decide,
    by decide, trivial⟩, hreturned, ?_⟩
  intro h
  have hapart := h.apart
  rw [hreturned] at hapart
  have hmeet : Apart 0x1000 4096 0x1000 4096 :=
    (List.pairwise_cons.mp hapart).1 _ List.mem_cons_self
  unfold Apart at hmeet
  omega

end Pfi
