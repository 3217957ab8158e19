import Pfi.Avmf
import Pfi.Linked
import Pfi.Run

/-! # `avmf_alloc_region` on several cores

    The scan for the last node and the capacity check come before
    `avmf_lock2` is taken; only the insertion is under it.  The atomic steps
    of a call are the scan, the check and the insertion, and the steps of any
    number of cores interleave.

    A node is linked behind the last node of the list as long as every
    insertion finds the list as its scan left it.  The first that does not,
    cuts the list or is not linked at all (`regions_kept_iff`). -/

namespace Pfi

open Words Links Run

/-! ## The cores -/

/-- The arguments of a call, the size rounded. -/
structure RegionCall where
  virt : Nat
  phys : Nat
  size : Nat
  flags : Nat
deriving Repr, DecidableEq

/-- What the call stores in its node, apart from `next`. -/
def RegionCall.header (c : RegionCall) : AvmfHeader :=
  { virtAddr := c.virt, physAddr := c.phys, size := align4k c.size
    flags := c.flags % 2 ^ 32, used := 1, attributes := 0
    version := avmfVersion, signature := avmfSignature }

/-- Where a core stands in `avmf_alloc_region`; `last` is `last_node`. -/
inductive RegionPc where
  | idle
  | scan (c : RegionCall)
  | check (c : RegionCall) (last : Option Nat)
  | insert (c : RegionCall) (last : Option Nat)
deriving Repr, DecidableEq

/-- The list, `static_headers` with its `next` pointers, the cores, and the
    nodes of the calls that returned 1.  Nodes are indices into
    `static_headers`; one beyond its end is kept as such. -/
structure RegionCores where
  avmfHead : Option Nat := none
  next : Nat → Option Nat := fun _ => none
  headers : Nat → AvmfHeader := fun _ => {}
  headerIndex : Nat := 0
  cores : Nat → RegionPc := fun _ => .idle
  returned : List (Nat × RegionCall) := []

inductive RegionAct where
  | call (core : Nat) (c : RegionCall)
  | go (core : Nat)
deriving Repr, DecidableEq

/-- The loop that finds the end of the list. -/
def RegionCores.lastNode (s : RegionCores) : Option Nat :=
  lastFrom s.next s.headerIndex s.avmfHead

def RegionCores.enter (s : RegionCores) (core : Nat) (c : RegionCall) : RegionCores :=
  match s.cores core with
  | .idle => { s with cores := Function.update s.cores core (.scan c) }
  | _ => s

/-- `node->next = NULL`, and `last_node->next = node` unless the list is
    empty.  A store through a null `last_node` reaches no node. -/
def linkNode (next : Nat → Option Nat) (head last : Option Nat) (node : Nat) :
    Nat → Option Nat :=
  let next := Function.update next node none
  match head, last with
  | some _, some k => Function.update next k (some node)
  | _, _ => next

/-- The critical section. -/
def RegionCores.insert (s : RegionCores) (c : RegionCall) (last : Option Nat) : RegionCores :=
  { s with
    headerIndex := s.headerIndex + 1
    headers := Function.update s.headers s.headerIndex c.header
    next := linkNode s.next s.avmfHead last s.headerIndex
    avmfHead := some (s.avmfHead.getD s.headerIndex)
    returned := (s.headerIndex, c) :: s.returned }

/-- The next step of a core. -/
def RegionCores.go (s : RegionCores) (core : Nat) : RegionCores :=
  match s.cores core with
  | .idle => s
  | .scan c => { s with cores := Function.update s.cores core (.check c s.lastNode) }
  | .check c last =>
      if avmfStaticSize ≤ s.headerIndex then
        { s with cores := Function.update s.cores core .idle }
      else { s with cores := Function.update s.cores core (.insert c last) }
  | .insert c last => { s.insert c last with cores := Function.update s.cores core .idle }

def RegionCores.step (s : RegionCores) : RegionAct → RegionCores
  | .call core c => s.enter core c
  | .go core => s.go core

/-- The list has `header_index` nodes without a cycle, at most as many as
    there are, and the node of every call that returned 1 is on it with what
    the call stored. -/
def RegionCores.Kept (s : RegionCores) : Prop :=
  s.headerIndex ≤ avmfStaticSize ∧
    ∃ l, Linked s.next s.avmfHead l ∧ l.Nodup ∧ l.length = s.headerIndex ∧
      ∀ r ∈ s.returned, r.1 ∈ l ∧ s.headers r.1 = r.2.header

/-- An insertion finds the last node that its scan found. -/
def RegionPc.TailKept (lastNode : Option Nat) : RegionPc → Prop
  | .insert _ last => last = lastNode
  | _ => True

def RegionCores.TailKept (s : RegionCores) : RegionAct → Prop
  | .call _ _ => True
  | .go core => (s.cores core).TailKept s.lastNode

/-! ## The invariant -/

/-- The node that a call found is on the list; if it is still the last one,
    there is room for another. -/
def RegionPc.Ok (l : List Nat) : RegionPc → Prop
  | .idle => True
  | .scan _ => True
  | .check _ last => ∀ k, last = some k → k ∈ l
  | .insert _ last =>
      (∀ k, last = some k → k ∈ l) ∧ (last = l.getLast? → l.length < avmfStaticSize)

structure RegionCoresOk (s : RegionCores) (l : List Nat) : Prop where
  linked : Linked s.next s.avmfHead l
  nodup : l.Nodup
  length : l.length = s.headerIndex
  below : ∀ k ∈ l, k < s.headerIndex
  capacity : l.length ≤ avmfStaticSize
  returned : ∀ r ∈ s.returned, r.1 ∈ l ∧ s.headers r.1 = r.2.header
  cores : ∀ i, (s.cores i).Ok l

theorem RegionCoresOk.kept {s : RegionCores} {l : List Nat} (h : RegionCoresOk s l) :
    s.Kept :=
  ⟨by rw [← h.length]; exact h.capacity, l, h.linked, h.nodup, h.length, h.returned⟩

theorem regionCoresOk_boot : RegionCoresOk {} [] := by
  constructor
  · exact linked_nil
  · exact List.nodup_nil
  · rfl
  · intro k hk
    cases hk
  · exact Nat.zero_le _
  · intro r hr
    cases hr
  · intro i
    exact trivial

section Step

variable {s : RegionCores} {l : List Nat} {core : Nat} {c : RegionCall} {last : Option Nat}

/-- The scan finds the last node of the list. -/
theorem RegionCoresOk.lastNode (h : RegionCoresOk s l) : s.lastNode = l.getLast? :=
  lastFrom_linked h.linked (Nat.le_of_eq h.length)

/-- A step that only moves a core. -/
theorem RegionCoresOk.move (h : RegionCoresOk s l) {pc : RegionPc} (hpc : pc.Ok l) :
    RegionCoresOk { s with cores := Function.update s.cores core pc } l := by
  refine ⟨h.linked, h.nodup, h.length, h.below, h.capacity, h.returned, ?_⟩
  intro i
  show (Function.update s.cores core pc i).Ok l
  by_cases hi : i = core
  · rw [hi, Function.update_self]
    exact hpc
  · rw [Function.update_of_ne hi]
    exact h.cores i

theorem RegionCoresOk.node_new (h : RegionCoresOk s l) : s.headerIndex ∉ l :=
  fun hmem => Nat.lt_irrefl _ (h.below _ hmem)

/-- A node that is linked behind the last one ends the list. -/
theorem RegionCoresOk.linkedLast (h : RegionCoresOk s l) (hlast : last = l.getLast?) :
    Linked (linkNode s.next s.avmfHead last s.headerIndex)
      (some (s.avmfHead.getD s.headerIndex)) (l ++ [s.headerIndex]) := by
  have hnew := h.node_new
  have hlinked := linked_update h.linked hnew none
  have hnull : Linked (Function.update s.next s.headerIndex none) (some s.headerIndex)
      [s.headerIndex] := by
    refine ⟨rfl, ?_⟩
    rw [Function.update_self]
    exact linked_nil
  rcases List.eq_nil_or_concat l with rfl | ⟨pre, k, rfl⟩
  · -- the list was empty, and the node becomes its head
    have hhead := (linked_head_none h.linked).mpr rfl
    rw [hlast, hhead]
    exact hnull
  · rw [List.concat_eq_append] at hlinked hlast hnew ⊢
    rw [List.getLast?_concat] at hlast
    have hnodup := h.nodup
    rw [List.concat_eq_append] at hnodup
    have hk : k ∉ pre := fun hmem =>
      (List.nodup_append.mp hnodup).2.2 k hmem k List.mem_cons_self rfl
    cases hhead : s.avmfHead with
    | none =>
        rw [hhead] at hlinked
        have hnil := (linked_head_none hlinked).mp rfl
        exact absurd hnil (List.append_ne_nil_of_right_ne_nil _ (List.cons_ne_nil _ _))
    | some first =>
        rw [hlast, List.append_assoc]
        rw [hhead] at hlinked
        have hne : s.headerIndex ≠ k := by
          intro hc
          exact hnew (by rw [hc]; exact List.mem_append_right _ List.mem_cons_self)
        have hkout : k ∉ [s.headerIndex] := by
          intro hmem
          exact hne (List.mem_singleton.mp hmem).symm
        exact linked_splice hlinked hk (linked_update hnull hkout (some s.headerIndex))

/-- An insertion behind the last node. -/
theorem RegionCoresOk.insert (h : RegionCoresOk s l) (hpc : s.cores core = .insert c last)
    (hlast : last = l.getLast?) :
    RegionCoresOk (s.go core) (l ++ [s.headerIndex]) := by
  have hcore := h.cores core
  rw [hpc] at hcore
  have hroom := hcore.2 hlast
  have hnew := h.node_new
  have hlinked := h.linkedLast hlast
  simp only [RegionCores.go, hpc, RegionCores.insert]
  constructor
  · exact hlinked
  · refine List.nodup_append.mpr ⟨h.nodup, List.nodup_singleton _, ?_⟩
    intro a ha b hb hab
    rw [List.mem_singleton.mp hb] at hab
    exact hnew (hab ▸ ha)
  · rw [List.length_append, h.length]
    rfl
  · intro k hk
    rcases List.mem_append.mp hk with hk | hk
    · exact Nat.lt_succ_of_lt (h.below k hk)
    · rw [List.mem_singleton.mp hk]
      exact Nat.lt_succ_self _
  · rw [List.length_append]
    exact hroom
  · intro r hr
    rcases List.mem_cons.mp hr with rfl | hr
    · refine ⟨List.mem_append_right _ List.mem_cons_self, ?_⟩
      exact Function.update_self _ _ _
    · obtain ⟨hmem, hheader⟩ := h.returned r hr
      refine ⟨List.mem_append_left _ hmem, ?_⟩
      have hne : r.1 ≠ s.headerIndex := fun hc => hnew (hc ▸ hmem)
      exact (Function.update_of_ne hne _ _).trans hheader
  · intro i
    dsimp only
    by_cases hi : i = core
    · rw [hi, Function.update_self]
      exact trivial
    · rw [Function.update_of_ne hi]
      have hok := h.cores i
      generalize s.cores i = pc at hok
      cases pc with
      | idle => exact trivial
      | scan c' => exact trivial
      | check c' last' => exact fun k hk => List.mem_append_left _ (hok k hk)
      | insert c' last' =>
          refine ⟨fun k hk => List.mem_append_left _ (hok.1 k hk), ?_⟩
          -- what another call found is not the new node
          intro hsame
          rw [List.getLast?_concat] at hsame
          exact absurd (hok.1 _ hsame) hnew

/-- A step that keeps the tail keeps the invariant. -/
theorem RegionCoresOk.step (h : RegionCoresOk s l) {act : RegionAct} (hok : s.TailKept act) :
    ∃ l', RegionCoresOk (s.step act) l' := by
  cases act with
  | call core c =>
      refine ⟨l, ?_⟩
      simp only [RegionCores.step, RegionCores.enter]
      split
      · exact h.move trivial
      · exact h
  | go core =>
      have hcore := h.cores core
      change (s.cores core).TailKept s.lastNode at hok
      simp only [RegionCores.step]
      cases hpc : s.cores core with
      | idle =>
          refine ⟨l, ?_⟩
          simp only [RegionCores.go, hpc]
          exact h
      | scan c =>
          refine ⟨l, ?_⟩
          simp only [RegionCores.go, hpc]
          refine h.move ?_
          intro k hk
          rw [h.lastNode] at hk
          exact List.mem_of_getLast? hk
      | check c last =>
          refine ⟨l, ?_⟩
          rw [hpc] at hcore
          simp only [RegionCores.go, hpc]
          split
          · exact h.move trivial
          · rename_i hroom
            rw [← h.length] at hroom
            exact h.move ⟨hcore, fun _ => Nat.lt_of_not_le hroom⟩
      | insert c last =>
          rw [hpc] at hok
          refine ⟨l ++ [s.headerIndex], ?_⟩
          exact h.insert hpc (Eq.trans hok h.lastNode)

/-- An insertion behind another node leaves the list too short. -/
theorem RegionCoresOk.tailKept (h : RegionCoresOk s l) {act : RegionAct}
    (hkept : (s.step act).Kept) : s.TailKept act := by
  cases act with
  | call core c => exact trivial
  | go core =>
      have hcore := h.cores core
      show (s.cores core).TailKept s.lastNode
      cases hpc : s.cores core with
      | idle => exact trivial
      | scan c => exact trivial
      | check c last => exact trivial
      | insert c last =>
          rw [hpc] at hcore
          show last = s.lastNode
          rw [h.lastNode]
          by_contra hne
          have hnew := h.node_new
          have hlinked := linked_update h.linked hnew none
          simp only [RegionCores.step, RegionCores.go, hpc, RegionCores.insert] at hkept
          obtain ⟨-, l', hl', -, hlen, -⟩ := hkept
          dsimp only at hlen
          cases hhead : s.avmfHead with
          | none =>
              -- an empty list: the scan found no node either
              have hnil := (linked_head_none h.linked).mp hhead
              subst hnil
              cases hlast : last with
              | none => exact hne hlast
              | some k => cases hcore.1 k hlast
          | some first =>
              rw [hhead] at hl' hlinked
              cases hlast : last with
              | none =>
                  rw [hlast] at hl'
                  have hsame := linked_unique hl' hlinked
                  rw [hsame, h.length] at hlen
                  exact absurd hlen (Nat.ne_of_lt (Nat.lt_succ_self _))
              | some k =>
                  rw [hlast] at hl' hne
                  obtain ⟨pre, post, hsplit⟩ := List.append_of_mem (hcore.1 k hlast)
                  have hnodup := h.nodup
                  rw [hsplit] at hlinked hnodup hnew hne
                  have hk : k ∉ pre := fun hmem =>
                    (List.nodup_append.mp hnodup).2.2 k hmem k List.mem_cons_self rfl
                  have hnode : k ≠ s.headerIndex := by
                    intro hc
                    exact hnew (by rw [← hc]; exact List.mem_append_right _ List.mem_cons_self)
                  have hrest : Linked (Function.update
                      (Function.update s.next s.headerIndex none) k (some s.headerIndex))
                      (some s.headerIndex) [s.headerIndex] := by
                    refine ⟨rfl, ?_⟩
                    rw [Function.update_of_ne (Ne.symm hnode), Function.update_self]
                    exact linked_nil
                  -- the nodes behind the one that was found are cut off
                  have hcut := linked_unique hl' (linked_splice hlinked hk hrest)
                  have hlength := h.length
                  rw [hsplit, List.length_append, List.length_cons] at hlength
                  rw [hcut, List.length_append, List.length_cons, List.length_singleton] at hlen
                  have hpost : post = [] := List.eq_nil_of_length_eq_zero (by omega)
                  rw [hpost, List.getLast?_concat] at hne
                  exact hne rfl

end Step

/-! ## Every interleaving -/

/-- In every interleaving, no region is lost in any state if and only if
    every insertion finds the last node that its scan found. -/
theorem regions_kept_iff {acts : List RegionAct} :
    Throughout RegionCores.step RegionCores.Kept {} acts
      ↔ Along RegionCores.step RegionCores.TailKept {} acts := by
  have hpre : Along RegionCores.step (fun _ _ => True) {} acts :=
    along_of_forall (fun _ _ _ => trivial)
  refine throughout_iff (I := fun s => ∃ l, RegionCoresOk s l)
    (fun s hs => ?_) (fun s act hs _ hok => ?_) (fun s act hs _ hkept => ?_)
    ⟨[], regionCoresOk_boot⟩ hpre
  · obtain ⟨l, h⟩ := hs
    exact h.kept
  · obtain ⟨l, h⟩ := hs
    exact h.step hok
  · obtain ⟨l, h⟩ := hs
    exact h.tailKept hkept

/-- Two cores that scan the list before either inserts: the second node
    replaces the first behind the last node. -/
theorem region_lost :
    let call : RegionCall := ⟨0x1000, 0x10000, 4096, 3⟩
    let acts : List RegionAct :=
      [.call 0 call, .go 0, .go 0, .go 0, .call 0 call, .call 1 call, .go 0, .go 1, .go 0,
        .go 1, .go 0, .go 1]
    (exec RegionCores.step {} acts).returned.map Prod.fst = [2, 1, 0] ∧
      ¬ (exec RegionCores.step {} acts).Kept := by
  intro call acts
  refine ⟨by decide, ?_⟩
  rintro ⟨-, l, hlinked, -, hlen, -⟩
  have hthree : (exec RegionCores.step {} acts).headerIndex = 3 := by decide
  have hhead : (exec RegionCores.step {} acts).avmfHead = some 0 := by decide
  have hfirst : (exec RegionCores.step {} acts).next 0 = some 2 := by decide
  have hsecond : (exec RegionCores.step {} acts).next 2 = none := by decide
  generalize exec RegionCores.step {} acts = s at hlinked hlen hthree hhead hfirst hsecond
  have hchain : Linked s.next s.avmfHead [0, 2] := by
    rw [hhead]
    refine ⟨rfl, ?_⟩
    rw [hfirst]
    refine ⟨rfl, ?_⟩
    rw [hsecond]
    exact linked_nil
  rw [linked_unique hlinked hchain, hthree] at hlen
  exact absurd hlen (by decide)

end Pfi
