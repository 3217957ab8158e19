import Pfi.Linked
import Mathlib.Data.Set.Insert

/-! # Blocks of bytes

    What the client of an allocator sees: blocks at pointers, each with room for
    a number of bytes, of which some are known, and a link to another block or
    none.  An operation makes a block at an unused pointer, stores bytes in one,
    copies one to another, links two, or frees the chain from one.

    A pointer is used once (`Store.used`), so a block that is there after a run
    was there during all of it (`Steps.live`), and a byte of it is the last one
    that was stored in its place (`Steps.kept`).  What a free takes is the chain
    that the links give at that time, and there may be none: `Store.Chained` is
    the condition under which a block can be freed. -/

namespace BlockStore

open Links

variable {P V : Type}

/-- A block. -/
structure Cell (P V : Type) where
  room : Nat
  bytes : Nat → Option V
  next : Option P

/-- The blocks, and the pointers that have been used. -/
@[ext] structure Store (P V : Type) where
  cell : P → Option (Cell P V)
  used : Set P
  cell_used : ∀ p c, cell p = some c → p ∈ used

/-! ## Operations -/

/-- A new cell: no value is stored, and it is linked to nothing. -/
def Cell.fresh (n : Nat) : Cell P V := ⟨n, fun _ => none, none⟩

/-- Values are stored from an offset on. -/
def Cell.put (c : Cell P V) (o : Nat) (vs : List V) : Cell P V :=
  { c with bytes := fun i => if o ≤ i ∧ i < o + vs.length then vs[i - o]? else c.bytes i }

/-- As much of the other block as there is room for. -/
def Cell.copy (c d : Cell P V) : Cell P V :=
  { c with bytes := fun i => if i < min d.room c.room then d.bytes i else none }

namespace Store

/-- Nothing is live, and no pointer has been given. -/
def empty : Store P V := ⟨fun _ => none, ∅, fun _ _ h => nomatch h⟩

/-- The pointer that a live cell is linked to. -/
def next (a : Store P V) (p : P) : Option P := (a.cell p).bind Cell.next

variable [DecidableEq P]

/-- A cell is put at a pointer, which is used from then on. -/
def set (a : Store P V) (p : P) (c : Cell P V) : Store P V where
  cell := Function.update a.cell p (some c)
  used := insert p a.used
  cell_used := by
    intro q d hq
    by_cases h : q = p
    · exact Or.inl h
    · rw [Function.update_of_ne h] at hq
      exact Or.inr (a.cell_used q d hq)

/-- The cells of these pointers are gone; the pointers stay used. -/
def drop (a : Store P V) (ps : List P) : Store P V where
  cell := fun q => if q ∈ ps then none else a.cell q
  used := a.used
  cell_used := by
    intro q d hq
    by_cases h : q ∈ ps
    · rw [if_pos h] at hq
      cases hq
    · rw [if_neg h] at hq
      exact a.cell_used q d hq

/-- The chain of live blocks from a pointer, null or not. -/
def Chain (a : Store P V) (p : Option P) (ps : List P) : Prop :=
  Linked a.next p ps ∧ ∀ q ∈ ps, a.cell q ≠ none

/-- The links from a block lead through live blocks to an end. -/
def Chained (a : Store P V) (p : P) : Prop := ∃ ps, a.Chain (some p) ps

end Store

/-- What a client asks for. -/
inductive Op (P V : Type) where
  | alloc (p : P) (n : Nat)
  | put (p : P) (o : Nat) (vs : List V)
  | copy (p q : P)
  | link (p q : P)
  | free (p : P)

/-- The operation stores something at the byte. -/
def Op.Writes : Op P V → P → Nat → Prop
  | .put p o vs, q, i => q = p ∧ o ≤ i ∧ i < o + vs.length
  | .copy _ p, q, _ => q = p
  | _, _, _ => False

section Steps

variable [DecidableEq P]

/-- What each operation does to the store. -/
inductive Step : Store P V → Op P V → Store P V → Prop where
  | alloc {a : Store P V} {p : P} (n : Nat) : p ∉ a.used →
      Step a (.alloc p n) (a.set p (Cell.fresh n))
  | put {a : Store P V} {p : P} {c : Cell P V} {o : Nat} {vs : List V} : a.cell p = some c →
      o + vs.length ≤ c.room → Step a (.put p o vs) (a.set p (c.put o vs))
  | copy {a : Store P V} {p q : P} {c d : Cell P V} : a.cell p = some d → a.cell q = some c →
      Step a (.copy p q) (a.set q (c.copy d))
  | link {a : Store P V} {p q : P} {c : Cell P V} : a.cell p = some c → a.cell q ≠ none →
      Step a (.link p q) (a.set p { c with next := some q })
  | free {a : Store P V} {p : P} {ps : List P} : a.Chain (some p) ps →
      Step a (.free p) (a.drop ps)

/-- The operations of a list, one after the other. -/
inductive Steps : Store P V → List (Op P V) → Store P V → Prop where
  | nil (a : Store P V) : Steps a [] a
  | cons {a b c : Store P V} {op : Op P V} {ops : List (Op P V)} : Step a op b → Steps b ops c →
      Steps a (op :: ops) c

variable {a b c : Store P V} {p q : P} {op : Op P V} {ops ops' : List (Op P V)}

/-- A step is a run. -/
theorem Steps.one (h : Step a op b) : Steps a [op] b := .cons h (.nil b)

/-- Runs are joined. -/
theorem Steps.append (h : Steps a ops b) (h' : Steps b ops' c) : Steps a (ops ++ ops') c := by
  induction h with
  | nil => exact h'
  | cons hstep _ ih => exact .cons hstep (ih h')

/-! ## Cells after an operation -/

namespace Store

variable {x : Cell P V} {ps qs : List P}

/-- The cell that was put. -/
@[simp] theorem set_cell_self (a : Store P V) (p : P) (x : Cell P V) :
    (a.set p x).cell p = some x := Function.update_self _ _ _

/-- The cells of the other pointers stay. -/
@[simp] theorem set_cell_of_ne (h : q ≠ p) : (a.set p x).cell q = a.cell q :=
  Function.update_of_ne h _ _

/-- A cell that is not dropped stays. -/
@[simp] theorem drop_cell_of_not_mem (h : q ∉ ps) : (a.drop ps).cell q = a.cell q := if_neg h

/-- A dropped cell is gone. -/
@[simp] theorem drop_cell_of_mem (h : q ∈ ps) : (a.drop ps).cell q = none := if_pos h

/-- Dropping another pointer leaves the cell. -/
theorem drop_one_cell (hp : p ∉ ps) (hq : q ∈ ps) : (a.drop [p]).cell q = a.cell q := by
  refine drop_cell_of_not_mem (fun h => hp ?_)
  rw [← List.mem_singleton.mp h]
  exact hq

/-- What a block holds already. -/
theorem set_same (h : a.cell p = some x) : a.set p x = a := by
  ext1
  · show Function.update a.cell p (some x) = a.cell
    rw [← h]
    exact Function.update_eq_self p a.cell
  · exact Set.insert_eq_of_mem (a.cell_used p x h)

/-- Nothing is dropped. -/
@[simp] theorem drop_nil (a : Store P V) : a.drop [] = a := by
  ext1
  · funext q
    exact drop_cell_of_not_mem List.not_mem_nil
  · rfl

/-- Pointers may be dropped one by one. -/
theorem drop_cons (a : Store P V) (p : P) (ps : List P) :
    (a.drop [p]).drop ps = a.drop (p :: ps) := by
  ext1
  · funext q
    by_cases hp : q = p
    · subst hp
      have hmem : q ∈ q :: ps := List.mem_cons_self
      rw [drop_cell_of_mem hmem]
      by_cases hps : q ∈ ps
      · exact drop_cell_of_mem hps
      · rw [drop_cell_of_not_mem hps, drop_cell_of_mem (List.mem_singleton.mpr rfl)]
    · by_cases hps : q ∈ ps
      · rw [drop_cell_of_mem hps, drop_cell_of_mem (List.mem_cons_of_mem p hps)]
      · have hcons : q ∉ p :: ps := fun hq => (List.mem_cons.mp hq).elim hp hps
        rw [drop_cell_of_not_mem hps, drop_cell_of_not_mem hcons,
          drop_cell_of_not_mem (fun hq => hp (List.mem_singleton.mp hq))]
  · rfl

/-! ## Chains -/

omit [DecidableEq P] in
/-- From a null link nothing is reached. -/
theorem chain_nil (a : Store P V) : a.Chain none [] := ⟨trivial, fun _ h => nomatch h⟩

/-- A chain is its first block, and the chain from there in what is left when
    that block is freed. -/
theorem chain_cons : a.Chain (some p) (q :: ps) ↔
    q = p ∧ a.cell p ≠ none ∧ (a.drop [p]).Chain (a.next p) ps := by
  have hnext : p ∉ ps → ∀ r ∈ ps, (a.drop [p]).next r = a.next r := by
    intro hp r hr
    unfold next
    rw [drop_one_cell hp hr]
  constructor
  · rintro ⟨hlink, hlive⟩
    obtain ⟨heq, hrest⟩ := linked_cons.mp hlink
    obtain rfl := Option.some.inj heq
    obtain ⟨hp, -⟩ := List.nodup_cons.mp (linked_nodup hlink)
    refine ⟨rfl, hlive p List.mem_cons_self, (linked_congr (hnext hp)).mpr hrest, fun r hr => ?_⟩
    rw [drop_one_cell hp hr]
    exact hlive r (List.mem_cons_of_mem p hr)
  · rintro ⟨rfl, hq, hlink, hlive⟩
    have hp : q ∉ ps := fun hmem =>
      hlive q hmem (drop_cell_of_mem (List.mem_singleton.mpr rfl))
    refine ⟨linked_cons.mpr ⟨rfl, (linked_congr (hnext hp)).mp hlink⟩, fun r hr => ?_⟩
    rcases List.mem_cons.mp hr with rfl | hr
    · exact hq
    · have hr' := hlive r hr
      rw [drop_one_cell hp hr] at hr'
      exact hr'

omit [DecidableEq P] in
/-- The chain does not look at bytes, nor at blocks beside it. -/
theorem chain_congr {p : Option P}
    (hcell : ∀ q ∈ ps, (b.cell q).map Cell.next = (a.cell q).map Cell.next) :
    b.Chain p ps ↔ a.Chain p ps := by
  have hnext : ∀ q ∈ ps, b.next q = a.next q := by
    intro q hq
    have hq := hcell q hq
    unfold next
    cases hb : b.cell q with
    | none =>
        rw [hb] at hq
        rw [Option.map_eq_none_iff.mp hq.symm]
    | some y =>
        rw [hb] at hq
        obtain ⟨x, ha, hx⟩ := Option.map_eq_some_iff.mp hq.symm
        rw [ha]
        exact hx.symm
  unfold Chain
  rw [linked_congr hnext]
  refine and_congr_right (fun _ => forall₂_congr (fun q hq => not_congr ?_))
  rw [← Option.map_eq_none_iff (f := Cell.next), hcell q hq, Option.map_eq_none_iff]

end Store

/-! ## Runs -/

/-- A used pointer stays used. -/
theorem Step.used (h : Step a op b) : a.used ⊆ b.used := by
  cases h with
  | alloc => exact Set.subset_insert _ _
  | put => exact Set.subset_insert _ _
  | copy => exact Set.subset_insert _ _
  | link => exact Set.subset_insert _ _
  | free => exact subset_rfl

/-- A used pointer is not given again. -/
theorem Steps.alloc_unused (h : Steps a ops b) (hp : p ∈ a.used) (n : Nat) :
    Op.alloc p n ∉ ops := by
  induction h with
  | nil => exact List.not_mem_nil
  | cons hstep _ ih =>
      intro hmem
      rcases List.mem_cons.mp hmem with rfl | hmem
      · cases hstep with
        | alloc n hfresh => exact hfresh hp
      · exact ih (hstep.used hp) hmem

/-- A pointer that is used and leads nowhere stays so. -/
theorem Step.gone (h : Step a op b) (hp : p ∈ a.used) (hnone : a.cell p = none) :
    b.cell p = none := by
  have hset : ∀ {q : P} {x y : Cell P V}, a.cell q = some x → (a.set q y).cell p = none := by
    intro q x y hq
    rw [Store.set_cell_of_ne (fun heq => by rw [heq, hq] at hnone; cases hnone)]
    exact hnone
  cases h with
  | alloc n hfresh =>
      rw [Store.set_cell_of_ne (fun heq => hfresh (by rw [← heq]; exact hp))]
      exact hnone
  | put hcell => exact hset hcell
  | copy _ hcell => exact hset hcell
  | link hcell => exact hset hcell
  | @free _ ps _ =>
      by_cases hmem : p ∈ ps
      · exact Store.drop_cell_of_mem hmem
      · rw [Store.drop_cell_of_not_mem hmem]
        exact hnone

/-- A pointer whose cell is gone stays without one: it is not given again. -/
theorem Steps.gone (h : Steps a ops b) (hp : p ∈ a.used) (hnone : a.cell p = none) :
    b.cell p = none := by
  induction h with
  | nil => exact hnone
  | cons hstep _ ih => exact ih (hstep.used hp) (hstep.gone hp hnone)

/-- A block that is there after a run, and had its pointer before, was there. -/
theorem Steps.live (h : Steps a ops b) (hp : p ∈ a.used) (hlive : b.cell p ≠ none) :
    a.cell p ≠ none :=
  fun hnone => hlive (h.gone hp hnone)

/-- A block keeps its room, and a byte that nothing is stored at. -/
theorem Step.kept (h : Step a op b) {x y : Cell P V} {i : Nat} (hx : a.cell p = some x)
    (hop : ¬ op.Writes p i) (hy : b.cell p = some y) :
    y.room = x.room ∧ y.bytes i = x.bytes i := by
  have hsame : ∀ {q : P} {z : Cell P V}, q ≠ p → (a.set q z).cell p = some y → y = x := by
    intro q z hne hcell
    rw [Store.set_cell_of_ne hne.symm, hx] at hcell
    exact (Option.some.inj hcell).symm
  have hnew : ∀ {z : Cell P V}, (a.set p z).cell p = some y → y = z := by
    intro z hcell
    rw [Store.set_cell_self] at hcell
    exact (Option.some.inj hcell).symm
  cases h with
  | @alloc q n hfresh =>
      by_cases hq : q = p
      · subst hq
        exact absurd (a.cell_used q x hx) hfresh
      · rw [hsame hq hy]
        exact ⟨rfl, rfl⟩
  | @put q c o vs hcell hfits =>
      by_cases hq : q = p
      · subst hq
        rw [hx] at hcell
        obtain rfl := Option.some.inj hcell
        rw [hnew hy]
        exact ⟨rfl, if_neg (fun hin => hop ⟨rfl, hin⟩)⟩
      · rw [hsame hq hy]
        exact ⟨rfl, rfl⟩
  | @copy r q c d _ hcell =>
      by_cases hq : q = p
      · exact absurd hq.symm hop
      · rw [hsame hq hy]
        exact ⟨rfl, rfl⟩
  | @link q r c hcell _ =>
      by_cases hq : q = p
      · subst hq
        rw [hx] at hcell
        obtain rfl := Option.some.inj hcell
        rw [hnew hy]
        exact ⟨rfl, rfl⟩
      · rw [hsame hq hy]
        exact ⟨rfl, rfl⟩
  | @free q ps _ =>
      by_cases hmem : p ∈ ps
      · rw [Store.drop_cell_of_mem hmem] at hy
        cases hy
      · rw [Store.drop_cell_of_not_mem hmem, hx] at hy
        obtain rfl := Option.some.inj hy
        exact ⟨rfl, rfl⟩

/-- A byte stays as long as nothing is stored in its place and its block is not
    freed.  The induction is on the run; that the block is there after a step
    follows from its being there at the end. -/
theorem Steps.kept (h : Steps a ops b) {x y : Cell P V} {i : Nat} (hx : a.cell p = some x)
    (hops : ∀ op ∈ ops, ¬ op.Writes p i) (hy : b.cell p = some y) :
    y.room = x.room ∧ y.bytes i = x.bytes i := by
  induction h generalizing x with
  | nil =>
      rw [hx] at hy
      obtain rfl := Option.some.inj hy
      exact ⟨rfl, rfl⟩
  | @cons a₁ a₂ a₃ op ops hstep hrest ih =>
      have hp := hstep.used (a₁.cell_used p x hx)
      have hlive := hrest.live hp (by rw [hy]; exact Option.some_ne_none y)
      obtain ⟨z, hz⟩ := Option.ne_none_iff_exists'.mp hlive
      obtain ⟨hroom, hbyte⟩ := hstep.kept hx (hops op List.mem_cons_self) hz
      obtain ⟨hroom', hbyte'⟩ := ih hz (fun op hop => hops op (List.mem_cons_of_mem _ hop)) hy
      exact ⟨hroom'.trans hroom, hbyte'.trans hbyte⟩

omit [DecidableEq P] in
/-- Bytes that are stored are there. -/
theorem Cell.put_bytes (c : Cell P V) {o k : Nat} {vs : List V} (hk : k < vs.length) :
    (c.put o vs).bytes (o + k) = some vs[k] := by
  have hin : o ≤ o + k ∧ o + k < o + vs.length := ⟨Nat.le_add_right o k, by omega⟩
  show (if o ≤ o + k ∧ o + k < o + vs.length then vs[o + k - o]? else c.bytes (o + k)) = _
  rw [if_pos hin, Nat.add_sub_cancel_left]
  exact List.getElem?_eq_getElem hk

end Steps

end BlockStore
