/-! # Radix tables in memory

    A radix table of `lvl + 1` levels lives in a memory that maps a table
    (a frame number) and an index to an entry.  `kind` decodes an entry of a
    level: it is absent, links to a table of the level below, or is a leaf.
    The key of a lookup is the list of its indices, outermost first.

    Two results carry the proofs about a concrete table format:

    * an update of one entry is seen only by the keys that run through it,
      and in an unshared tree these are the keys below one prefix
      (`walk_store_leaf`, `walk_store_absent`);
    * linking a fresh empty table changes no lookup (`walk_store_link`). -/

namespace RadixTable

variable {I E : Type}

/-- What an entry says. -/
inductive Kind where
  | absent
  | link (f : Nat)
  | leaf
deriving DecidableEq

/-- The table reached from table `f` of level `lvl` along a list of
    indices. -/
def tableAt (kind : Nat → E → Kind) (mem : Nat → I → E) :
    Nat → Nat → List I → Option Nat
  | _, f, [] => some f
  | 0, _, _ :: _ => none
  | lvl + 1, f, i :: p =>
      match kind (lvl + 1) (mem f i) with
      | .link g => tableAt kind mem lvl g p
      | _ => none

/-- The leaf a key leads to, with the level it is found at. -/
def walk (kind : Nat → E → Kind) (mem : Nat → I → E) :
    Nat → Nat → List I → Option (Nat × E)
  | _, _, [] => none
  | 0, f, i :: _ =>
      match kind 0 (mem f i) with
      | .leaf => some (0, mem f i)
      | _ => none
  | lvl + 1, f, i :: p =>
      match kind (lvl + 1) (mem f i) with
      | .absent => none
      | .leaf => some (lvl + 1, mem f i)
      | .link g => walk kind mem lvl g p

/-- No table is reached along two different paths. -/
def Unshared (kind : Nat → E → Kind) (mem : Nat → I → E) (lvl root : Nat) :
    Prop :=
  ∀ p q g, tableAt kind mem lvl root p = some g →
    tableAt kind mem lvl root q = some g → p = q

/-- Two memories agree on every entry that the key `q` runs through. -/
def AgreeAlong (kind : Nat → E → Kind) (mem mem' : Nat → I → E)
    (lvl f : Nat) (q : List I) : Prop :=
  ∀ p i r g, q = p ++ i :: r → tableAt kind mem lvl f p = some g →
    mem' g i = mem g i

variable {kind : Nat → E → Kind} {mem mem' : Nat → I → E}

/-- No index leads away from the table. -/
@[simp] theorem tableAt_nil (lvl f : Nat) :
    tableAt kind mem lvl f [] = some f := by
  cases lvl <;> rfl

/-- A link leads to the next table. -/
theorem tableAt_cons_link {lvl f g : Nat} {i : I} {p : List I}
    (h : kind (lvl + 1) (mem f i) = .link g) :
    tableAt kind mem (lvl + 1) f (i :: p) = tableAt kind mem lvl g p := by
  simp only [tableAt, h]

/-- A path that leads to a table starts with a link. -/
theorem tableAt_cons_some {lvl f g : Nat} {i : I} {p : List I}
    (h : tableAt kind mem (lvl + 1) f (i :: p) = some g) :
    ∃ f', kind (lvl + 1) (mem f i) = .link f' ∧
      tableAt kind mem lvl f' p = some g := by
  simp only [tableAt] at h
  cases hk : kind (lvl + 1) (mem f i) with
  | absent => rw [hk] at h; cases h
  | leaf => rw [hk] at h; cases h
  | link f' => rw [hk] at h; exact ⟨f', rfl, h⟩

/-- A path that goes on from a table. -/
theorem tableAt_append {lvl f g : Nat} {p q : List I}
    (h : tableAt kind mem lvl f p = some g) :
    tableAt kind mem lvl f (p ++ q)
      = tableAt kind mem (lvl - p.length) g q := by
  induction p generalizing lvl f with
  | nil =>
      rw [tableAt_nil] at h
      rw [Option.some.inj h]
      rfl
  | cons i p ih =>
      cases lvl with
      | zero => cases h
      | succ lvl =>
          obtain ⟨f', hk, h'⟩ := tableAt_cons_some h
          rw [List.cons_append, tableAt_cons_link hk, ih h']
          have hl : lvl + 1 - (i :: p).length = lvl - p.length := by
            rw [List.length_cons]; omega
          rw [hl]

/-- The last index of a path to a table is a link of the table before. -/
theorem tableAt_concat {lvl f g k : Nat} {p : List I} {i : I}
    (hp : tableAt kind mem lvl f p = some g) (hk : lvl - p.length = k + 1) :
    tableAt kind mem lvl f (p ++ [i])
      = match kind (k + 1) (mem g i) with
        | .link h => some h
        | _ => none := by
  rw [tableAt_append hp, hk]
  simp only [tableAt]

/-- Every path to a table goes through tables. -/
theorem tableAt_prefix {lvl f g : Nat} {p q : List I}
    (h : tableAt kind mem lvl f (p ++ q) = some g) :
    ∃ g', tableAt kind mem lvl f p = some g' := by
  induction p generalizing lvl f with
  | nil => exact ⟨f, tableAt_nil lvl f⟩
  | cons i p ih =>
      cases lvl with
      | zero => cases h
      | succ lvl =>
          obtain ⟨f', hk, h'⟩ := tableAt_cons_some h
          obtain ⟨g', hg'⟩ := ih h'
          exact ⟨g', by rw [tableAt_cons_link hk]; exact hg'⟩

/-- A walk that goes on from a table. -/
theorem walk_append {lvl f g : Nat} {p q : List I}
    (h : tableAt kind mem lvl f p = some g) :
    walk kind mem lvl f (p ++ q) = walk kind mem (lvl - p.length) g q := by
  induction p generalizing lvl f with
  | nil =>
      rw [tableAt_nil] at h
      rw [Option.some.inj h]
      rfl
  | cons i p ih =>
      cases lvl with
      | zero => cases h
      | succ lvl =>
          obtain ⟨f', hk, h'⟩ := tableAt_cons_some h
          have hl : lvl + 1 - (i :: p).length = lvl - p.length := by
            rw [List.length_cons]; omega
          rw [hl, ← ih h']
          show walk kind mem (lvl + 1) f (i :: (p ++ q)) = _
          simp only [walk, hk]

/-- A key that runs through a leaf finds it. -/
theorem walk_leaf {lvl root f : Nat} {p q : List I} {i : I}
    (hp : tableAt kind mem lvl root p = some f)
    (he : kind (lvl - p.length) (mem f i) = .leaf) (hq : (p ++ [i]) <+: q) :
    walk kind mem lvl root q = some (lvl - p.length, mem f i) := by
  obtain ⟨r, hr⟩ := hq
  have hq' : q = p ++ i :: r := by rw [← hr, List.append_assoc]; rfl
  rw [hq', walk_append hp]
  cases hl : lvl - p.length with
  | zero =>
      rw [hl] at he
      simp only [walk, he]
  | succ k =>
      rw [hl] at he
      simp only [walk, he]

/-- A key that runs into an absent entry finds nothing. -/
theorem walk_absent {lvl root f : Nat} {p q : List I} {i : I}
    (hp : tableAt kind mem lvl root p = some f)
    (he : kind (lvl - p.length) (mem f i) = .absent) (hq : (p ++ [i]) <+: q) :
    walk kind mem lvl root q = none := by
  obtain ⟨r, hr⟩ := hq
  have hq' : q = p ++ i :: r := by rw [← hr, List.append_assoc]; rfl
  rw [hq', walk_append hp]
  cases hl : lvl - p.length with
  | zero =>
      rw [hl] at he
      simp only [walk, he]
  | succ k =>
      rw [hl] at he
      simp only [walk, he]

/-! ## The entries that a lookup reads -/

/-- The entries that a walk reads, outermost first. -/
def trail (kind : Nat → E → Kind) (mem : Nat → I → E) : Nat → Nat → List I → List E
  | _, _, [] => []
  | 0, f, i :: _ => [mem f i]
  | lvl + 1, f, i :: p =>
      match kind (lvl + 1) (mem f i) with
      | .link g => mem f i :: trail kind mem lvl g p
      | _ => [mem f i]

/-- A walk that finds a leaf has read links of tables and the leaf, one entry
    a level. -/
theorem trail_of_walk {lvl root k : Nat} {q : List I} {e : E}
    (h : walk kind mem lvl root q = some (k, e)) :
    ∃ links, trail kind mem lvl root q = links ++ [e] ∧ k + links.length = lvl ∧
      kind k e = .leaf ∧
      ∀ l ∈ links, ∃ p f i j g, tableAt kind mem lvl root p = some f ∧
        lvl - p.length = j + 1 ∧ mem f i = l ∧ kind (j + 1) l = .link g := by
  induction q generalizing lvl root with
  | nil => cases lvl <;> cases h
  | cons i q ih =>
      cases lvl with
      | zero =>
          simp only [walk] at h
          cases hk : kind 0 (mem root i) with
          | absent => rw [hk] at h; cases h
          | link g => rw [hk] at h; cases h
          | leaf =>
              rw [hk] at h
              cases h
              exact ⟨[], rfl, rfl, hk, fun l hl => absurd hl List.not_mem_nil⟩
      | succ lvl =>
          simp only [walk] at h
          simp only [trail]
          cases hk : kind (lvl + 1) (mem root i) with
          | absent => rw [hk] at h; cases h
          | leaf =>
              rw [hk] at h
              cases h
              exact ⟨[], rfl, rfl, hk, fun l hl => absurd hl List.not_mem_nil⟩
          | link g =>
              rw [hk] at h
              obtain ⟨links, htrail, hlen, hleaf, hlinks⟩ := ih h
              refine ⟨mem root i :: links, congrArg (mem root i :: ·) htrail, ?_, hleaf, ?_⟩
              · rw [List.length_cons]
                omega
              · intro l hl
                rcases List.mem_cons.mp hl with rfl | hl
                · exact ⟨[], root, i, lvl, g, tableAt_nil _ _, rfl, rfl, hk⟩
                · obtain ⟨p, f, j, n, g', hp, hn, hj, hl⟩ := hlinks l hl
                  refine ⟨i :: p, f, j, n, g', ?_, ?_, hj, hl⟩
                  · rw [tableAt_cons_link hk]
                    exact hp
                  · rw [List.length_cons]
                    omega

/-! ## Memories that agree along a key -/

/-- The memories agree along the rest of the key. -/
theorem AgreeAlong.tail {lvl f f' : Nat} {i : I} {q : List I}
    (h : AgreeAlong kind mem mem' (lvl + 1) f (i :: q))
    (hk : kind (lvl + 1) (mem f i) = .link f') :
    AgreeAlong kind mem mem' lvl f' q := by
  intro p j r g hq hp
  refine h (i :: p) j r g ?_ ?_
  · rw [hq]; rfl
  · rw [tableAt_cons_link hk]; exact hp

/-- They agree on the first entry. -/
theorem AgreeAlong.head {lvl f : Nat} {i : I} {q : List I}
    (h : AgreeAlong kind mem mem' lvl f (i :: q)) : mem' f i = mem f i :=
  h [] i q f rfl (tableAt_nil lvl f)

/-- The key leads to the same table. -/
theorem tableAt_congr {lvl f : Nat} {q : List I}
    (h : AgreeAlong kind mem mem' lvl f q) :
    tableAt kind mem' lvl f q = tableAt kind mem lvl f q := by
  induction q generalizing lvl f with
  | nil => rw [tableAt_nil, tableAt_nil]
  | cons i q ih =>
      cases lvl with
      | zero => rfl
      | succ lvl =>
          simp only [tableAt, h.head]
          cases hk : kind (lvl + 1) (mem f i) with
          | absent => rfl
          | leaf => rfl
          | link f' => exact ih (h.tail hk)

/-- The walk ends at the same entry. -/
theorem walk_congr {lvl f : Nat} {q : List I}
    (h : AgreeAlong kind mem mem' lvl f q) :
    walk kind mem' lvl f q = walk kind mem lvl f q := by
  induction q generalizing lvl f with
  | nil => cases lvl <;> rfl
  | cons i q ih =>
      cases lvl with
      | zero => simp only [walk, h.head]
      | succ lvl =>
          simp only [walk, h.head]
          cases hk : kind (lvl + 1) (mem f i) with
          | absent => rfl
          | leaf => rfl
          | link f' => exact ih (h.tail hk)

/-- A change outside the tables of the tree is seen by no key. -/
theorem agreeAlong_of_outside {lvl root : Nat} {q : List I}
    (h : ∀ p g, tableAt kind mem lvl root p = some g →
      ∀ i, mem' g i = mem g i) :
    AgreeAlong kind mem mem' lvl root q := by
  intro p i r g _ hp
  exact h p g hp i

/-- A path is no extension of a longer one. -/
theorem not_prefix_of_concat (p : List I) (i : I) : ¬ (p ++ [i]) <+: p := by
  intro h
  have := h.length_le
  rw [List.length_append, List.length_singleton] at this
  omega

/-- What the tree needs to know about a table before it is linked: it is
    empty, and no path leads to it. -/
structure Fresh (kind : Nat → E → Kind) (mem : Nat → I → E)
    (lvl root k g : Nat) : Prop where
  unreached : ∀ q, tableAt kind mem lvl root q ≠ some g
  empty : ∀ j, kind k (mem g j) = .absent

/-- The fresh table is not one of the tree. -/
theorem Fresh.ne {lvl root k f g : Nat} {p : List I}
    (hg : Fresh kind mem lvl root k g)
    (hp : tableAt kind mem lvl root p = some f) : g ≠ f := by
  intro h
  exact hg.unreached p (by rw [h]; exact hp)

/-! ## Storing one entry -/

variable [DecidableEq I]

/-- Memory with the entry `i` of table `f` replaced. -/
def store (mem : Nat → I → E) (f : Nat) (i : I) (e : E) : Nat → I → E :=
  fun f' i' => if f' = f ∧ i' = i then e else mem f' i'

/-- The entry that was stored. -/
@[simp] theorem store_self (mem : Nat → I → E) (f : Nat) (i : I) (e : E) :
    store mem f i e f i = e :=
  if_pos ⟨rfl, rfl⟩

/-- The other tables stay. -/
theorem store_of_ne_table {f f' : Nat} {i i' : I} {e : E} (h : f' ≠ f) :
    store mem f i e f' i' = mem f' i' :=
  if_neg (fun hc => h hc.1)

variable {lvl root f : Nat} {p q : List I} {i : I} {e : E}

/-- In an unshared tree a store is seen only below its own prefix. -/
theorem agreeAlong_store (hun : Unshared kind mem lvl root)
    (hp : tableAt kind mem lvl root p = some f)
    (hq : ¬ (p ++ [i]) <+: q) :
    AgreeAlong kind mem (store mem f i e) lvl root q := by
  intro p' i' r g hsplit hp'
  unfold store
  by_cases hhit : g = f ∧ i' = i
  · exfalso
    obtain ⟨hg, hi⟩ := hhit
    subst hg
    subst hi
    have hpp : p = p' := hun p p' g hp hp'
    apply hq
    refine ⟨r, ?_⟩
    rw [hsplit, hpp, List.append_assoc]
    rfl
  · rw [if_neg hhit]

/-- Tables are found as before where the path does not pass the entry. -/
theorem tableAt_store_ne (hun : Unshared kind mem lvl root)
    (hp : tableAt kind mem lvl root p = some f) (hq : ¬ (p ++ [i]) <+: q) :
    tableAt kind (store mem f i e) lvl root q = tableAt kind mem lvl root q :=
  tableAt_congr (agreeAlong_store hun hp hq)

/-- So are leaves. -/
theorem walk_store_ne (hun : Unshared kind mem lvl root)
    (hp : tableAt kind mem lvl root p = some f) (hq : ¬ (p ++ [i]) <+: q) :
    walk kind (store mem f i e) lvl root q = walk kind mem lvl root q :=
  walk_congr (agreeAlong_store hun hp hq)

/-- The table that was written is still reached along its path. -/
theorem tableAt_store_self (hun : Unshared kind mem lvl root)
    (hp : tableAt kind mem lvl root p = some f) :
    tableAt kind (store mem f i e) lvl root p = some f := by
  rw [tableAt_store_ne hun hp (not_prefix_of_concat p i)]
  exact hp

/-- Below a stored leaf every key finds that leaf. -/
theorem walk_store_leaf_below (hun : Unshared kind mem lvl root)
    (hp : tableAt kind mem lvl root p = some f)
    (he : kind (lvl - p.length) e = .leaf) (hq : (p ++ [i]) <+: q) :
    walk kind (store mem f i e) lvl root q = some (lvl - p.length, e) := by
  have hself := tableAt_store_self (i := i) (e := e) hun hp
  have hleaf : kind (lvl - p.length) (store mem f i e f i) = .leaf := by
    rw [store_self]; exact he
  rw [walk_leaf hself hleaf hq, store_self]

/-- Below an entry that was made absent no key finds anything. -/
theorem walk_store_absent_below (hun : Unshared kind mem lvl root)
    (hp : tableAt kind mem lvl root p = some f)
    (he : kind (lvl - p.length) e = .absent) (hq : (p ++ [i]) <+: q) :
    walk kind (store mem f i e) lvl root q = none := by
  have hself := tableAt_store_self (i := i) (e := e) hun hp
  have habs : kind (lvl - p.length) (store mem f i e f i) = .absent := by
    rw [store_self]; exact he
  exact walk_absent hself habs hq

/-- Storing a leaf: the keys below the prefix find it, the others see no
    change. -/
theorem walk_store_leaf (hun : Unshared kind mem lvl root)
    (hp : tableAt kind mem lvl root p = some f)
    (he : kind (lvl - p.length) e = .leaf) :
    walk kind (store mem f i e) lvl root q
      = if (p ++ [i]) <+: q then some (lvl - p.length, e)
        else walk kind mem lvl root q := by
  by_cases hq : (p ++ [i]) <+: q
  · rw [if_pos hq]
    exact walk_store_leaf_below hun hp he hq
  · rw [if_neg hq]
    exact walk_store_ne hun hp hq

/-- Storing an absent entry: the keys below the prefix find nothing, the
    others see no change. -/
theorem walk_store_absent (hun : Unshared kind mem lvl root)
    (hp : tableAt kind mem lvl root p = some f)
    (he : kind (lvl - p.length) e = .absent) :
    walk kind (store mem f i e) lvl root q
      = if (p ++ [i]) <+: q then none else walk kind mem lvl root q := by
  by_cases hq : (p ++ [i]) <+: q
  · rw [if_pos hq]
    exact walk_store_absent_below hun hp he hq
  · rw [if_neg hq]
    exact walk_store_ne hun hp hq

/-- Below an entry that is no link there is no table. -/
theorem tableAt_store_below (hun : Unshared kind mem lvl root)
    (hp : tableAt kind mem lvl root p = some f)
    (he : ∀ g, kind (lvl - p.length) e ≠ .link g) (hq : (p ++ [i]) <+: q) :
    tableAt kind (store mem f i e) lvl root q = none := by
  obtain ⟨r, hr⟩ := hq
  have hq' : q = p ++ i :: r := by rw [← hr, List.append_assoc]; rfl
  rw [hq', tableAt_append (tableAt_store_self hun hp)]
  cases hl : lvl - p.length with
  | zero => rfl
  | succ k =>
      rw [hl] at he
      simp only [tableAt, store_self]

/-- A table of the tree after a leaf or an absent entry was stored was a
    table before, reached along the same path. -/
theorem tableAt_of_store (hun : Unshared kind mem lvl root)
    (hp : tableAt kind mem lvl root p = some f)
    (he : ∀ g, kind (lvl - p.length) e ≠ .link g) {g : Nat}
    (hq : tableAt kind (store mem f i e) lvl root q = some g) :
    tableAt kind mem lvl root q = some g := by
  by_cases hpre : (p ++ [i]) <+: q
  · rw [tableAt_store_below hun hp he hpre] at hq
    cases hq
  · rw [tableAt_store_ne hun hp hpre] at hq
    exact hq

/-- An entry that is no link shares no table. -/
theorem unshared_store (hun : Unshared kind mem lvl root)
    (hp : tableAt kind mem lvl root p = some f)
    (he : ∀ g, kind (lvl - p.length) e ≠ .link g) :
    Unshared kind (store mem f i e) lvl root := by
  intro q q' g hq hq'
  exact hun q q' g (tableAt_of_store hun hp he hq)
    (tableAt_of_store hun hp he hq')

/-! ## Linking a fresh table -/

section Link

variable {g k : Nat}

variable (hun : Unshared kind mem lvl root)
  (hp : tableAt kind mem lvl root p = some f)
  (hlvl : lvl - p.length = k + 1)

include hun hp hlvl

/-- Tables that were there stay where they are. -/
theorem tableAt_store_link_old (habs : kind (k + 1) (mem f i) = .absent)
    {q : List I} {h : Nat} (hq : tableAt kind mem lvl root q = some h) :
    tableAt kind (store mem f i e) lvl root q = some h := by
  by_cases hpre : (p ++ [i]) <+: q
  · exfalso
    obtain ⟨r, hr⟩ := hpre
    rw [← hr, List.append_assoc, tableAt_append hp, hlvl] at hq
    obtain ⟨f', hlink, -⟩ := tableAt_cons_some hq
    rw [habs] at hlink
    cases hlink
  · rw [tableAt_store_ne hun hp hpre]
    exact hq

variable (he : kind (k + 1) e = .link g)

include he

/-- The table that was linked is found there. -/
theorem tableAt_store_link_self :
    tableAt kind (store mem f i e) lvl root (p ++ [i]) = some g := by
  rw [tableAt_concat (tableAt_store_self hun hp) hlvl, store_self, he]

variable (hg : Fresh kind mem lvl root k g)

include hg

/-- Below the new link there is the fresh table and nothing else. -/
theorem tableAt_store_link_below {q : List I} (hq : (p ++ [i]) <+: q)
    {h : Nat} (hqt : tableAt kind (store mem f i e) lvl root q = some h) :
    q = p ++ [i] ∧ h = g := by
  obtain ⟨r, hr⟩ := hq
  have hself := tableAt_store_link_self (i := i) hun hp hlvl he
  rw [← hr, tableAt_append hself] at hqt
  have hlen : lvl - (p ++ [i]).length = k := by
    rw [List.length_append, List.length_singleton]; omega
  rw [hlen] at hqt
  cases r with
  | nil =>
      rw [tableAt_nil] at hqt
      exact ⟨by rw [← hr, List.append_nil], (Option.some.inj hqt).symm⟩
  | cons j r =>
      cases hk : k with
      | zero => rw [hk] at hqt; cases hqt
      | succ k' =>
          rw [hk] at hqt
          obtain ⟨f', hlink, -⟩ := tableAt_cons_some hqt
          rw [store_of_ne_table (hg.ne hp), ← hk,
            hg.empty j] at hlink
          cases hlink

/-- A table of the tree after the link is the fresh one or was there
    before. -/
theorem tableAt_of_store_link {q : List I} {h : Nat}
    (hqt : tableAt kind (store mem f i e) lvl root q = some h) :
    (q = p ++ [i] ∧ h = g) ∨ tableAt kind mem lvl root q = some h := by
  by_cases hq : (p ++ [i]) <+: q
  · exact Or.inl (tableAt_store_link_below hun hp hlvl he hg hq hqt)
  · right
    rw [tableAt_store_ne hun hp hq] at hqt
    exact hqt

/-- A fresh table that is linked once is shared nowhere. -/
theorem unshared_store_link : Unshared kind (store mem f i e) lvl root := by
  intro q q' h hq hq'
  rcases tableAt_of_store_link hun hp hlvl he hg hq with ⟨h1, h2⟩ | h1
  · rcases tableAt_of_store_link hun hp hlvl he hg hq' with ⟨h3, -⟩ | h3
    · rw [h1, h3]
    · rw [h2] at h3
      exact absurd h3 (hg.unreached q')
  · rcases tableAt_of_store_link hun hp hlvl he hg hq' with ⟨-, h4⟩ | h3
    · rw [h4] at h1
      exact absurd h1 (hg.unreached q)
    · exact hun q q' h h1 h3

/-- Linking an empty table in place of an absent entry changes no lookup. -/
theorem walk_store_link (habs : kind (k + 1) (mem f i) = .absent) :
    walk kind (store mem f i e) lvl root q = walk kind mem lvl root q := by
  by_cases hq : (p ++ [i]) <+: q
  · obtain ⟨r, hr⟩ := hq
    have hq' : q = p ++ i :: r := by rw [← hr, List.append_assoc]; rfl
    have hne := hg.ne hp
    rw [hq', walk_append (tableAt_store_self hun hp), walk_append hp, hlvl]
    simp only [walk, store_self, he, habs]
    -- the fresh table holds no entry, whatever the rest of the key
    cases r with
    | nil => cases k <;> rfl
    | cons j r =>
        have hj := hg.empty j
        cases k with
        | zero => simp only [walk, store_of_ne_table hne, hj]
        | succ k => simp only [walk, store_of_ne_table hne, hj]
  · exact walk_store_ne hun hp hq

end Link

end RadixTable
