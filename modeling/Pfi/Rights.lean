import Pfi.PagerRange

/-! # The rights of a translation

    The processor derives the rights of an access from every entry that its
    walk reads: a page is writable, or a user's, when all of them say so, and
    not executable when one of them says so.  The pager writes the entries
    above a leaf without looking at the flags of the mapping: they are present
    and writable and nothing else.  So on its tables the walk gives the rights
    of the leaf, except that no page is a user's (`TablesOk.hwAccess`); and a
    leaf holds the low 12 bits of the flags only, so that no page of a range
    is without execution either (`linkedAccess_rangeLeaf`). -/

namespace Pfi

open Words RadixTable

abbrev pageXd : Nat := 0x8000000000000000
abbrev pagePat : Nat := 0x80

/-! ## The rights that a walk gives -/

/-- The outcome of an access: its physical address, the rights over the whole
    walk, and what the leaf says of caching. -/
structure Access where
  address : Nat
  writable : Bool
  user : Bool
  noExecute : Bool
  global : Bool
  memoryType : Nat
deriving Repr, DecidableEq

/-- The index that a leaf gives into the page attribute table.  Its high bit
    is bit 7 of the entry of a 4 KiB page and bit 12 of that of a 2 MiB
    page. -/
def leafMemoryType (leaf : Nat × Nat) : Nat :=
  leaf.2 / 8 % 2 + 2 * (leaf.2 / 16 % 2)
    + 4 * (if leaf.1 = 0 then leaf.2 / 128 % 2 else leaf.2 / 4096 % 2)

/-- The entries that the processor reads to translate page number `n`. -/
def walkEntries (mem : Nat → Fin 512 → Nat) (root n : Nat) : List Nat :=
  trail x86Kind mem 3 root (pagePath n)

/-- The access to address `a` by the tables under frame `root`. -/
def hwAccess (mem : Nat → Fin 512 → Nat) (root a : Nat) : Option Access :=
  (walkPage mem root (a / pageSize)).map (fun leaf =>
    { address := leafAddress leaf.1 leaf.2 a
      writable := (walkEntries mem root (a / pageSize)).all (fun e => decide (e &&& pageRw ≠ 0))
      user := (walkEntries mem root (a / pageSize)).all (fun e => decide (e &&& pageUser ≠ 0))
      noExecute := (walkEntries mem root (a / pageSize)).any (fun e => decide (e &&& pageXd ≠ 0))
      global := decide (leaf.2 &&& pageGlobal ≠ 0)
      memoryType := leafMemoryType leaf })

/-! ## The links of the pager's tables -/

/-- The bit for writing. -/
theorem and_rw_ne (e : Nat) : e &&& pageRw ≠ 0 ↔ e / 2 % 2 = 1 := and_bit_ne e 1

/-- The bit for the user. -/
theorem and_user_ne (e : Nat) : e &&& pageUser ≠ 0 ↔ e / 4 % 2 = 1 := and_bit_ne e 2

/-- The bit of a global page. -/
theorem and_global_ne (e : Nat) : e &&& pageGlobal ≠ 0 ↔ e / 256 % 2 = 1 := and_bit_ne e 8

/-- The bit that forbids execution. -/
theorem and_xd_ne (e : Nat) : e &&& pageXd ≠ 0 ↔ e / 2 ^ 63 % 2 = 1 := and_bit_ne e 63

/-- A link is writable, not a user's, and leaves execution alone. -/
theorem linkEntry_rights {g : Nat} (hg : g < bitmapSize) :
    linkEntry g &&& pageRw ≠ 0 ∧ ¬ linkEntry g &&& pageUser ≠ 0 ∧
      ¬ linkEntry g &&& pageXd ≠ 0 := by
  have hsize : bitmapSize ≤ 2 ^ 40 := by decide
  rw [and_rw_ne, and_user_ne, and_xd_ne]
  unfold linkEntry
  refine ⟨?_, ?_, ?_⟩ <;> omega

/-- What a leaf gives below such links. -/
def linkedAccess (a : Nat) (leaf : Nat × Nat) : Access :=
  { address := leafAddress leaf.1 leaf.2 a
    writable := decide (leaf.2 &&& pageRw ≠ 0)
    user := false
    noExecute := decide (leaf.2 &&& pageXd ≠ 0)
    global := decide (leaf.2 &&& pageGlobal ≠ 0)
    memoryType := leafMemoryType leaf }

/-- The walk of a page has read links and the leaf, and at least one link:
    the PML4 holds no leaf. -/
theorem TablesOk.walkEntries {m : Machine} (hok : TablesOk m) {n : Nat} {leaf : Nat × Nat}
    (h : walkPage m.mem m.root n = some leaf) :
    ∃ links, Pfi.walkEntries m.mem m.root n = links ++ [leaf.2] ∧ links ≠ [] ∧
      ∀ l ∈ links, ∃ g, g < bitmapSize ∧ l = linkEntry g := by
  obtain ⟨k, e⟩ := leaf
  obtain ⟨links, htrail, hlen, hleaf, hlinks⟩ := trail_of_walk h
  refine ⟨links, htrail, ?_, ?_⟩
  · -- with no link the leaf would be one of the PML4
    rintro rfl
    rw [show k = 3 from hlen] at hleaf
    unfold x86Kind at hleaf
    by_cases hp : e &&& pagePresent = 0
    · rw [if_pos hp] at hleaf
      cases hleaf
    · rw [if_neg hp, if_neg (by decide), if_neg (fun hc => absurd hc.1 (by decide))] at hleaf
      cases hleaf
  · intro l hl
    obtain ⟨p, f, i, j, g, hp, hj, hi, hkind⟩ := hlinks l hl
    have hodd : m.mem f i % 2 = 1 := by
      by_contra hc
      rw [← hi, x86Kind_absent.mpr (by omega)] at hkind
      cases hkind
    rcases hok.entries p f i hp (by omega) hodd with ⟨hlvl, hbit⟩ | ⟨g', hg', hentry⟩
    · rw [← hi, show j + 1 = 1 by omega, x86Kind_huge hodd hbit] at hkind
      cases hkind
    · exact ⟨g', hg', by rw [← hi, hentry]⟩

/-- On the pager's tables the leaf alone decides, and no page is a user's. -/
theorem TablesOk.hwAccess {m : Machine} (hok : TablesOk m) (a : Nat) :
    Pfi.hwAccess m.mem m.root a
      = (walkPage m.mem m.root (a / pageSize)).map (linkedAccess a) := by
  unfold Pfi.hwAccess
  cases hwalk : walkPage m.mem m.root (a / pageSize) with
  | none => rfl
  | some leaf =>
      obtain ⟨links, htrail, hne, hlinks⟩ := hok.walkEntries hwalk
      have hright : ∀ l ∈ links, (decide (l &&& pageRw ≠ 0) = true ∧
          decide (l &&& pageUser ≠ 0) = false ∧ decide (l &&& pageXd ≠ 0) = false) := by
        intro l hl
        obtain ⟨g, hg, rfl⟩ := hlinks l hl
        obtain ⟨hrw, huser, hxd⟩ := linkEntry_rights hg
        exact ⟨decide_eq_true hrw, decide_eq_false huser, decide_eq_false hxd⟩
      have hrw : links.all (fun e => decide (e &&& pageRw ≠ 0)) = true :=
        List.all_eq_true.mpr (fun l hl => (hright l hl).1)
      have huser : links.all (fun e => decide (e &&& pageUser ≠ 0)) = false := by
        obtain ⟨l, hl⟩ := List.exists_mem_of_ne_nil links hne
        exact List.all_eq_false.mpr ⟨l, hl, by rw [(hright l hl).2.1]; decide⟩
      have hxd : links.any (fun e => decide (e &&& pageXd ≠ 0)) = false :=
        List.any_eq_false.mpr (fun l hl => by rw [(hright l hl).2.2]; decide)
      simp only [Option.map_some, htrail, List.all_append, List.any_append, hrw, huser, hxd,
        List.all_cons, List.all_nil, List.any_cons, List.any_nil, Bool.and_true, Bool.true_and,
        Bool.false_and, Bool.or_false, Bool.false_or]
      rfl

/-! ## The leaves of a range -/

/-- The access that a mapping with these flags gives. -/
def flagsAccess (flags address : Nat) : Access :=
  { address := address
    writable := decide (flags &&& pageRw ≠ 0)
    user := false
    noExecute := false
    global := decide (flags &&& pageGlobal ≠ 0)
    memoryType := flags / 8 % 2 + 2 * (flags / 16 % 2) }

/-- A leaf with the low bits of the flags, and no other bit that the processor
    reads as a right or as caching. -/
theorem linkedAccess_eq {flags a : Nat} {leaf : Nat × Nat}
    (hlow : leaf.2 % 128 = flags % 128 / 2 * 2 + 1) (hglobal : leaf.2 / 256 % 2 = flags / 256 % 2)
    (hpat : (if leaf.1 = 0 then leaf.2 / 128 % 2 else leaf.2 / 4096 % 2) = 0)
    (hword : leaf.2 < 2 ^ 63) :
    linkedAccess a leaf = flagsAccess flags (leafAddress leaf.1 leaf.2 a) := by
  unfold linkedAccess flagsAccess leafMemoryType
  rw [hpat, decide_eq_false (show ¬ leaf.2 &&& pageXd ≠ 0 by rw [and_xd_ne]; omega)]
  have hrw : leaf.2 &&& pageRw ≠ 0 ↔ flags &&& pageRw ≠ 0 := by
    rw [and_rw_ne, and_rw_ne]
    omega
  have hgl : leaf.2 &&& pageGlobal ≠ 0 ↔ flags &&& pageGlobal ≠ 0 := by
    rw [and_global_ne, and_global_ne, hglobal]
  rw [decide_eq_decide.mpr hrw, decide_eq_decide.mpr hgl,
    show leaf.2 / 8 % 2 = flags / 8 % 2 by omega, show leaf.2 / 16 % 2 = flags / 16 % 2 by omega,
    Nat.mul_zero, Nat.add_zero]

/-- Below linked tables a page has the rights of its flags. -/
theorem linkedAccess_page {phys flags a : Nat} (hphys : phys < 2 ^ 52)
    (hsmall : flags / 128 % 2 = 0) :
    linkedAccess a (0, pageEntry phys flags)
      = flagsAccess flags (leafAddress 0 (pageEntry phys flags) a) := by
  have hentry := pageEntry_eq flags (show phys < 2 ^ 64 by omega)
  refine linkedAccess_eq ?_ ?_ ?_ ?_
  · rw [hentry]; omega
  · rw [hentry]; omega
  · rw [if_pos rfl, hentry]; omega
  · rw [hentry]; omega

/-- The flags with the bit of a large page set. -/
theorem or_huge_eq (flags : Nat) :
    flags ||| pageHuge = flags / 256 * 256 + 128 + flags % 128 := by
  have hbit := or_huge_bit flags
  have hlow : (flags ||| pageHuge) % 128 = flags % 128 := by
    rw [show (128 : Nat) = 2 ^ 7 from rfl, Nat.or_mod_two_pow]
    exact Nat.or_zero _
  have hhigh : (flags ||| pageHuge) / 256 = flags / 256 := by
    rw [show (256 : Nat) = 2 ^ 8 from rfl, Nat.or_div_two_pow]
    exact Nat.or_zero _
  omega

/-- So has a large page. -/
theorem linkedAccess_huge {phys flags a : Nat} (hphys : phys < 2 ^ 52) :
    linkedAccess a (1, hugeEntry phys (flags ||| pageHuge))
      = flagsAccess flags (leafAddress 1 (hugeEntry phys (flags ||| pageHuge)) a) := by
  have hentry := hugeEntry_eq (flags ||| pageHuge) (show phys < 2 ^ 64 by omega)
  have hor := or_huge_eq flags
  refine linkedAccess_eq ?_ ?_ ?_ ?_
  · rw [hentry]; omega
  · rw [hentry]; omega
  · rw [if_neg Nat.one_ne_zero, hentry]; omega
  · rw [hentry]; omega

end Pfi
