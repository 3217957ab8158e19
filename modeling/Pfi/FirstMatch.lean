import Mathlib.Data.List.GetD
import Mathlib.Data.Nat.Find
import Mathlib.Tactic.Push

/-! # First match, and one remembered answer

    Entries are numbered, and each covers some keys.  The first match of a key
    is the entry with the least number, in a range, that covers it (`First`).
    This is what a scan along a list finds (`scanFrom_eq_some`).

    A lookup that tries its last answer before it scans gives the first match
    of every key exactly when the answer that it remembers is the first match
    of all keys that it covers (`lookup_eq_scan_iff`): it covers none, or it is
    in the range and overlaps no entry before it (`right_iff`).

    A search that tests each element twice, a coarse test and then a fine one,
    and gives up where only the coarse one holds, is `filter_find?_eq_iff`.
    Two searches with different tests find the same exactly when an element on
    which they differ comes after one that passes both (`find?_agree_iff`).

    A search may carry a state along (`firstOf`); where the state does not
    matter to the test it is a search in the list (`firstOf_eq`). -/

namespace FirstMatch

variable {κ : Type} {cov : Nat → κ → Prop} {lo hi i j : Nat} {k : κ}

/-- Entry `i` is the first of `lo .. hi - 1` that covers `k`. -/
structure First (cov : Nat → κ → Prop) (lo hi : Nat) (k : κ) (i : Nat) : Prop where
  lower : lo ≤ i
  upper : i < hi
  covers : cov i k
  least : ∀ j, lo ≤ j → j < i → ¬ cov j k

/-- Some key is covered by both entries. -/
def Overlap (cov : Nat → κ → Prop) (i j : Nat) : Prop := ∃ k, cov i k ∧ cov j k

/-- An entry that is the first match of one of its keys is that of all exactly
    when it overlaps no entry before it. -/
theorem First.all_iff (h : First cov lo hi k i) :
    (∀ k', cov i k' → First cov lo hi k' i) ↔
      ∀ j, lo ≤ j → j < i → ¬ Overlap cov j i := by
  constructor
  · rintro hall j hj hlt ⟨k', hcj, hci⟩
    exact (hall k' hci).least j hj hlt hcj
  · intro hapart k' hc
    exact ⟨h.lower, h.upper, hc, fun j hj hlt hcj => hapart j hj hlt ⟨k', hcj, hc⟩⟩

/-- When an entry is the first match of all its keys. -/
theorem right_iff :
    (∀ k, cov i k → First cov lo hi k i) ↔
      (∀ k, ¬ cov i k) ∨ lo ≤ i ∧ i < hi ∧ ∀ j, lo ≤ j → j < i → ¬ Overlap cov j i := by
  constructor
  · intro hall
    by_cases hnone : ∀ k, ¬ cov i k
    · exact Or.inl hnone
    · push Not at hnone
      obtain ⟨k, hk⟩ := hnone
      have hfirst := hall k hk
      exact Or.inr ⟨hfirst.lower, hfirst.upper, hfirst.all_iff.mp hall⟩
  · rintro (hnone | ⟨hlo, hhi, hapart⟩) k hk
    · exact absurd hk (hnone k)
    · exact ⟨hlo, hhi, hk, fun j hj hlt hc => hapart j hj hlt ⟨k, hc, hk⟩⟩

/-! ## The remembered answer -/

/-- A lookup that tries the entry `last` first. -/
def lookup (hit : Nat → κ → Bool) (scan : κ → Option Nat) (last : Option Nat) (k : κ) :
    Option Nat :=
  match last with
  | some i => if hit i k then some i else scan k
  | none => scan k

theorem lookup_eq_scan_iff {hit : Nat → κ → Bool} {scan : κ → Option Nat} {last : Option Nat} :
    (∀ k, lookup hit scan last k = scan k) ↔
      ∀ i, last = some i → ∀ k, hit i k = true → scan k = some i := by
  constructor
  · rintro hall i rfl k hk
    rw [← hall k]
    exact if_pos hk
  · intro hright k
    cases hlast : last with
    | none => rfl
    | some i =>
        by_cases hk : hit i k = true
        · exact (if_pos hk).trans (hright i hlast k hk).symm
        · exact if_neg hk

/-! ## The scan along a list -/

/-- The index of the first element from `lo` on that passes the test. -/
def scanFrom {α : Type} (l : List α) (p : α → Bool) (lo : Nat) : Option Nat :=
  ((l.drop lo).findIdx? p).map (lo + ·)

section Scan

variable {α : Type} {l : List α} {d : α} {p : κ → α → Bool}

/-- Nothing lies behind the end. -/
theorem scanFrom_length {p : α → Bool} : scanFrom l p l.length = none := by
  unfold scanFrom
  rw [List.drop_length]
  rfl

theorem scanFrom_eq_some :
    scanFrom l (p k) lo = some i ↔
      First (fun j k => p k (l.getD j d) = true) lo l.length k i := by
  unfold scanFrom
  rw [Option.map_eq_some_iff]
  have hget : ∀ n (hn : n < (l.drop lo).length), (l.drop lo).get ⟨n, hn⟩ = l.getD (lo + n) d := by
    intro n hn
    rw [List.length_drop] at hn
    rw [List.getD_eq_getElem _ _ (by omega), List.get_eq_getElem, List.getElem_drop]
  constructor
  · rintro ⟨n, hn, rfl⟩
    obtain ⟨hlt, hpass, hleast⟩ := List.findIdx?_eq_some_iff_getElem.mp hn
    have hpass' := hget n hlt
    rw [List.length_drop] at hlt
    refine ⟨Nat.le_add_right lo n, by omega, ?_, fun j hj hjlt hc => ?_⟩
    · rw [← hpass']
      exact hpass
    · obtain ⟨q, rfl⟩ := Nat.exists_eq_add_of_le hj
      have hq : q < n := by omega
      refine hleast q hq ?_
      rw [← hget q (by rw [List.length_drop]; omega)] at hc
      exact hc
  · rintro ⟨hlo, hhi, hpass, hleast⟩
    obtain ⟨n, rfl⟩ := Nat.exists_eq_add_of_le hlo
    have hlt : n < (l.drop lo).length := by
      rw [List.length_drop]
      omega
    refine ⟨n, List.findIdx?_eq_some_iff_getElem.mpr ⟨hlt, ?_, fun q hq hc => ?_⟩, rfl⟩
    · rw [← hget n hlt] at hpass
      exact hpass
    · refine hleast (lo + q) (Nat.le_add_right lo q) (by omega) ?_
      rw [← hget q (Nat.lt_trans hq hlt)]
      exact hc

/-- The element at the index that the scan gives. -/
theorem find_of_scanFrom {p : α → Bool} (h : scanFrom l p lo = some i) :
    (l.drop lo).find? p = some (l.getD i d) := by
  have hfirst := (@scanFrom_eq_some Unit lo i () α l d (fun _ => p)).mp h
  have hlt := hfirst.upper
  obtain ⟨n, rfl⟩ := Nat.exists_eq_add_of_le hfirst.lower
  have hget : ∀ q, lo + q < l.length → (l.drop lo)[q]? = some (l.getD (lo + q) d) := by
    intro q hq
    rw [List.getElem?_drop, List.getElem?_eq_getElem hq, List.getD_eq_getElem _ _ hq]
  rw [List.find?_eq_some_iff_getElem]
  have hn : n < (l.drop lo).length := by
    rw [List.length_drop]
    omega
  refine ⟨hfirst.covers, n, hn, ?_, fun q hq => ?_⟩
  · exact (List.getElem_eq_iff hn).mpr (hget n hlt)
  · have hno := hfirst.least (lo + q) (Nat.le_add_right lo q) (by omega)
    rw [(List.getElem_eq_iff _).mpr (hget q (by omega))]
    exact Bool.eq_false_iff.mpr hno ▸ rfl

end Scan

/-! ## A coarse test before the fine one -/

/-- A search that gives up when the first element to pass a coarse test fails
    the fine one gives the first element that passes the fine one exactly when
    these two are the same, or no element passes the fine one. -/
theorem filter_find?_eq_iff {α : Type} {coarse fine : α → Bool} {l : List α}
    (himp : ∀ a, fine a = true → coarse a = true) :
    (l.find? coarse).filter fine = l.find? fine ↔
      (∀ a ∈ l, fine a ≠ true) ∨ ∃ a, l.find? coarse = some a ∧ fine a = true := by
  constructor
  · intro h
    cases hfound : l.find? coarse with
    | none =>
        refine Or.inl (fun a ha hc => ?_)
        exact List.find?_eq_none.mp hfound a ha (himp a hc)
    | some a =>
        by_cases ha : fine a = true
        · exact Or.inr ⟨a, rfl, ha⟩
        · rw [hfound, Option.filter_some_neg (Bool.eq_false_iff.mpr ha)] at h
          exact Or.inl (List.find?_eq_none.mp h.symm)
  · rintro (hnone | ⟨a, hfound, ha⟩)
    · rw [List.find?_eq_none.mpr hnone, Option.filter_eq_none_iff]
      intro a hfound
      exact hnone a (List.mem_of_find?_eq_some hfound)
    · rw [hfound, Option.filter_some_pos ha]
      obtain ⟨-, before, after, rfl, hbefore⟩ := List.find?_eq_some_iff_append.mp hfound
      refine (List.find?_eq_some_iff_append.mpr ⟨ha, before, after, rfl, fun b hb => ?_⟩).symm
      have hcoarse := hbefore b hb
      cases hfine : fine b with
      | false => rfl
      | true =>
          rw [himp b hfine] at hcoarse
          cases hcoarse

/-! ## Two tests -/

section TwoTests

variable {α : Type} {l : List α} {before : α → α → Prop}

/-- In a list that is sorted by `before`, the first element to pass. -/
theorem find?_eq_some_iff_before {p : α → Bool} (hsorted : l.Pairwise before)
    (hasymm : ∀ a b, before a b → ¬ before b a) {a : α} :
    l.find? p = some a ↔ a ∈ l ∧ p a = true ∧ ∀ b ∈ l, before b a → p b ≠ true := by
  induction l with
  | nil =>
      constructor
      · intro h
        cases h
      · rintro ⟨ha, -, -⟩
        exact absurd ha List.not_mem_nil
  | cons c l ih =>
      obtain ⟨hfirst, hrest⟩ := List.pairwise_cons.mp hsorted
      by_cases hc : p c = true
      · rw [List.find?_cons_of_pos hc]
        constructor
        · intro h
          rw [← Option.some.inj h]
          refine ⟨List.mem_cons_self, hc, fun b hb hbc => ?_⟩
          rcases List.mem_cons.mp hb with rfl | hb
          · exact absurd hbc (hasymm _ _ hbc)
          · exact absurd hbc (hasymm _ _ (hfirst b hb))
        · rintro ⟨ha, -, hleast⟩
          rcases List.mem_cons.mp ha with rfl | ha
          · rfl
          · exact absurd hc (hleast c List.mem_cons_self (hfirst a ha))
      · rw [List.find?_cons_of_neg hc, ih hrest]
        constructor
        · rintro ⟨ha, hpass, hleast⟩
          refine ⟨List.mem_cons_of_mem c ha, hpass, fun b hb hba => ?_⟩
          rcases List.mem_cons.mp hb with rfl | hb
          · exact hc
          · exact hleast b hb hba
        · rintro ⟨ha, hpass, hleast⟩
          refine ⟨?_, hpass, fun b hb => hleast b (List.mem_cons_of_mem c hb)⟩
          rcases List.mem_cons.mp ha with rfl | ha
          · exact absurd hpass hc
          · exact ha

/-- Two searches in a sorted list find the same exactly when each element on
    which they differ comes after one that passes both tests. -/
theorem find?_agree_iff {p q : α → Bool} (hsorted : l.Pairwise before)
    (hasymm : ∀ a b, before a b → ¬ before b a) :
    l.find? p = l.find? q ↔
      ∀ a ∈ l, p a ≠ q a → ∃ b ∈ l, before b a ∧ p b = true ∧ q b = true := by
  induction l with
  | nil => exact ⟨fun _ a ha => absurd ha List.not_mem_nil, fun _ => rfl⟩
  | cons c l ih =>
      obtain ⟨hfirst, hrest⟩ := List.pairwise_cons.mp hsorted
      by_cases hdiffer : p c = q c
      · by_cases hc : p c = true
        · -- both stop at the first element
          have hcq : q c = true := hdiffer ▸ hc
          rw [List.find?_cons_of_pos hc, List.find?_cons_of_pos hcq]
          refine ⟨fun _ a ha hne => ?_, fun _ => rfl⟩
          rcases List.mem_cons.mp ha with rfl | ha
          · exact absurd hdiffer hne
          · exact ⟨c, List.mem_cons_self, hfirst a ha, hc, hcq⟩
        · have hcq : ¬ q c = true := hdiffer ▸ hc
          rw [List.find?_cons_of_neg hc, List.find?_cons_of_neg hcq, ih hrest]
          constructor
          · intro h a ha hne
            rcases List.mem_cons.mp ha with rfl | ha
            · exact absurd hdiffer hne
            · obtain ⟨b, hb, hboth⟩ := h a ha hne
              exact ⟨b, List.mem_cons_of_mem c hb, hboth⟩
          · intro h a ha hne
            obtain ⟨b, hb, hba, hpass⟩ := h a (List.mem_cons_of_mem c ha) hne
            rcases List.mem_cons.mp hb with rfl | hb
            · exact absurd hpass.1 hc
            · exact ⟨b, hb, hba, hpass⟩
      · -- only one of them stops there
        have hnone : ¬ ∃ b ∈ c :: l, before b c ∧ p b = true ∧ q b = true := by
          rintro ⟨b, hb, hbc, hpass⟩
          rcases List.mem_cons.mp hb with rfl | hb
          · exact hasymm _ _ hbc hbc
          · exact hasymm _ _ hbc (hfirst b hb)
        refine ⟨fun h => absurd ?_ hdiffer, fun h => absurd (h c List.mem_cons_self hdiffer) hnone⟩
        cases hp : p c with
        | true =>
            rw [List.find?_cons_of_pos hp] at h
            exact (List.find?_some h.symm).symm
        | false =>
            cases hq : q c with
            | false => rfl
            | true =>
                rw [List.find?_cons_of_pos hq] at h
                rw [← hp]
                exact List.find?_some h

end TwoTests

/-! ## A search that carries a state -/

/-- A loop with an early return. -/
def firstOf {σ α β : Type} (body : σ → α → Option β × σ) : List α → σ → Option β × σ
  | [], s => (none, s)
  | a :: as, s =>
      match body s a with
      | (some b, s') => (some b, s')
      | (none, s') => firstOf body as s'

section FirstOf

variable {σ α β : Type} {body : σ → α → Option β × σ} {s : σ} {a : α} {l l' : List α}

theorem firstOf_cons_some {b : β} {s' : σ} (h : body s a = (some b, s')) :
    firstOf body (a :: l) s = (some b, s') := by
  simp [firstOf, h]

theorem firstOf_cons_none {s' : σ} (h : body s a = (none, s')) :
    firstOf body (a :: l) s = firstOf body l s' := by
  simp [firstOf, h]

/-- A list in two parts. -/
theorem firstOf_append_none {s' : σ} (h : firstOf body l s = (none, s')) :
    firstOf body (l ++ l') s = firstOf body l' s' := by
  induction l generalizing s with
  | nil =>
      cases h
      rfl
  | cons a l ih =>
      rw [List.cons_append]
      cases hbody : body s a with
      | mk found s₁ =>
          cases found with
          | some b =>
              rw [firstOf_cons_some hbody] at h
              cases h
          | none =>
              rw [firstOf_cons_none hbody] at h ⊢
              exact ih h

theorem firstOf_append_some {b : β} {s' : σ} (h : firstOf body l s = (some b, s')) :
    firstOf body (l ++ l') s = (some b, s') := by
  induction l generalizing s with
  | nil => cases h
  | cons a l ih =>
      rw [List.cons_append]
      cases hbody : body s a with
      | mk found s₁ =>
          cases found with
          | some b' =>
              rw [firstOf_cons_some hbody] at h ⊢
              exact h
          | none =>
              rw [firstOf_cons_none hbody] at h ⊢
              exact ih h

/-- A loop within a loop. -/
theorem firstOf_flatMap {γ : Type} (f : γ → List α) (cs : List γ) :
    firstOf (fun s c => firstOf body (f c) s) cs s = firstOf body (cs.flatMap f) s := by
  induction cs generalizing s with
  | nil => rfl
  | cons c cs ih =>
      rw [List.flatMap_cons]
      cases hinner : firstOf body (f c) s with
      | mk found s' =>
          cases found with
          | some b => rw [firstOf_cons_some hinner, firstOf_append_some hinner]
          | none => rw [firstOf_cons_none hinner, firstOf_append_none hinner, ih]

/-- A test that the state has no part in. -/
theorem firstOf_eq {I : σ → Prop} {p : α → Bool} {out : α → β}
    (hfound : ∀ s a, I s → (body s a).1 = if p a = true then some (out a) else none)
    (hkeep : ∀ s a, I s → I (body s a).2) (hs : I s) :
    (firstOf body l s).1 = (l.find? p).map out ∧ I (firstOf body l s).2 := by
  induction l generalizing s with
  | nil => exact ⟨rfl, hs⟩
  | cons a l ih =>
      have hfirst := hfound s a hs
      have hnext := hkeep s a hs
      cases hbody : body s a with
      | mk found s' =>
          rw [hbody] at hfirst hnext
          dsimp only at hfirst
          by_cases ha : p a = true
          · rw [if_pos ha] at hfirst
            subst hfirst
            rw [firstOf_cons_some hbody, List.find?_cons_of_pos ha]
            exact ⟨rfl, hnext⟩
          · rw [if_neg ha] at hfirst
            subst hfirst
            rw [firstOf_cons_none hbody, List.find?_cons_of_neg ha]
            exact ih hnext

end FirstOf

end FirstMatch
