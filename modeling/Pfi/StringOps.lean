import Pfi.ByteStore

/-! # Repeated string instructions

    `rep movs` copies one byte after the other, upwards or downwards as the
    direction flag says, and `rep stos` stores one value again and again.  The
    memory after a number of turns is `movs` and `stos`.

    A copy moves the bytes as they were before it (`moved`) when no byte is
    overwritten before it is read (`movs_eq_moved`).  A copy with another count
    leaves the same memory exactly when the bytes between the two counts are the
    same at both places (`movs_eq_moved_iff`): those that are left out must be
    equal already, and those that are copied too much must change nothing. -/

namespace StringOps

open ByteStore

/-! ## Places -/

/-- The `i`-th byte from `a` on, downwards if the direction flag is set. -/
def place (df : Bool) (a : Addr) (i : Nat) : Addr :=
  if df = true then a - BitVec.ofNat 64 i else a + BitVec.ofNat 64 i

/-- The number of a place. -/
def offset (df : Bool) (a p : Addr) : Nat := if df = true then (a - p).toNat else (p - a).toNat

section Place

variable {df : Bool} {a p : Addr} {i j : Nat}

/-- With the flag clear the places go upwards. -/
theorem place_up : place false a i = a + BitVec.ofNat 64 i := if_neg Bool.false_ne_true

/-- A place counted from a place. -/
theorem place_place : place df (place df a i) j = place df a (i + j) := by
  unfold place
  cases df <;> simp only [if_true, if_false, Bool.false_eq_true] <;> bv_omega

/-- The number of a place is read back. -/
theorem offset_place (hi : i < 2 ^ 64) : offset df a (place df a i) = i := by
  unfold offset place
  cases df <;> simp only [if_true, if_false, Bool.false_eq_true] <;> bv_omega

/-- Every address is a place. -/
theorem place_offset : place df a (offset df a p) = p := by
  unfold offset place
  cases df <;> simp only [if_true, if_false, Bool.false_eq_true] <;> bv_omega

/-- The numbers of places are below 2^64. -/
theorem offset_lt : offset df a p < 2 ^ 64 := by
  unfold offset
  split <;> exact BitVec.isLt _

/-- Two numbers below 2^64 are two places. -/
theorem place_inj (hi : i < 2 ^ 64) (hj : j < 2 ^ 64) (h : place df a i = place df a j) :
    i = j := by
  rw [← @offset_place df a i hi, h, offset_place hj]

end Place

/-! ## Copies -/

/-- A byte is stored. -/
def setByte (m : Mem) (a : Addr) (b : BitVec 8) : Mem := fun p => if p = a then b else m p

/-- The byte that was stored. -/
theorem setByte_self {m : Mem} {a : Addr} {b : BitVec 8} : setByte m a b a = b := if_pos rfl

/-- The other bytes stay. -/
theorem setByte_ne {m : Mem} {a p : Addr} {b : BitVec 8} (h : p ≠ a) : setByte m a b p = m p :=
  if_neg h

/-- The memory after `n` turns of `rep movsb`. -/
def movs (m : Mem) (df : Bool) (dst src : Addr) : Nat → Mem
  | 0 => m
  | n + 1 =>
      let m' := movs m df dst src n
      setByte m' (place df dst n) (m' (place df src n))

/-- The `n` bytes at the source, moved to the destination at once. -/
def moved (m : Mem) (df : Bool) (dst src : Addr) (n : Nat) : Mem := fun p =>
  if offset df dst p < n then m (place df src (offset df dst p)) else m p

/-- No byte of the source is written to before it is read. -/
def Unread (df : Bool) (dst src : Addr) (n : Nat) : Prop :=
  ∀ i j, i < n → j < i → place df src i ≠ place df dst j

section Movs

variable {m : Mem} {df : Bool} {dst src p : Addr} {n k i : Nat}

/-- The last byte of a copy. -/
theorem movs_succ : movs m df dst src (n + 1)
    = setByte (movs m df dst src n) (place df dst n) (movs m df dst src n (place df src n)) := rfl

/-- What no turn writes to. -/
theorem movs_other (h : ∀ i, i < n → p ≠ place df dst i) : movs m df dst src n p = m p := by
  induction n with
  | zero => rfl
  | succ n ih =>
      rw [movs_succ, setByte_ne (h n (Nat.lt_succ_self n))]
      exact ih (fun i hi => h i (Nat.lt_succ_of_lt hi))

/-- A byte is written once, with what is read in its turn. -/
theorem movs_at (hn : n ≤ 2 ^ 64) (hi : i < n) :
    movs m df dst src n (place df dst i) = movs m df dst src i (place df src i) := by
  induction n with
  | zero => exact absurd hi (Nat.not_lt_zero i)
  | succ n ih =>
      rw [movs_succ]
      by_cases hlast : i = n
      · subst hlast
        exact setByte_self
      · have hne : place df dst i ≠ place df dst n :=
          fun heq => hlast (place_inj (by omega) (by omega) heq)
        rw [setByte_ne hne]
        exact ih (Nat.le_of_succ_le hn) (by omega)

/-- A copy may be made in two parts. -/
theorem movs_add : movs m df dst src (n + k)
    = movs (movs m df dst src n) df (place df dst n) (place df src n) k := by
  induction k with
  | zero => rfl
  | succ k ih =>
      have hnext : n + (k + 1) = n + k + 1 := rfl
      rw [hnext, movs_succ, movs_succ, ih, place_place, place_place]

/-- Bytes that are read before they are written to. -/
theorem movs_eq_moved (hn : n ≤ 2 ^ 64) (hunread : Unread df dst src n) :
    movs m df dst src n = moved m df dst src n := by
  funext p
  unfold moved
  by_cases hp : offset df dst p < n
  · rw [if_pos hp]
    have hat := @movs_at m df dst src n _ hn hp
    rw [place_offset] at hat
    rw [hat]
    exact movs_other (fun j hj => hunread _ j hp hj)
  · rw [if_neg hp]
    refine movs_other (fun i hi heq => hp ?_)
    rw [heq, offset_place (by omega)]
    exact hi

/-- A copy changes nothing exactly when source and destination are alike. -/
theorem movs_eq_self_iff (hn : n ≤ 2 ^ 64) :
    movs m df dst src n = m ↔ ∀ i, i < n → m (place df dst i) = m (place df src i) := by
  induction n with
  | zero => exact ⟨fun _ i hi => absurd hi (Nat.not_lt_zero i), fun _ => rfl⟩
  | succ n ih =>
      rw [movs_succ]
      constructor
      · intro h
        -- the turns before the last one change nothing either
        have hbefore : movs m df dst src n = m := by
          funext p
          by_cases hp : p = place df dst n
          · rw [hp]
            refine movs_other (fun i hi heq => ?_)
            exact Nat.ne_of_gt hi (place_inj (by omega) (by omega) heq)
          · have hbyte := congrFun h p
            rw [setByte_ne hp] at hbyte
            exact hbyte
        have hbyte := congrFun h (place df dst n)
        rw [setByte_self, hbefore] at hbyte
        intro i hi
        by_cases heq : i = n
        · rw [heq]
          exact hbyte.symm
        · exact (ih (Nat.le_of_succ_le hn)).mp hbefore i (by omega)
      · intro h
        have hbefore := (ih (Nat.le_of_succ_le hn)).mpr (fun i hi => h i (Nat.lt_succ_of_lt hi))
        rw [hbefore]
        funext p
        by_cases hp : p = place df dst n
        · rw [hp, setByte_self]
          exact (h n (Nat.lt_succ_self n)).symm
        · exact setByte_ne hp

/-- Moving fewer bytes. -/
theorem moved_eq_moved_iff (hn : n ≤ 2 ^ 64) (hk : k ≤ n) :
    moved m df dst src k = moved m df dst src n ↔
      ∀ i, k ≤ i → i < n → m (place df dst i) = m (place df src i) := by
  constructor
  · intro h i hlo hhi
    have hbyte := congrFun h (place df dst i)
    unfold moved at hbyte
    rw [offset_place (by omega), if_neg (by omega), if_pos hhi] at hbyte
    exact hbyte
  · intro h
    funext p
    unfold moved
    by_cases hsmall : offset df dst p < k
    · rw [if_pos hsmall, if_pos (by omega)]
    · rw [if_neg hsmall]
      by_cases hp : offset df dst p < n
      · have hbyte := h _ (Nat.le_of_not_lt hsmall) hp
        rw [place_offset] at hbyte
        rw [if_pos hp, hbyte]
      · rw [if_neg hp]

/-- A copy of `k` bytes leaves what moving `n` bytes does exactly when the bytes
    between the two counts are the same at both places. -/
theorem movs_eq_moved_iff (hn : n ≤ 2 ^ 64) (hk : k ≤ 2 ^ 64) (hunread : Unread df dst src n) :
    movs m df dst src k = moved m df dst src n ↔
      (∀ i, k ≤ i → i < n → m (place df dst i) = m (place df src i)) ∧
        (∀ i, n ≤ i → i < k →
          moved m df dst src n (place df dst i) = moved m df dst src n (place df src i)) := by
  rcases Nat.le_total k n with hle | hle
  · have hpart : Unread df dst src k := fun i j hi hj => hunread i j (by omega) hj
    rw [movs_eq_moved hk hpart, moved_eq_moved_iff hn hle]
    exact ⟨fun h => ⟨h, fun i hlo hhi => absurd hhi (by omega)⟩, fun h => h.1⟩
  · obtain ⟨r, rfl⟩ := Nat.exists_eq_add_of_le hle
    rw [movs_add, movs_eq_moved hn hunread, movs_eq_self_iff (by omega)]
    constructor
    · intro h
      refine ⟨fun i hlo hhi => absurd hhi (by omega), fun i hlo hhi => ?_⟩
      obtain ⟨j, rfl⟩ := Nat.exists_eq_add_of_le hlo
      have hbyte := h j (by omega)
      rw [place_place, place_place] at hbyte
      exact hbyte
    · rintro ⟨-, h⟩ i hi
      rw [place_place, place_place]
      exact h (n + i) (Nat.le_add_right n i) (by omega)

/-- Downwards from the last byte, or upwards from the first. -/
theorem moved_down (hn : n < 2 ^ 64) :
    moved m true (dst + BitVec.ofNat 64 n - 1) (src + BitVec.ofNat 64 n - 1) n
      = moved m false dst src n := by
  funext p
  have hback : ∀ a : Addr, dst + BitVec.ofNat 64 n - 1 - p = BitVec.ofNat 64 n - 1 - (p - dst) ∧
      a + BitVec.ofNat 64 n - 1 - (BitVec.ofNat 64 n - 1 - (p - dst)) = a + (p - dst) := by
    intro a
    constructor <;> bv_omega
  have hcount : (BitVec.ofNat 64 n).toNat = n := Nat.mod_eq_of_lt hn
  have hin : (BitVec.ofNat 64 n - 1 - (p - dst)).toNat < n ↔ (p - dst).toNat < n := by
    generalize p - dst = o
    generalize BitVec.ofNat 64 n = w at hcount
    subst hcount
    have ho := o.isLt
    have hw := w.isLt
    rw [BitVec.toNat_sub, BitVec.toNat_sub]
    have hone : (1 : Addr).toNat = 1 := rfl
    rw [hone]
    omega
  unfold moved offset place
  simp only [if_true, if_false, Bool.false_eq_true, BitVec.ofNat_toNat, BitVec.setWidth_eq]
  rw [(hback src).1, (hback src).2]
  by_cases hp : (p - dst).toNat < n
  · rw [if_pos hp, if_pos (hin.mpr hp)]
  · rw [if_neg hp, if_neg (fun hc => hp (hin.mp hc))]

end Movs

/-! ## Stores -/

/-- The memory after `n` turns of `rep stos` with a value of `w` bytes. -/
def stos (m : Mem) (df : Bool) (a : Addr) (w v : Nat) : Nat → Mem
  | 0 => m
  | n + 1 => store (stos m df a w v n) (place df a (w * n)) w v

/-- Quadwords upwards.  When they go round the whole memory, they meet the ones
    that are there already at the same offsets. -/
theorem stos_quads {m : Mem} {a p : Addr} {v n : Nat} :
    stos m false a 8 v n p =
      if offset false a p < 8 * n then BitVec.ofNat 8 (v / 256 ^ (offset false a p % 8))
      else m p := by
  induction n with
  | zero => rfl
  | succ n ih =>
      have hlt : offset false a p < 2 ^ 64 := offset_lt
      have hword : (p - place false a (8 * n)).toNat
          = (offset false a p + (2 ^ 64 - 8 * n % 2 ^ 64)) % 2 ^ 64 := by
        unfold place offset
        simp only [if_false, Bool.false_eq_true]
        bv_omega
      unfold stos store
      dsimp only
      rw [hword, ih]
      generalize offset false a p = o at hlt
      by_cases hin : (o + (2 ^ 64 - 8 * n % 2 ^ 64)) % 2 ^ 64 < 8
      · have hmod : (o + (2 ^ 64 - 8 * n % 2 ^ 64)) % 2 ^ 64 = o % 8 := by omega
        rw [if_pos hin, if_pos (by omega), hmod]
      · rw [if_neg hin]
        by_cases hold : o < 8 * n
        · rw [if_pos hold, if_pos (by omega)]
        · rw [if_neg hold, if_neg (by omega)]

end StringOps
