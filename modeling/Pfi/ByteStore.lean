import Mathlib.Data.List.Basic
import Mathlib.Tactic.Ring

/-! # Stores and loads of bytes

    A memory of bytes with 64-bit addresses that wrap.  A value of `n` bytes
    is stored with its low byte first.  A load gives what was stored last in
    the same place (`load_store`), and a store changes nothing outside of its
    bytes (`store_apart`, `load64_store_apart`).

    An array of words is read in order (`words`); a word that is stored behind
    it is its last element (`words_store64`).

    Words are pushed downwards from a stack pointer (`pushAll`).  Each of them
    is found at its distance from where the pointer was (`load_pushAll`), and
    nothing is changed but the bytes below it (`pushAll_apart`). -/

namespace ByteStore

abbrev Addr := BitVec 64
abbrev Word := BitVec 64
abbrev Mem := Addr → BitVec 8

/-! ## Ranges -/

/-- The `size` bytes from `base` on, which may wrap. -/
structure Range where
  base : Addr
  size : Nat
deriving DecidableEq

/-- The byte at `p` is one of the range. -/
def Range.Has (r : Range) (p : Addr) : Prop := (p - r.base).toNat < r.size

instance (r : Range) (p : Addr) : Decidable (r.Has p) := inferInstanceAs (Decidable (_ < _))

/-- All bytes of `r` are bytes of `r'`. -/
def Range.Sub (r r' : Range) : Prop := ∀ p, r.Has p → r'.Has p

/-- No byte is in both ranges. -/
def Range.Apart (r r' : Range) : Prop := ∀ p, r.Has p → ¬ r'.Has p

section Ranges

variable {r r' : Range}

/-- Two ranges are apart either way. -/
theorem Range.Apart.symm (h : r.Apart r') : r'.Apart r := fun p hp hp' => h p hp' hp

/-- A range between the bounds of another one. -/
theorem sub_of_le (hlow : r'.base.toNat ≤ r.base.toNat)
    (hhigh : r.base.toNat + r.size ≤ r'.base.toNat + r'.size) : r.Sub r' := by
  intro p hp
  unfold Range.Has at *
  bv_omega

/-- Two ranges that do not wrap, one behind the other. -/
theorem apart_of_le (h : r.base.toNat + r.size ≤ r'.base.toNat)
    (hwrap : r'.base.toNat + r'.size ≤ 2 ^ 64) : r.Apart r' := by
  intro p hp hp'
  unfold Range.Has at *
  bv_omega

end Ranges

/-! ## Loads and stores -/

/-- Store the `n` low bytes of `v`. -/
def store (m : Mem) (a : Addr) (n v : Nat) : Mem := fun p =>
  let i := (p - a).toNat
  if i < n then BitVec.ofNat 8 (v / 256 ^ i) else m p

/-- Load `n` bytes. -/
def load (m : Mem) (a : Addr) : Nat → Nat
  | 0 => 0
  | n + 1 => (m a).toNat + 256 * load m (a + 1) n

/-- A word of 64 bits. -/
def store64 (m : Mem) (a : Addr) (w : Word) : Mem := store m a 8 w.toNat

/-- The word at an address. -/
def load64 (m : Mem) (a : Addr) : Word := BitVec.ofNat 64 (load m a 8)

section LoadStore

variable {m m' : Mem} {a b : Addr} {n k : Nat}

/-- A store leaves the bytes outside of its range. -/
theorem store_apart {p : Addr} {v : Nat} (h : ¬ Range.Has ⟨a, n⟩ p) : store m a n v p = m p :=
  if_neg h

/-- The bytes of a number that was stored. -/
theorem store_byte {i v : Nat} (hi : i < n) (hn : n ≤ 2 ^ 64) :
    store m a n v (a + BitVec.ofNat 64 i) = BitVec.ofNat 8 (v / 256 ^ i) := by
  have hoff : (a + BitVec.ofNat 64 i - a).toNat = i := by bv_omega
  unfold store
  dsimp only
  rw [hoff, if_pos hi]

/-- A load depends on its bytes only, wherever they are. -/
theorem load_eq_of_bytes (h : ∀ i, i < n → m (a + BitVec.ofNat 64 i) = m' (b + BitVec.ofNat 64 i)) :
    load m a n = load m' b n := by
  induction n generalizing a b with
  | zero => rfl
  | succ n ih =>
      have hfirst : m a = m' b := by simpa using h 0 (Nat.succ_pos n)
      unfold load
      rw [hfirst, ih (fun i hi => ?_)]
      have hrest := h (i + 1) (Nat.succ_lt_succ hi)
      have hnext : ∀ p : Addr, p + 1 + BitVec.ofNat 64 i = p + BitVec.ofNat 64 (i + 1) := by
        intro p
        bv_omega
      rw [hnext, hnext]
      exact hrest

/-- The number depends on its bytes only. -/
theorem load_congr (h : ∀ i, i < n → m (a + BitVec.ofNat 64 i) = m' (a + BitVec.ofNat 64 i)) :
    load m a n = load m' a n :=
  load_eq_of_bytes h

/-- A load of bytes that are known. -/
theorem load_of_bytes {v : Nat}
    (h : ∀ i, i < n → m (a + BitVec.ofNat 64 i) = BitVec.ofNat 8 (v / 256 ^ i)) :
    load m a n = v % 256 ^ n := by
  induction n generalizing a v with
  | zero =>
      rw [Nat.pow_zero, Nat.mod_one]
      rfl
  | succ n ih =>
      have hfirst : m a = BitVec.ofNat 8 v := by simpa using h 0 (Nat.succ_pos n)
      have hrest : load m (a + 1) n = v / 256 % 256 ^ n := by
        refine ih (fun i hi => ?_)
        have hi' := h (i + 1) (Nat.succ_lt_succ hi)
        have hnext : a + 1 + BitVec.ofNat 64 i = a + BitVec.ofNat 64 (i + 1) := by bv_omega
        rw [hnext, hi', Nat.div_div_eq_div_mul, ← Nat.pow_succ']
      have hsplit : v % 256 ^ (n + 1) = v % 256 + 256 * (v / 256 % 256 ^ n) := by
        rw [Nat.pow_succ', Nat.mod_mul]
      unfold load
      rw [hfirst, hrest, hsplit, BitVec.toNat_ofNat]

/-- A number is read back, as far as its bytes go. -/
theorem load_store (hn : n ≤ 2 ^ 64) (v : Nat) : load (store m a n v) a n = v % 256 ^ n :=
  load_of_bytes (fun _ hi => store_byte hi hn)

/-- Bytes that two memories share are loaded alike. -/
theorem load_eq_of_eqOn (hk : k ≤ 2 ^ 64) (h : ∀ p, Range.Has ⟨b, k⟩ p → m p = m' p) :
    load m b k = load m' b k := by
  refine load_congr (fun i hi => h _ ?_)
  unfold Range.Has
  dsimp only
  bv_omega

/-- A word depends on its eight bytes only. -/
theorem load64_eq_of_eqOn (h : ∀ p, Range.Has ⟨b, 8⟩ p → m p = m' p) :
    load64 m b = load64 m' b := by
  unfold load64
  rw [load_eq_of_eqOn (by decide) h]

/-- A store apart from a word leaves it. -/
theorem load64_store_apart {v : Nat} (h : Range.Apart ⟨a, n⟩ ⟨b, 8⟩) :
    load64 (store m a n v) b = load64 m b :=
  load64_eq_of_eqOn (fun p hp => store_apart (fun hc => h p hc hp))

/-- A word is read back. -/
@[simp] theorem load64_store64 (w : Word) : load64 (store64 m a w) a = w := by
  unfold load64 store64
  rw [load_store (by decide)]
  bv_omega

end LoadStore

/-! ## Arrays of words -/

/-- The `n` words from `a` on. -/
def words (m : Mem) (a : Addr) (n : Nat) : List Word :=
  (List.range n).map (fun i => load64 m (a + BitVec.ofNat 64 (8 * i)))

section Words

variable {m m' : Mem} {a b : Addr} {n : Nat}

/-- Words whose bytes are the same. -/
theorem words_eq_of_bytes
    (h : ∀ o, o < 8 * n → m (a + BitVec.ofNat 64 o) = m' (b + BitVec.ofNat 64 o)) :
    words m a n = words m' b n := by
  refine List.map_congr_left (fun i hi => ?_)
  have hi := List.mem_range.mp hi
  have hnext : ∀ (p : Addr) (k : Nat),
      p + BitVec.ofNat 64 (8 * i) + BitVec.ofNat 64 k = p + BitVec.ofNat 64 (8 * i + k) := by
    intro p k
    rw [BitVec.add_assoc, ← BitVec.ofNat_add]
  unfold load64
  refine congrArg _ (load_eq_of_bytes (fun k hk => ?_))
  rw [hnext, hnext]
  exact h (8 * i + k) (by omega)

/-- A word stored behind the array. -/
theorem words_store64 (hend : a.toNat + 8 * (n + 1) ≤ 2 ^ 64) (w : Word) :
    words (store64 m (a + BitVec.ofNat 64 (8 * n)) w) a (n + 1) = words m a n ++ [w] := by
  have hplace : ∀ i, i ≤ n → (a + BitVec.ofNat 64 (8 * i)).toNat = a.toNat + 8 * i := by
    intro i hi
    rw [BitVec.toNat_add, BitVec.toNat_ofNat, Nat.mod_eq_of_lt (by omega),
      Nat.mod_eq_of_lt (by omega)]
  unfold words
  rw [List.range_succ, List.map_append, List.map_singleton, load64_store64]
  refine congrArg (· ++ [w]) (List.map_congr_left (fun i hi => ?_))
  have hi := List.mem_range.mp hi
  refine load64_store_apart (apart_of_le ?_ ?_).symm
  · show (a + BitVec.ofNat 64 (8 * i)).toNat + 8 ≤ (a + BitVec.ofNat 64 (8 * n)).toNat
    rw [hplace i (by omega), hplace n (Nat.le_refl n)]
    omega
  · show (a + BitVec.ofNat 64 (8 * n)).toNat + 8 ≤ 2 ^ 64
    rw [hplace n (Nat.le_refl n)]
    omega

end Words

/-! ## Pushes -/

/-- The words are pushed one after the other; the pointer goes down first. -/
def pushAll (m : Mem) (sp : Addr) : List Word → Mem
  | [] => m
  | w :: ws => pushAll (store64 m (sp - 8) w) (sp - 8) ws

/-- The bytes below a stack pointer. -/
def below (sp : Addr) (size : Nat) : Range := ⟨sp - BitVec.ofNat 64 size, size⟩

/-- The place of the `i`-th word below a stack pointer. -/
def slot (sp : Addr) (i : Nat) : Addr := sp - BitVec.ofNat 64 (8 * (i + 1))

section Push

variable {m : Mem} {sp : Addr} {ws : List Word}

/-- Nothing but the bytes below the pointer is changed. -/
theorem pushAll_apart {p : Addr} (hlen : 8 * ws.length ≤ 2 ^ 64)
    (hp : ¬ (below sp (8 * ws.length)).Has p) : pushAll m sp ws p = m p := by
  induction ws generalizing m sp with
  | nil => rfl
  | cons w ws ih =>
      rw [List.length_cons] at hlen hp
      unfold pushAll
      rw [ih (by omega) (fun hc => hp ?_)]
      · refine store_apart (fun hc => hp ?_)
        unfold below Range.Has at *
        dsimp only at *
        bv_omega
      · unfold below Range.Has at *
        dsimp only at *
        bv_omega

/-- Each word is found at its place. -/
theorem load_pushAll {i : Nat} (hlen : 8 * ws.length ≤ 2 ^ 64) (hi : i < ws.length) :
    load64 (pushAll m sp ws) (slot sp i) = ws.getD i 0 := by
  induction ws generalizing m sp i with
  | nil => exact absurd hi (Nat.not_lt_zero i)
  | cons w ws ih =>
      rw [List.length_cons] at hlen hi
      unfold pushAll
      cases i with
      | zero =>
          rw [List.getD_cons_zero]
          -- the later words lie below this one
          have hkeep : load64 (pushAll (store64 m (sp - 8) w) (sp - 8) ws) (sp - 8)
              = load64 (store64 m (sp - 8) w) (sp - 8) := by
            refine load64_eq_of_eqOn (fun p hp => pushAll_apart (by omega) (fun hc => ?_))
            unfold below Range.Has at *
            dsimp only at *
            bv_omega
          have hplace : slot sp 0 = sp - 8 := rfl
          rw [hplace, hkeep, load64_store64]
      | succ i =>
          have hrest := @ih (store64 m (sp - 8) w) (sp - 8) i (by omega) (Nat.lt_of_succ_lt_succ hi)
          rw [List.getD_cons_succ, ← hrest]
          refine congrArg _ ?_
          unfold slot
          bv_omega

/-- The words below a pointer, when their bytes are the same. -/
theorem load_slot_congr {m' : Mem} {i n : Nat} (hi : i < n)
    (h : ∀ p, (below sp (8 * n)).Has p → m' p = m p) :
    load64 m' (slot sp i) = load64 m (slot sp i) := by
  refine load64_eq_of_eqOn (fun p hp => h p ?_)
  unfold below slot Range.Has at *
  dsimp only at *
  bv_omega

end Push

end ByteStore
