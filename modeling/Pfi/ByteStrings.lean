import Pfi.Builtins

/-! # Comparing and copying strings of bytes

    `memcmp`, `strlen`, `strcmp` and `strcpy` of `builtints.S`.  Each is one loop
    without a call in it, so it is given by what one pass does: come back to the
    label, or leave.  The addresses that are read are kept in the state.

    `memcmp` and `strcmp` zero-extend the two bytes before they subtract, so the
    result has the sign of the unsigned difference.  `Compares` says what a
    comparison of at most `n` bytes gives; it holds of a difference at once
    (`Compares.differ`), and an equal pair in front of a comparison makes one
    that is longer by one (`Compares.cons`), which is one pass of either loop.
    `strcmp` compares up to and with the first NUL of the shorter string.

    `strcpy` reads a byte before it writes one.  Where the buffers do not
    overlap, what it reads is what was there at the start, so it leaves `moved`
    memory. -/

namespace Pfi

open ByteStore StringOps

/-! ## Loops -/

/-- The registers, and the addresses that were read. -/
structure Reading extends Registers where
  reads : List Addr

/-- A pass through a loop comes back to its label, or leaves. -/
inductive Pass where
  | again (c : Reading)
  | leave (c : Reading)

/-- The loop, with a bound on its passes. -/
def runLoop (pass : Reading → Pass) : (fuel : Nat) → Reading → Option Reading
  | 0, _ => none
  | fuel + 1, c =>
      match pass c with
      | .again c => runLoop pass fuel c
      | .leave c => some c

/-- From some number of passes on the result is there. -/
def Ends (run : Nat → Option Reading) (c' : Reading) : Prop :=
  ∃ n, ∀ fuel, n ≤ fuel → run fuel = some c'

section Loop

variable {pass : Reading → Pass} {c d c' : Reading}

/-- A pass that leaves ends the loop. -/
theorem ends_leave (h : pass c = .leave d) : Ends (fun fuel => runLoop pass fuel c) d := by
  refine ⟨1, fun fuel hfuel => ?_⟩
  obtain ⟨k, rfl⟩ := Nat.exists_eq_add_of_le' hfuel
  show runLoop pass (k + 1) c = some d
  simp only [runLoop, h]

/-- A pass that comes back ends if the rest does. -/
theorem ends_again (h : pass c = .again d) (hrest : Ends (fun fuel => runLoop pass fuel d) c') :
    Ends (fun fuel => runLoop pass fuel c) c' := by
  obtain ⟨n, hn⟩ := hrest
  refine ⟨n + 1, fun fuel hfuel => ?_⟩
  obtain ⟨k, rfl⟩ := Nat.exists_eq_add_of_le' (Nat.le_trans (Nat.le_add_left 1 n) hfuel)
  show runLoop pass (k + 1) c = some c'
  simp only [runLoop, h]
  exact hn k (Nat.le_of_succ_le_succ hfuel)

end Loop

/-! ## The routines -/

def Registers.eax (c : Registers) : BitVec 32 := c.rax.setWidth 32
def Registers.ecx (c : Registers) : BitVec 32 := c.rcx.setWidth 32
def Registers.edx (c : Registers) : BitVec 32 := c.rdx.setWidth 32
def Registers.al (c : Registers) : BitVec 8 := c.rax.setWidth 8
def Registers.dl (c : Registers) : BitVec 8 := c.rdx.setWidth 8

/-- `movzbl`: the byte at an address, with zeros above it. -/
def Reading.movzbl (c : Reading) (a : Addr) : Word := (c.mem a).setWidth 64

/-- A byte is read. -/
def Reading.see (c : Reading) (a : Addr) : Reading := { c with reads := c.reads ++ [a] }

/-- From `.memcmp_loop` on. -/
def memcmpPass (c : Reading) : Pass :=
  let c : Reading := { c.see c.rdi with rax := c.movzbl c.rdi }
  let c : Reading := { c.see c.rsi with rcx := c.movzbl c.rsi }
  if c.eax ≠ c.ecx then .leave { c with rax := (c.eax - c.ecx).setWidth 64 }
  else
    let c : Reading := { c with rdi := c.rdi + 1, rsi := c.rsi + 1, rdx := c.rdx - 1 }
    if c.rdx ≠ 0 then .again c else .leave { c with rax := 0 }

/-- `int memcmp(void* a, void* b, size_t n)` -/
def memcmp (fuel : Nat) (c : Reading) : Option Reading :=
  if c.rdx = 0 then some { c with rax := 0 } else runLoop memcmpPass fuel c

/-- From `.strlen_loop` on. -/
def strlenPass (c : Reading) : Pass :=
  let c : Reading := { c.see (c.rdi + c.rax) with rdx := c.movzbl (c.rdi + c.rax) }
  if c.dl = 0 then .leave c else .again { c with rax := c.rax + 1 }

/-- `size_t strlen(char* a)` -/
def strlen (fuel : Nat) (c : Reading) : Option Reading :=
  runLoop strlenPass fuel { c with rax := 0 }

/-- From `.strcmp_loop` on. -/
def strcmpPass (c : Reading) : Pass :=
  let c : Reading := { c.see c.rdi with rax := c.movzbl c.rdi }
  let c : Reading := { c.see c.rsi with rdx := c.movzbl c.rsi }
  if c.eax ≠ c.edx then .leave { c with rax := (c.eax - c.edx).setWidth 64 }
  else if c.al = 0 then .leave { c with rax := 0 }
  else .again { c with rdi := c.rdi + 1, rsi := c.rsi + 1 }

/-- `int strcmp(char* a, char* b)` -/
def strcmp (fuel : Nat) (c : Reading) : Option Reading := runLoop strcmpPass fuel c

/-- From `.strcpy_loop` on; `movb` leaves the upper bytes of `rdx`. -/
def strcpyPass (c : Reading) : Pass :=
  let c : Reading := { c.see c.rsi with rdx := (c.rdx >>> 8 <<< 8) ||| c.movzbl c.rsi }
  let c : Reading := { c with mem := setByte c.mem c.rdi c.dl }
  let c : Reading := { c with rsi := c.rsi + 1, rdi := c.rdi + 1 }
  if c.dl ≠ 0 then .again c else .leave c

/-- `strcpy`, with `dst` in `rdi` and `src` in `rsi`. -/
def strcpy (fuel : Nat) (c : Reading) : Option Reading :=
  runLoop strcpyPass fuel { c with rax := c.rdi }

/-! ## Comparing -/

/-- The `i`-th byte from `a` on. -/
def byteAt (m : Mem) (a : Addr) (i : Nat) : BitVec 8 := m (a + BitVec.ofNat 64 i)

/-- The first byte. -/
theorem byteAt_zero (m : Mem) (a : Addr) : byteAt m a 0 = m a := by
  unfold byteAt
  rw [BitVec.add_zero]

/-- One byte further on. -/
theorem add_one_ofNat (a : Addr) (i : Nat) :
    a + 1 + BitVec.ofNat 64 i = a + BitVec.ofNat 64 (i + 1) := by
  bv_omega

/-- The bytes after the first. -/
theorem byteAt_succ (m : Mem) (a : Addr) (i : Nat) : byteAt m (a + 1) i = byteAt m a (i + 1) := by
  unfold byteAt
  rw [add_one_ofNat]

/-- `r` is the result for the first `n` bytes: zero where they are equal, and
    else with the sign of the first difference of unsigned bytes.  No byte is
    read behind one that differs. -/
structure Compares (m : Mem) (a b : Addr) (n : Nat) (r : Int) (reads : List Addr) : Prop where
  zero : r = 0 ↔ ∀ i < n, byteAt m a i = byteAt m b i
  sign : ∀ i < n, (∀ j < i, byteAt m a j = byteAt m b j) → byteAt m a i ≠ byteAt m b i →
    r.sign = ((byteAt m a i).toNat - (byteAt m b i).toNat : Int).sign
  reads : ∀ p ∈ reads, ∃ i < n, (p = a + BitVec.ofNat 64 i ∨ p = b + BitVec.ofNat 64 i) ∧
    ∀ j < i, byteAt m a j = byteAt m b j

/-- An `int` is the lower half of `rax`. -/
def Registers.result (c : Registers) : Int := c.eax.toInt

section Compare

variable {m : Mem} {a b : Addr} {n : Nat} {r : Int} {reads : List Addr}

/-- The comparison of two bytes in 32 bits. -/
theorem zeroExtend_eq_iff (x y : BitVec 8) :
    (x.setWidth 64 : Word).setWidth 32 = (y.setWidth 64 : Word).setWidth 32 ↔ x = y := by
  constructor
  · intro h
    have hnat := congrArg BitVec.toNat h
    simp only [BitVec.toNat_setWidth] at hnat
    bv_omega
  · intro h
    rw [h]

/-- Their difference. -/
theorem zeroExtend_sub (x y : BitVec 8) :
    ((((x.setWidth 64 : Word).setWidth 32 - (y.setWidth 64 : Word).setWidth 32 : BitVec 32).setWidth
      64 : Word).setWidth 32).toInt = (x.toNat : Int) - y.toNat := by
  have hx := x.isLt
  have hy := y.isLt
  rw [BitVec.toInt_eq_toNat_cond]
  simp only [BitVec.toNat_setWidth, BitVec.toNat_sub]
  split <;> omega

/-- The low byte of a byte with zeros above it. -/
theorem zeroExtend_low (x : BitVec 8) : (x.setWidth 64 : Word).setWidth 8 = x := by
  bv_omega

/-- Two first bytes that differ. -/
theorem Compares.differ (h : m a ≠ m b) (hn : 0 < n) :
    Compares m a b n ((m a).toNat - (m b).toNat : Int) [a, b] := by
  have hne : (m a).toNat ≠ (m b).toNat := fun hc => h (BitVec.eq_of_toNat_eq hc)
  refine ⟨⟨fun hz => ?_, fun hall => ?_⟩, fun i _ hbefore _ => ?_, fun p hp => ⟨0, hn, ?_, ?_⟩⟩
  · omega
  · have hfirst := hall 0 hn
    rw [byteAt_zero, byteAt_zero] at hfirst
    exact absurd hfirst h
  · -- the first difference is at index 0
    cases i with
    | zero => rw [byteAt_zero, byteAt_zero]
    | succ i =>
        have hfirst := hbefore 0 (Nat.succ_pos i)
        rw [byteAt_zero, byteAt_zero] at hfirst
        exact absurd hfirst h
  · rw [BitVec.add_zero, BitVec.add_zero]
    simpa using hp
  · intro j hj
    exact absurd hj (Nat.not_lt_zero j)

/-- Nothing to compare. -/
theorem Compares.nil : Compares m a b 0 0 [] :=
  ⟨⟨fun _ i hi => absurd hi (Nat.not_lt_zero i), fun _ => rfl⟩,
    fun i hi => absurd hi (Nat.not_lt_zero i), fun _ hp => absurd hp List.not_mem_nil⟩

/-- An equal pair in front. -/
theorem Compares.cons (h : m a = m b) (hrest : Compares m (a + 1) (b + 1) n r reads) :
    Compares m a b (n + 1) r (a :: b :: reads) := by
  have hzero : byteAt m a 0 = byteAt m b 0 := by
    rw [byteAt_zero, byteAt_zero]
    exact h
  have hall : ∀ k, (∀ j < k, byteAt m (a + 1) j = byteAt m (b + 1) j) →
      ∀ j < k + 1, byteAt m a j = byteAt m b j := by
    intro k hk j hj
    cases j with
    | zero => exact hzero
    | succ j =>
        rw [← byteAt_succ, ← byteAt_succ]
        exact hk j (Nat.lt_of_succ_lt_succ hj)
  refine ⟨⟨fun hr => hall n (hrest.zero.mp hr), fun heq => hrest.zero.mpr (fun i hi => ?_)⟩,
    fun i hi hbefore hne => ?_, fun p hp => ?_⟩
  · rw [byteAt_succ, byteAt_succ]
    exact heq (i + 1) (Nat.succ_lt_succ hi)
  · cases i with
    | zero => exact absurd hzero hne
    | succ i =>
        rw [← byteAt_succ, ← byteAt_succ] at hne ⊢
        refine hrest.sign i (Nat.lt_of_succ_lt_succ hi) (fun j hj => ?_) hne
        rw [byteAt_succ, byteAt_succ]
        exact hbefore (j + 1) (Nat.succ_lt_succ hj)
  · have hfirst : p = a ∨ p = b → ∃ i < n + 1,
        (p = a + BitVec.ofNat 64 i ∨ p = b + BitVec.ofNat 64 i) ∧
          ∀ j < i, byteAt m a j = byteAt m b j := by
      intro hp
      refine ⟨0, Nat.succ_pos n, ?_, fun j hj => absurd hj (Nat.not_lt_zero j)⟩
      rw [BitVec.add_zero, BitVec.add_zero]
      exact hp
    rcases List.mem_cons.mp hp with hp | hp
    · exact hfirst (Or.inl hp)
    rcases List.mem_cons.mp hp with hp | hp
    · exact hfirst (Or.inr hp)
    · obtain ⟨i, hi, hplace, hbefore⟩ := hrest.reads p hp
      rw [add_one_ofNat, add_one_ofNat] at hplace
      exact ⟨i + 1, Nat.succ_lt_succ hi, hplace, hall i hbefore⟩

end Compare

/-! ## `memcmp` -/

/-- What a comparison leaves: the result, the addresses that it read and
    memory. -/
structure ComparesTo (c : Reading) (n : Nat) (c' : Reading) : Prop where
  compares : ∃ seen, c'.reads = c.reads ++ seen ∧ Compares c.mem c.rdi c.rsi n c'.result seen
  mem : c'.mem = c.mem

section Memcmp

variable {c : Reading} {n : Nat}

/-- Different bytes end the comparison with their difference. -/
theorem memcmpPass_differ (h : c.mem c.rdi ≠ c.mem c.rsi) :
    ∃ d, memcmpPass c = .leave d ∧ d.mem = c.mem ∧ d.reads = c.reads ++ [c.rdi, c.rsi] ∧
      d.result = ((c.mem c.rdi).toNat - (c.mem c.rsi).toNat : Int) := by
  refine ⟨_, if_pos (fun hc => h ((zeroExtend_eq_iff _ _).mp hc)), rfl, ?_, zeroExtend_sub _ _⟩
  exact List.append_assoc _ _ _

/-- After equal bytes the pointers go on and the count goes down. -/
theorem memcmpPass_equal (h : c.mem c.rdi = c.mem c.rsi) :
    ∃ d : Reading, d.mem = c.mem ∧ d.reads = c.reads ++ [c.rdi, c.rsi] ∧ d.rdi = c.rdi + 1 ∧
      d.rsi = c.rsi + 1 ∧ d.rdx = c.rdx - 1 ∧
      memcmpPass c = if d.rdx ≠ 0 then .again d else .leave { d with rax := 0 } := by
  refine ⟨_, ?_, ?_, ?_, ?_, ?_, if_neg (fun hc => hc ((zeroExtend_eq_iff _ _).mpr h))⟩
  · rfl
  · exact List.append_assoc _ _ _
  · rfl
  · rfl
  · rfl

/-- The loop, by induction on the count. -/
theorem memcmp_loop (h : c.rdx.toNat = n + 1) :
    ∃ c', Ends (fun fuel => runLoop memcmpPass fuel c) c' ∧ ComparesTo c (n + 1) c' := by
  induction n generalizing c with
  | zero =>
      by_cases hbyte : c.mem c.rdi = c.mem c.rsi
      · obtain ⟨d, hmem, hreads, -, -, hdx, hpass⟩ := memcmpPass_equal hbyte
        have hlast : d.rdx = 0 := by
          rw [hdx]
          bv_omega
        rw [if_neg (fun hc => hc hlast)] at hpass
        exact ⟨_, ends_leave hpass, ⟨_, hreads, Compares.nil.cons hbyte⟩, hmem⟩
      · obtain ⟨d, hpass, hmem, hreads, hres⟩ := memcmpPass_differ hbyte
        refine ⟨d, ends_leave hpass, ⟨_, hreads, ?_⟩, hmem⟩
        rw [hres]
        exact Compares.differ hbyte (Nat.succ_pos 0)
  | succ n ih =>
      by_cases hbyte : c.mem c.rdi = c.mem c.rsi
      · obtain ⟨d, hmem, hreads, hdi, hsi, hdx, hpass⟩ := memcmpPass_equal hbyte
        have hcount : d.rdx.toNat = n + 1 := by
          rw [hdx]
          bv_omega
        have hmore : d.rdx ≠ 0 := by
          intro hc
          rw [hc] at hcount
          exact absurd hcount (Nat.succ_ne_zero n).symm
        rw [if_pos hmore] at hpass
        obtain ⟨c', hends, ⟨seen, hseen, hcomp⟩, hmem'⟩ := ih hcount
        rw [hmem, hdi, hsi] at hcomp
        refine ⟨c', ends_again hpass hends, ⟨_, ?_, hcomp.cons hbyte⟩, hmem'.trans hmem⟩
        rw [hseen, hreads, List.append_assoc]
        rfl
      · obtain ⟨d, hpass, hmem, hreads, hres⟩ := memcmpPass_differ hbyte
        refine ⟨d, ends_leave hpass, ⟨_, hreads, ?_⟩, hmem⟩
        rw [hres]
        exact Compares.differ hbyte (Nat.succ_pos _)

/-- `memcmp` comes back from every call, at the first difference or after all
    bytes. -/
theorem memcmp_compares (c : Reading) :
    ∃ c', Ends (fun fuel => memcmp fuel c) c' ∧ ComparesTo c c.rdx.toNat c' := by
  by_cases h : c.rdx = 0
  · refine ⟨{ c with rax := 0 }, ⟨0, fun fuel _ => if_pos h⟩,
      ⟨[], (List.append_nil _).symm, ?_⟩, rfl⟩
    rw [h]
    exact Compares.nil
  · have hpos : c.rdx.toNat ≠ 0 := fun hc => h (BitVec.eq_of_toNat_eq hc)
    obtain ⟨n, hn⟩ := Nat.exists_eq_succ_of_ne_zero hpos
    obtain ⟨c', ⟨k, hends⟩, hres⟩ := memcmp_loop hn
    rw [hn]
    refine ⟨c', ⟨k, fun fuel hfuel => ?_⟩, hres⟩
    show memcmp fuel c = some c'
    unfold memcmp
    rw [if_neg h]
    exact hends fuel hfuel

end Memcmp

/-! ## Strings -/

/-- A string of `l` bytes at `a`, with its NUL. -/
structure StringAt (m : Mem) (a : Addr) (l : Nat) : Prop where
  short : l < 2 ^ 64
  nonzero : ∀ i < l, byteAt m a i ≠ 0
  nul : byteAt m a l = 0

section Strings

variable {m : Mem} {a b : Addr} {l l' : Nat} {c : Reading}

/-- A string without its first character. -/
theorem StringAt.tail (h : StringAt m a (l + 1)) : StringAt m (a + 1) l := by
  refine ⟨Nat.lt_of_succ_lt h.short, fun i hi => ?_, ?_⟩
  · rw [byteAt_succ]
    exact h.nonzero (i + 1) (Nat.succ_lt_succ hi)
  · rw [byteAt_succ]
    exact h.nul

/-- The first character of a string is not the end. -/
theorem StringAt.head (h : StringAt m a (l + 1)) : m a ≠ 0 := by
  rw [← byteAt_zero m a]
  exact h.nonzero 0 (Nat.succ_pos l)

/-- An empty string is its end. -/
theorem StringAt.empty (h : StringAt m a 0) : m a = 0 := by
  rw [← byteAt_zero m a]
  exact h.nul

/-- The first byte is the NUL exactly in the empty string. -/
theorem StringAt.head_iff (h : StringAt m a l) : m a = 0 ↔ l = 0 := by
  cases l with
  | zero => exact ⟨fun _ => rfl, fun _ => h.empty⟩
  | succ l => exact ⟨fun hz => absurd hz h.head, fun hz => absurd hz (Nat.succ_ne_zero l)⟩

/-- Strings are equal when the bytes up to and with the first NUL are. -/
theorem strings_eq_iff (h : StringAt m a l) (h' : StringAt m b l') :
    (∀ i < min l l' + 1, byteAt m a i = byteAt m b i) ↔
      l = l' ∧ ∀ i < l, byteAt m a i = byteAt m b i := by
  constructor
  · intro hall
    have hlast := hall (min l l') (Nat.lt_succ_self _)
    have hlen : l = l' := by
      rcases Nat.lt_trichotomy l l' with hlt | heq | hlt
      · rw [Nat.min_eq_left (Nat.le_of_lt hlt), h.nul] at hlast
        exact absurd hlast.symm (h'.nonzero l hlt)
      · exact heq
      · rw [Nat.min_eq_right (Nat.le_of_lt hlt), h'.nul] at hlast
        exact absurd hlast (h.nonzero l' hlt)
    refine ⟨hlen, fun i hi => hall i ?_⟩
    omega
  · rintro ⟨rfl, hall⟩ i hi
    rw [Nat.min_self] at hi
    rcases Nat.lt_succ_iff_lt_or_eq.mp hi with hi | rfl
    · exact hall i hi
    · rw [h.nul, h'.nul]

/-! ## `strcmp` -/

/-- Different characters end the comparison with their difference. -/
theorem strcmpPass_differ (h : c.mem c.rdi ≠ c.mem c.rsi) :
    ∃ d, strcmpPass c = .leave d ∧ d.mem = c.mem ∧ d.reads = c.reads ++ [c.rdi, c.rsi] ∧
      d.result = ((c.mem c.rdi).toNat - (c.mem c.rsi).toNat : Int) := by
  refine ⟨_, if_pos (fun hc => h ((zeroExtend_eq_iff _ _).mp hc)), rfl, ?_, zeroExtend_sub _ _⟩
  exact List.append_assoc _ _ _

/-- After equal characters the pointers go on, or the strings end together. -/
theorem strcmpPass_equal (h : c.mem c.rdi = c.mem c.rsi) :
    ∃ d : Reading, d.mem = c.mem ∧ d.reads = c.reads ++ [c.rdi, c.rsi] ∧ d.rdi = c.rdi ∧
      d.rsi = c.rsi ∧
      strcmpPass c = if c.mem c.rdi = 0 then .leave { d with rax := 0 }
        else .again { d with rdi := d.rdi + 1, rsi := d.rsi + 1 } := by
  refine ⟨{ (c.see c.rdi).see c.rsi with rax := c.movzbl c.rdi, rdx := c.movzbl c.rsi },
    rfl, List.append_assoc _ _ _, rfl, rfl, ?_⟩
  have hlow := zeroExtend_low (c.mem c.rdi)
  refine (if_neg (fun hc => hc ((zeroExtend_eq_iff _ _).mpr h))).trans ?_
  by_cases hz : c.mem c.rdi = 0
  · rw [if_pos hz]
    exact if_pos (hlow.trans hz)
  · rw [if_neg hz]
    exact if_neg (fun hc => hz (hlow.symm.trans hc))

/-- By induction on the first string. -/
theorem strcmp_compares (h : StringAt c.mem c.rdi l) (h' : StringAt c.mem c.rsi l') :
    ∃ c', Ends (fun fuel => strcmp fuel c) c' ∧ ComparesTo c (min l l' + 1) c' := by
  induction l generalizing c l' with
  | zero =>
      by_cases hbyte : c.mem c.rdi = c.mem c.rsi
      · obtain ⟨d, hmem, hreads, -, -, hpass⟩ := strcmpPass_equal hbyte
        rw [if_pos h.empty] at hpass
        rw [Nat.zero_min]
        exact ⟨_, ends_leave hpass, ⟨_, hreads, Compares.nil.cons hbyte⟩, hmem⟩
      · obtain ⟨d, hpass, hmem, hreads, hres⟩ := strcmpPass_differ hbyte
        refine ⟨d, ends_leave hpass, ⟨_, hreads, ?_⟩, hmem⟩
        rw [hres]
        exact Compares.differ hbyte (Nat.succ_pos _)
  | succ l ih =>
      by_cases hbyte : c.mem c.rdi = c.mem c.rsi
      · obtain ⟨d, hmem, hreads, hdi, hsi, hpass⟩ := strcmpPass_equal hbyte
        rw [if_neg h.head] at hpass
        -- the other string is not at its end either
        obtain ⟨k, rfl⟩ : ∃ k, l' = k + 1 := by
          refine Nat.exists_eq_succ_of_ne_zero (fun hz => h.head ?_)
          rw [hbyte]
          exact h'.head_iff.mpr hz
        have hs : StringAt d.mem (d.rdi + 1) l := by
          rw [hmem, hdi]
          exact h.tail
        have hs' : StringAt d.mem (d.rsi + 1) k := by
          rw [hmem, hsi]
          exact h'.tail
        obtain ⟨c', hends, ⟨seen, hseen, hcomp⟩, hmem'⟩ :=
          ih (c := { d with rdi := d.rdi + 1, rsi := d.rsi + 1 }) hs hs'
        dsimp only at hcomp hseen hmem'
        rw [hmem, hdi, hsi] at hcomp
        rw [Nat.succ_min_succ]
        refine ⟨c', ends_again hpass hends, ⟨_, ?_, hcomp.cons hbyte⟩, hmem'.trans hmem⟩
        rw [hseen, hreads, List.append_assoc]
        rfl
      · obtain ⟨d, hpass, hmem, hreads, hres⟩ := strcmpPass_differ hbyte
        refine ⟨d, ends_leave hpass, ⟨_, hreads, ?_⟩, hmem⟩
        rw [hres]
        exact Compares.differ hbyte (Nat.succ_pos _)

/-! ## `strlen` -/

/-- The length is returned, and nothing is read behind the NUL. -/
structure Measures (c : Reading) (l : Nat) (c' : Reading) : Prop where
  length : c'.rax.toNat = l
  reads : ∃ seen, c'.reads = c.reads ++ seen ∧
    ∀ p ∈ seen, ∃ i, i ≤ l ∧ p = c.rdi + BitVec.ofNat 64 i
  mem : c'.mem = c.mem

/-- The character that the counter points at. -/
theorem rdi_add_rax (c : Reading) : c.rdi + c.rax = c.rdi + BitVec.ofNat 64 c.rax.toNat := by
  rw [BitVec.ofNat_toNat, BitVec.setWidth_eq]

/-- The end of the string ends the count. -/
theorem strlenPass_nul (h : byteAt c.mem c.rdi c.rax.toNat = 0) :
    ∃ d : Reading, d.mem = c.mem ∧ d.rax = c.rax ∧
      d.reads = c.reads ++ [c.rdi + BitVec.ofNat 64 c.rax.toNat] ∧ strlenPass c = .leave d := by
  unfold byteAt at h
  rw [← rdi_add_rax] at h ⊢
  exact ⟨{ c.see (c.rdi + c.rax) with rdx := c.movzbl (c.rdi + c.rax) }, rfl, rfl, rfl,
    if_pos ((zeroExtend_low _).trans h)⟩

/-- Any other character is counted. -/
theorem strlenPass_next (h : byteAt c.mem c.rdi c.rax.toNat ≠ 0) :
    ∃ d : Reading, d.mem = c.mem ∧ d.rdi = c.rdi ∧ d.rax = c.rax + 1 ∧
      d.reads = c.reads ++ [c.rdi + BitVec.ofNat 64 c.rax.toNat] ∧ strlenPass c = .again d := by
  unfold byteAt at h
  rw [← rdi_add_rax] at h ⊢
  exact ⟨{ c.see (c.rdi + c.rax) with rdx := c.movzbl (c.rdi + c.rax), rax := c.rax + 1 },
    rfl, rfl, rfl, rfl, if_neg (fun hc => h ((zeroExtend_low _).symm.trans hc))⟩

/-- By induction on what is left of the string. -/
theorem strlen_loop {k : Nat} (h : StringAt c.mem c.rdi l) (hk : c.rax.toNat + k = l) :
    ∃ c', Ends (fun fuel => runLoop strlenPass fuel c) c' ∧ Measures c l c' := by
  have hshort := h.short
  induction k generalizing c with
  | zero =>
      have hend : byteAt c.mem c.rdi c.rax.toNat = 0 := by
        rw [show c.rax.toNat = l from hk]
        exact h.nul
      obtain ⟨d, hmem, hax, hreads, hpass⟩ := strlenPass_nul hend
      refine ⟨d, ends_leave hpass, ?_, ⟨_, hreads, fun p hp => ?_⟩, hmem⟩
      · rw [hax]
        exact hk
      · exact ⟨c.rax.toNat, Nat.le_of_eq hk, List.mem_singleton.mp hp⟩
  | succ k ih =>
      have hmore := h.nonzero c.rax.toNat (by omega)
      obtain ⟨d, hmem, hdi, hax, hreads, hpass⟩ := strlenPass_next hmore
      have hd : StringAt d.mem d.rdi l := by
        rw [hmem, hdi]
        exact h
      have hnext : d.rax.toNat + k = l := by
        rw [hax]
        bv_omega
      obtain ⟨c', hends, hlen, ⟨seen, hseen, hin⟩, hmem'⟩ := ih hd hnext
      refine ⟨c', ends_again hpass hends, hlen,
        ⟨(c.rdi + BitVec.ofNat 64 c.rax.toNat) :: seen, ?_, fun p hp => ?_⟩, hmem'.trans hmem⟩
      · rw [hseen, hreads, List.append_assoc]
        rfl
      · rcases List.mem_cons.mp hp with hp | hp
        · exact ⟨c.rax.toNat, by omega, hp⟩
        · rw [hdi] at hin
          exact hin p hp

/-- `strlen` comes back with the length of the string. -/
theorem strlen_measures (h : StringAt c.mem c.rdi l) :
    ∃ c', Ends (fun fuel => strlen fuel c) c' ∧ Measures c l c' := by
  obtain ⟨c', hends, hlen, hreads, hmem⟩ := @strlen_loop l { c with rax := 0 } l h (Nat.zero_add l)
  exact ⟨c', hends, hlen, hreads, hmem⟩

/-! ## `strcpy` -/

/-- The string and its NUL are copied, and `dst` is returned. -/
structure CopiesString (c : Reading) (l : Nat) (c' : Reading) : Prop where
  mem : c'.mem = moved c.mem false c.rdi c.rsi (l + 1)
  ret : c'.rax = c.rdi

/-- A character is copied, and the one that ends the string is the last. -/
theorem strcpyPass_eq (c : Reading) :
    ∃ d : Reading, d.mem = setByte c.mem c.rdi (c.mem c.rsi) ∧ d.rsi = c.rsi + 1 ∧
      d.rdi = c.rdi + 1 ∧ d.rax = c.rax ∧
      strcpyPass c = if c.mem c.rsi ≠ 0 then .again d else .leave d := by
  have hlow : ((c.rdx >>> 8 <<< 8) ||| c.movzbl c.rsi).setWidth 8 = c.mem c.rsi := by
    unfold Reading.movzbl
    ext i hi
    simp
  refine ⟨{ c.see c.rsi with
    rdx := (c.rdx >>> 8 <<< 8) ||| c.movzbl c.rsi, rsi := c.rsi + 1, rdi := c.rdi + 1
    mem := setByte c.mem c.rdi (c.mem c.rsi) }, rfl, rfl, rfl, rfl, ?_⟩
  unfold strcpyPass Registers.dl
  dsimp only [Reading.see]
  rw [hlow]

/-- A copy of one byte. -/
theorem movs_one (m : Mem) (dst src : Addr) : movs m false dst src 1 = setByte m dst (m src) := by
  rw [movs_succ, place_up, place_up, BitVec.add_zero, BitVec.add_zero]
  rfl

/-- The bytes that are still to be copied are `movs` on what is there.  By
    induction on their number. -/
theorem strcpy_loop (h : StringAt c.mem c.rsi l)
    (hunread : ∀ i j, i < l + 1 → j < l + 1 →
      c.rsi + BitVec.ofNat 64 i ≠ c.rdi + BitVec.ofNat 64 j) :
    ∃ c', Ends (fun fuel => runLoop strcpyPass fuel c) c' ∧
      c'.mem = movs c.mem false c.rdi c.rsi (l + 1) ∧ c'.rax = c.rax := by
  induction l generalizing c with
  | zero =>
      obtain ⟨d, hmem, -, -, hax, hpass⟩ := strcpyPass_eq c
      rw [if_neg (fun hc => hc h.empty)] at hpass
      exact ⟨d, ends_leave hpass, hmem.trans (movs_one _ _ _).symm, hax⟩
  | succ l ih =>
      obtain ⟨d, hmem, hsi, hdi, hax, hpass⟩ := strcpyPass_eq c
      rw [if_pos h.head] at hpass
      -- the byte that is written is not one of the source
      have hkeep : ∀ i, i < l + 1 → byteAt d.mem d.rsi i = byteAt c.mem (c.rsi + 1) i := by
        intro i hi
        have hapart := hunread (i + 1) 0 (Nat.succ_lt_succ hi) (Nat.succ_pos _)
        rw [BitVec.add_zero] at hapart
        unfold byteAt
        rw [hmem, hsi, add_one_ofNat, setByte_ne hapart]
      have hs : StringAt d.mem d.rsi l := by
        refine ⟨h.tail.short, fun i hi => ?_, ?_⟩
        · rw [hkeep i (Nat.lt_succ_of_lt hi)]
          exact h.tail.nonzero i hi
        · rw [hkeep l (Nat.lt_succ_self l)]
          exact h.tail.nul
      have hunread' : ∀ i j, i < l + 1 → j < l + 1 →
          d.rsi + BitVec.ofNat 64 i ≠ d.rdi + BitVec.ofNat 64 j := by
        intro i j hi hj
        rw [hsi, hdi, add_one_ofNat, add_one_ofNat]
        exact hunread (i + 1) (j + 1) (Nat.succ_lt_succ hi) (Nat.succ_lt_succ hj)
      obtain ⟨c', hends, hcopied, hret⟩ := ih hs hunread'
      refine ⟨c', ends_again hpass hends, ?_, hret.trans hax⟩
      have hsplit := @movs_add c.mem false c.rdi c.rsi 1 (l + 1)
      rw [place_up, place_up, movs_one] at hsplit
      rw [hcopied, hmem, hdi, hsi, Nat.add_comm (l + 1) 1]
      exact hsplit.symm

/-- `strcpy` comes back with the string copied to a place apart from it. -/
theorem strcpy_copies (h : StringAt c.mem c.rsi l)
    (hapart : Range.Apart ⟨c.rdi, l + 1⟩ ⟨c.rsi, l + 1⟩) :
    ∃ c', Ends (fun fuel => strcpy fuel c) c' ∧ CopiesString c l c' := by
  have hshort := h.short
  have hunread : ∀ i j, i < l + 1 → j < l + 1 →
      c.rsi + BitVec.ofNat 64 i ≠ c.rdi + BitVec.ofNat 64 j := by
    intro i j hi hj heq
    have hhas : ∀ (a : Addr) k, k < l + 1 → Range.Has ⟨a, l + 1⟩ (a + BitVec.ofNat 64 k) := by
      intro a k hk
      show (a + BitVec.ofNat 64 k - a).toNat < l + 1
      rw [← place_up]
      exact (@offset_place false a k (by omega)).trans_lt hk
    have hsrc := hhas c.rsi i hi
    rw [heq] at hsrc
    exact hapart _ (hhas c.rdi j hj) hsrc
  obtain ⟨c', hends, hmem, hret⟩ := @strcpy_loop l { c with rax := c.rdi } h hunread
  refine ⟨c', hends, ?_, hret⟩
  rw [hmem]
  refine movs_eq_moved (by omega) (fun i j hi hj heq => ?_)
  rw [place_up, place_up] at heq
  exact hunread i j hi (Nat.lt_trans hj hi) heq

end Strings

/-! ## All four -/

/-- `memcmp` and `strcmp` compare unsigned bytes and read none behind the first
    difference, `strlen` gives the length, and `strcpy` copies the string with
    its NUL. -/
theorem byte_strings_compared (c : Reading) :
    (∃ c', Ends (fun fuel => memcmp fuel c) c' ∧ ComparesTo c c.rdx.toNat c') ∧
      (∀ l l', StringAt c.mem c.rdi l → StringAt c.mem c.rsi l' →
        ((∀ i < min l l' + 1, byteAt c.mem c.rdi i = byteAt c.mem c.rsi i) ↔
          l = l' ∧ ∀ i < l, byteAt c.mem c.rdi i = byteAt c.mem c.rsi i) ∧
        ∃ c', Ends (fun fuel => strcmp fuel c) c' ∧ ComparesTo c (min l l' + 1) c') ∧
      (∀ l, StringAt c.mem c.rdi l →
        ∃ c', Ends (fun fuel => strlen fuel c) c' ∧ Measures c l c') ∧
      ∀ l, StringAt c.mem c.rsi l → Range.Apart ⟨c.rdi, l + 1⟩ ⟨c.rsi, l + 1⟩ →
        ∃ c', Ends (fun fuel => strcpy fuel c) c' ∧ CopiesString c l c' :=
  ⟨memcmp_compares c, fun _ _ h h' => ⟨strings_eq_iff h h', strcmp_compares h h'⟩,
    fun _ h => strlen_measures h, fun _ h hapart => strcpy_copies h hapart⟩

/-- The strings "ab" and "acd". -/
def twoStrings : Reading :=
  { rax := 0, rcx := 0, rdx := 3, rsi := 0x2000, rdi := 0x1000, r8 := 0, df := false
    mem := fun p => if p = 0x1000 ∨ p = 0x2000 then 0x61 else if p = 0x1001 then 0x62
      else if p = 0x2001 then 0x63 else if p = 0x2002 then 0x64 else 0
    reads := [] }

theorem byte_strings_compared_two :
    (∃ c', Ends (fun fuel => memcmp fuel twoStrings) c' ∧ ComparesTo twoStrings 3 c') ∧
      (∃ c', Ends (fun fuel => strcmp fuel twoStrings) c' ∧ ComparesTo twoStrings 3 c') ∧
      (∃ c', Ends (fun fuel => strlen fuel twoStrings) c' ∧ Measures twoStrings 2 c') ∧
      ∃ c', Ends (fun fuel => strcpy fuel twoStrings) c' ∧ CopiesString twoStrings 3 c' := by
  have hdst : StringAt twoStrings.mem twoStrings.rdi 2 := ⟨by decide, by decide, by decide⟩
  have hsrc : StringAt twoStrings.mem twoStrings.rsi 3 := ⟨by decide, by decide, by decide⟩
  have hapart : Range.Apart ⟨twoStrings.rdi, 3 + 1⟩ ⟨twoStrings.rsi, 3 + 1⟩ :=
    apart_of_le (by decide) (by decide)
  obtain ⟨hmem, hcmp, hlen, hcpy⟩ := byte_strings_compared twoStrings
  exact ⟨hmem, (hcmp 2 3 hdst hsrc).2, hlen 2 hdst, hcpy 3 hsrc hapart⟩

end Pfi
