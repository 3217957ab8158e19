import Mathlib.Data.List.Basic
import Mathlib.Data.List.Nodup
import Mathlib.Logic.Function.Basic
import Pfi.Run

/-! # Output in sections

    Threads send values through a register that has room for one of them: a
    thread waits until it is empty and then puts a value, the device takes the
    value away at any time, and a value that is put while the register is full is
    lost.  Around this the threads acquire and release locks.

    A code is `Within` its sections when it acquires no lock twice, releases the
    last one first, and puts a value right after the register was seen to be
    empty, with the lock `port` held.  Then no value is lost, each thread sends what it
    was called for, and for each lock the values that were sent with it held are the
    texts of its sections, one after the other and no two mixed, with a first
    part of one more while a thread is in it.  Each text is all of one thread, and
    those of a thread are the texts of its calls in order (`Fits.whole`).

    The sections of a code are found from its parts (`Block`). -/

namespace Sections

open Run

/-- An access of a thread.  The text at a release is no part of the code: it says
    what the section has sent. -/
inductive Act (L B : Type) where
  | acquire (l : L)
  | release (l : L) (text : List B)
  | ready
  | put (b : B)

/-- A value in the output, with the locks that its thread held. -/
structure Sent (L C B : Type) where
  thread : C
  value : B
  under : L → Bool

/-- The holders of the locks, what is left of each thread's code, the register,
    and what came out of it.  No code reads the others: the values that were
    lost, the texts of the sections that ended with their threads, and the calls
    of each thread. -/
structure State (L C B K : Type) where
  held : L → Option C := fun _ => none
  cont : C → List (Act L B) := fun _ => []
  full : Bool
  out : List (Sent L C B) := []
  lost : List B := []
  texts : L → List (C × List B) := fun _ => []
  calls : C → List K := fun _ => []

/-! ## The machine -/

section Machine

variable {L C B K : Type}

/-- What an act sends. -/
def Act.puts : Act L B → List B
  | .put b => [b]
  | _ => []

/-- What a code sends. -/
def puts (k : List (Act L B)) : List B := k.flatMap Act.puts

/-- Nothing is sent by no code. -/
@[simp] theorem puts_nil : puts ([] : List (Act L B)) = [] := rfl

/-- What the first act sends comes first. -/
@[simp] theorem puts_cons (a : Act L B) (k : List (Act L B)) : puts (a :: k) = a.puts ++ puts k :=
  rfl

/-- What is sent by codes that follow each other. -/
@[simp] theorem puts_append (j k : List (Act L B)) : puts (j ++ k) = puts j ++ puts k :=
  List.flatMap_append

/-- What was sent with a lock held, each value with its thread. -/
def State.under (s : State L C B K) (l : L) : List (C × B) :=
  (s.out.filter (fun e => e.under l)).map (fun e => (e.thread, e.value))

/-- The values of a text, each with the thread of the text. -/
def spoken (e : C × List B) : List (C × B) := e.2.map (fun b => (e.1, b))

/-- No thread runs and nothing was sent. -/
def State.Idle (s : State L C B K) : Prop := ∃ full, s = { full := full }

variable [DecidableEq C]

/-- The texts of a thread. -/
def ofThread (ts : List (C × List B)) (c : C) : List (List B) :=
  (ts.filter (fun e => decide (e.1 = c))).map Prod.snd

/-- The texts of a thread in a list and in the next one. -/
@[simp] theorem ofThread_append (ts us : List (C × List B)) (c : C) :
    ofThread (ts ++ us) c = ofThread ts c ++ ofThread us c := by
  unfold ofThread
  rw [List.filter_append, List.map_append]

/-- One text is its own thread's. -/
theorem ofThread_singleton (d : C) (t : List B) (c : C) :
    ofThread [(d, t)] c = if d = c then [t] else [] := by
  unfold ofThread
  by_cases h : d = c
  · simp [h]
  · simp [h]

/-- What a thread has sent. -/
def State.sentBy (s : State L C B K) (c : C) : List B :=
  (s.out.filter (fun e => decide (e.thread = c))).map Sent.value

/-- Thread `c` goes on with `k`. -/
def State.goOn (s : State L C B K) (c : C) (k : List (Act L B)) : State L C B K :=
  { s with cont := Function.update s.cont c k }

/-- A value is put in the register. -/
def State.put (s : State L C B K) (c : C) (b : B) : State L C B K :=
  if s.full = true then { s with lost := s.lost ++ [b] }
  else
    { s with
      full := true
      out := s.out ++ [⟨c, b, fun l => decide (s.held l = some c)⟩] }

variable [DecidableEq L]

/-- A step of a thread or of the device. -/
inductive Step (code : K → List (Act L B)) : State L C B K → State L C B K → Prop where
  | call {s : State L C B K} {c : C} (call : K) :
      s.cont c = [] →
      Step code s
        { s.goOn c (code call) with calls := Function.update s.calls c (s.calls c ++ [call]) }
  | acquire {s : State L C B K} {c : C} {l : L} {k : List (Act L B)} :
      s.cont c = .acquire l :: k → s.held l = none →
      Step code s { s.goOn c k with held := Function.update s.held l (some c) }
  | release {s : State L C B K} {c : C} {l : L} {text : List B} {k : List (Act L B)} :
      s.cont c = .release l text :: k →
      Step code s
        { s.goOn c k with
          held := Function.update s.held l none
          texts := Function.update s.texts l (s.texts l ++ [(c, text)]) }
  | ready {s : State L C B K} {c : C} {k : List (Act L B)} :
      s.cont c = .ready :: k → s.full = false → Step code s (s.goOn c k)
  | put {s : State L C B K} {c : C} {b : B} {k : List (Act L B)} :
      s.cont c = .put b :: k → Step code s ((s.goOn c k).put c b)
  | drain {s : State L C B K} : Step code s { s with full := false }

end Machine

/-! ## Sections of a code -/

section Codes

variable {L B : Type} {port : L}

/-- The open sections, each with what was sent in it. -/
abbrev Opens (L B : Type) := List (L × List B)

/-- Something is sent in each open section. -/
def addTo (bs : List B) (o : Opens L B) : Opens L B := o.map (fun e => (e.1, e.2 ++ bs))

/-- To send nothing changes no section. -/
@[simp] theorem addTo_nil (o : Opens L B) : addTo [] o = o := by
  unfold addTo
  simp

/-- To send after sending. -/
@[simp] theorem addTo_addTo (bs cs : List B) (o : Opens L B) :
    addTo cs (addTo bs o) = addTo (bs ++ cs) o := by
  unfold addTo
  simp

/-- Sending opens and ends no section. -/
@[simp] theorem addTo_fst (bs : List B) (o : Opens L B) :
    (addTo bs o).map Prod.fst = o.map Prod.fst := by
  unfold addTo
  simp

/-- The rest of a code, with the sections that are open and whether the register
    was just seen to be empty. -/
def Within (port : L) : Opens L B → (primed : Bool) → List (Act L B) → Prop
  | o, _, [] => o = []
  | o, _, .acquire l :: k => l ∉ o.map Prod.fst ∧ Within port ((l, []) :: o) false k
  | o, _, .release l text :: k => ∃ o', o = (l, text) :: o' ∧ Within port o' false k
  | o, _, .ready :: k => port ∈ o.map Prod.fst ∧ Within port o true k
  | o, primed, .put b :: k => primed = true ∧ Within port (addTo [b] o) false k

/-- A code that would look at the register first may have done so already. -/
theorem Within.primed {o : Opens L B} {k : List (Act L B)} (h : Within port o false k)
    (primed : Bool) : Within port o primed k := by
  cases k with
  | nil => exact h
  | cons a k =>
      cases a with
      | acquire l => exact h
      | release l text => exact h
      | ready => exact h
      | put b => exact absurd h.1 Bool.false_ne_true

section Texts

variable [DecidableEq L]

/-- The text of the section that an act ends, if it is one of the lock. -/
def Act.textUnder (l : L) : Act L B → List (List B)
  | .release l' text => if l' = l then [text] else []
  | _ => []

/-- The end of a section of the lock. -/
theorem Act.textUnder_self (l : L) (text : List B) :
    (Act.release l text).textUnder l = [text] := if_pos rfl

/-- The end of a section of another lock. -/
theorem Act.textUnder_of_ne {l l' : L} (h : l' ≠ l) (text : List B) :
    (Act.release l' text).textUnder l = [] := if_neg h

/-- The texts of the sections of a lock, in the order in which they end. -/
def textsUnder (l : L) (k : List (Act L B)) : List (List B) := k.flatMap (Act.textUnder l)

/-- No code ends no section. -/
@[simp] theorem textsUnder_nil (l : L) : textsUnder l ([] : List (Act L B)) = [] := rfl

/-- The section that the first act ends comes first. -/
@[simp] theorem textsUnder_cons (l : L) (a : Act L B) (k : List (Act L B)) :
    textsUnder l (a :: k) = a.textUnder l ++ textsUnder l k := rfl

/-- The texts of codes that follow each other. -/
@[simp] theorem textsUnder_append (l : L) (j k : List (Act L B)) :
    textsUnder l (j ++ k) = textsUnder l j ++ textsUnder l k := List.flatMap_append

/-- The texts of a code that is put together from parts. -/
theorem textsUnder_flatMap {α : Type} (l : L) (as : List α) (f : α → List (Act L B)) :
    textsUnder l (as.flatMap f) = as.flatMap (fun a => textsUnder l (f a)) := by
  induction as with
  | nil => rfl
  | cons a as ih => rw [List.flatMap_cons, List.flatMap_cons, textsUnder_append, ih]

/-- Of the open sections of a lock, the next one to end has the text of which a
    part was sent. -/
theorem Within.next_text {o : Opens L B} {primed : Bool} {k : List (Act L B)}
    (h : Within port o primed k) (hnodup : (o.map Prod.fst).Nodup) {l : L} {t : List B}
    (hin : (l, t) ∈ o) : ∃ rest more, textsUnder l k = (t ++ rest) :: more := by
  induction k generalizing o primed t with
  | nil =>
      have hnil : o = [] := h
      rw [hnil] at hin
      exact absurd hin List.not_mem_nil
  | cons a k ih =>
      cases a with
      | acquire l' =>
          exact ih h.2 (List.nodup_cons.mpr ⟨h.1, hnodup⟩) (List.mem_cons_of_mem _ hin)
      | release l' text =>
          obtain ⟨o', rfl, hk⟩ := h
          obtain ⟨hout, hnodup⟩ := List.nodup_cons.mp hnodup
          rcases List.mem_cons.mp hin with heq | hin
          · cases heq
            refine ⟨[], textsUnder l k, ?_⟩
            rw [textsUnder_cons, Act.textUnder_self, List.append_nil]
            rfl
          · -- the section that ends is one of another lock
            have hne : l' ≠ l := by
              intro heq
              exact hout (List.mem_map.mpr ⟨(l, t), hin, heq.symm⟩)
            obtain ⟨rest, more, hrest⟩ := ih hk hnodup hin
            refine ⟨rest, more, ?_⟩
            rw [textsUnder_cons, Act.textUnder_of_ne hne, hrest]
            rfl
      | ready => exact ih h.2 hnodup hin
      | put b =>
          have hin' : (l, t ++ [b]) ∈ addTo [b] o :=
            List.mem_map.mpr ⟨(l, t), hin, rfl⟩
          obtain ⟨rest, more, hrest⟩ := ih h.2 (by rw [addTo_fst]; exact hnodup) hin'
          rw [List.append_assoc] at hrest
          exact ⟨[b] ++ rest, more, hrest⟩

end Texts

/-- A part of a code that acquires the locks `ls` at most and releases them. -/
def Block (port : L) (ls : List L) (k : List (Act L B)) : Prop :=
  ∀ o primed rest, (∀ l ∈ ls, l ∉ o.map Prod.fst) →
    Within port (addTo (puts k) o) false rest → Within port o primed (k ++ rest)

variable {ls ls' : List L} {j k : List (Act L B)}

/-- The empty part. -/
theorem Block.nil : Block port ls ([] : List (Act L B)) := by
  intro o primed rest _ hrest
  rw [puts_nil, addTo_nil] at hrest
  exact hrest.primed primed

/-- Parts that follow each other. -/
theorem Block.append (hj : Block port ls j) (hk : Block port ls k) : Block port ls (j ++ k) := by
  intro o primed rest hls hrest
  rw [List.append_assoc]
  refine hj o primed (k ++ rest) hls (hk _ false rest ?_ ?_)
  · rw [addTo_fst]
    exact hls
  · rw [addTo_addTo, ← puts_append]
    exact hrest

/-- A part for each element of a list. -/
theorem Block.flatMap {α : Type} {as : List α} {f : α → List (Act L B)}
    (h : ∀ a ∈ as, Block port ls (f a)) : Block port ls (as.flatMap f) := by
  induction as with
  | nil => exact Block.nil
  | cons a as ih =>
      rw [List.flatMap_cons]
      exact (h a List.mem_cons_self).append (ih (fun b hb => h b (List.mem_cons_of_mem a hb)))

/-- A part that may acquire more locks. -/
theorem Block.mono (hk : Block port ls k) (hsub : ∀ l ∈ ls, l ∈ ls') : Block port ls' k :=
  fun o primed rest hls hrest => hk o primed rest (fun l hl => hls l (hsub l hl)) hrest

/-- A section around a part. -/
def guarded (l : L) (k : List (Act L B)) : List (Act L B) :=
  .acquire l :: (k ++ [.release l (puts k)])

/-- A section sends what its part sends. -/
@[simp] theorem puts_guarded (l : L) (k : List (Act L B)) : puts (guarded l k) = puts k := by
  unfold guarded
  simp [Act.puts]

/-- A section has its text behind those that end in it. -/
theorem textsUnder_guarded [DecidableEq L] (l l' : L) (k : List (Act L B)) :
    textsUnder l (guarded l' k) = textsUnder l k ++ if l' = l then [puts k] else [] := by
  unfold guarded
  rw [textsUnder_cons, textsUnder_append, textsUnder_cons, textsUnder_nil, List.append_nil]
  rfl

/-- A section of a lock that its part does not acquire. -/
theorem Block.guarded {l : L} (hk : Block port ls k) (hl : l ∉ ls) :
    Block port (l :: ls) (guarded l k) := by
  intro o primed rest hls hrest
  rw [puts_guarded] at hrest
  have hout : l ∉ o.map Prod.fst := hls l List.mem_cons_self
  have hopen : ∀ l' ∈ ls, l' ∉ ((l, []) :: o).map Prod.fst := by
    intro l' hl' hc
    rcases List.mem_cons.mp hc with rfl | hc
    · exact hl hl'
    · exact hls l' (List.mem_cons_of_mem l hl') hc
  unfold Sections.guarded
  rw [List.cons_append, List.append_assoc]
  exact ⟨hout, hk _ false _ hopen ⟨addTo (puts k) o, rfl, hrest⟩⟩

/-- One value, with the register seen to be empty. -/
theorem Block.put (b : B) : Block port [port] (Sections.guarded port [.ready, .put b]) := by
  intro o primed rest hls hrest
  have hout : port ∉ o.map Prod.fst := hls port List.mem_cons_self
  exact ⟨hout, List.mem_cons_self, rfl, addTo [b] o, rfl, hrest⟩

/-- A code that is a part leaves no section open. -/
theorem Block.within (hk : Block port ls k) : Within port [] false k := by
  have hend := hk [] false [] (fun l _ => List.not_mem_nil) rfl
  rw [List.append_nil] at hend
  exact hend

end Codes

/-! ## Steps keep the sections -/

section Runs

variable {L C B K : Type} [DecidableEq C] {s : State L C B K} {port : L} {c d : C} {l l' : L}
  {b : B} {t : List B} {k : List (Act L B)}

/-- The thread that goes on. -/
@[simp] theorem goOn_cont_self : (s.goOn c k).cont c = k := Function.update_self ..

/-- The other threads stay where they are. -/
@[simp] theorem goOn_cont_of_ne (h : d ≠ c) : (s.goOn c k).cont d = s.cont d :=
  Function.update_of_ne h ..

/-- A value that is put in the empty register is sent. -/
theorem put_of_empty (h : s.full = false) : s.put c b
    = { s with full := true, out := s.out ++ [⟨c, b, fun l => decide (s.held l = some c)⟩] } := by
  unfold State.put
  rw [if_neg (by rw [h]; exact Bool.false_ne_true)]

/-- A value counts for a lock if its thread holds it. -/
theorem under_put (h : s.full = false) :
    (s.put c b).under l = s.under l ++ if s.held l = some c then [(c, b)] else [] := by
  rw [put_of_empty h]
  unfold State.under
  rw [List.filter_append, List.map_append]
  by_cases hl : s.held l = some c
  · simp [hl]
  · simp [hl]

/-- A value counts for its own thread. -/
theorem sentBy_put (h : s.full = false) :
    (s.put c b).sentBy d = s.sentBy d ++ if c = d then [b] else [] := by
  rw [put_of_empty h]
  unfold State.sentBy
  rw [List.filter_append, List.map_append]
  by_cases hd : c = d
  · simp [hd]
  · simp [hd]

/-- The threads are in the sections `opens`, and those in `primed` have just seen
    the register to be empty. -/
structure Fits [DecidableEq L] (port : L) (code : K → List (Act L B)) (s : State L C B K)
    (opens : C → Opens L B) (primed : C → Bool) : Prop where
  within : ∀ c, Within port (opens c) (primed c) (s.cont c)
  held : ∀ c l, s.held l = some c ↔ l ∈ (opens c).map Prod.fst
  nodup : ∀ c, ((opens c).map Prod.fst).Nodup
  empty : ∀ c, primed c = true → s.full = false ∧ s.held port = some c
  free : ∀ l, s.held l = none → s.under l = (s.texts l).flatMap spoken
  inside : ∀ c l t, (l, t) ∈ opens c → s.under l = (s.texts l).flatMap spoken ++ spoken (c, t)
  lost : s.lost = []
  sent : ∀ c, s.sentBy c ++ puts (s.cont c) = (s.calls c).flatMap (fun call => puts (code call))
  texts : ∀ c l, ofThread (s.texts l) c ++ textsUnder l (s.cont c)
    = (s.calls c).flatMap (fun call => textsUnder l (code call))

variable [DecidableEq L] {code : K → List (Act L B)} {opens : C → Opens L B} {primed : C → Bool}

/-- Before the first call no section is open. -/
theorem Fits.idle (h : s.Idle) : Fits port code s (fun _ => []) (fun _ => false) := by
  obtain ⟨full, rfl⟩ := h
  refine ⟨fun c => rfl, fun c l => ?_, fun c => List.nodup_nil, fun c hc => ?_, fun l _ => rfl,
    fun c l t hin => ?_, rfl, fun c => rfl, fun c l => rfl⟩
  · exact iff_of_false (fun hc => Option.some_ne_none c hc.symm) List.not_mem_nil
  · exact absurd hc Bool.false_ne_true
  · exact absurd hin List.not_mem_nil

/-- Two threads are not in sections of one lock. -/
theorem Fits.unique (h : Fits port code s opens primed) (hc : l ∈ (opens c).map Prod.fst)
    (hd : l ∈ (opens d).map Prod.fst) : c = d := by
  have hcd : some c = some d := by
    rw [← (h.held c l).mpr hc]
    exact (h.held d l).mpr hd
  exact Option.some.inj hcd

/-- A thread goes on in the sections `o`. -/
theorem Fits.within_goOn (h : Fits port code s opens primed) {o : Opens L B} {p : Bool}
    (hk : Within port o p k) (d : C) :
    Within port (Function.update opens c o d) (Function.update primed c p d)
      ((s.goOn c k).cont d) := by
  by_cases hdc : d = c
  · rw [hdc, goOn_cont_self, Function.update_self, Function.update_self]
    exact hk
  · rw [goOn_cont_of_ne hdc, Function.update_of_ne hdc, Function.update_of_ne hdc]
    exact h.within d

/-- A thread goes on that has put nothing. -/
theorem Fits.sent_goOn (h : Fits port code s opens primed) (hputs : puts k = puts (s.cont c))
    (d : C) : s.sentBy d ++ puts ((s.goOn c k).cont d)
      = (s.calls d).flatMap (fun call => puts (code call)) := by
  by_cases hdc : d = c
  · rw [hdc, goOn_cont_self, hputs]
    exact h.sent c
  · rw [goOn_cont_of_ne hdc]
    exact h.sent d

/-- A thread goes on that has ended no section of a lock. -/
theorem Fits.texts_goOn (h : Fits port code s opens primed)
    (htexts : textsUnder l k = textsUnder l (s.cont c)) (d : C) :
    ofThread (s.texts l) d ++ textsUnder l ((s.goOn c k).cont d)
      = (s.calls d).flatMap (fun call => textsUnder l (code call)) := by
  by_cases hdc : d = c
  · rw [hdc, goOn_cont_self, htexts]
    exact h.texts c l
  · rw [goOn_cont_of_ne hdc]
    exact h.texts d l

/-- A thread that has just seen the register is not the one that went on. -/
theorem primed_of_update (hd : Function.update primed c false d = true) :
    d ≠ c ∧ primed d = true := by
  by_cases hdc : d = c
  · rw [hdc, Function.update_self] at hd
    exact absurd hd Bool.false_ne_true
  · rw [Function.update_of_ne hdc] at hd
    exact ⟨hdc, hd⟩

/-- A thread goes on: what it does next fits where it is. -/
theorem Fits.goOn (h : Fits port code s opens primed) {p : Bool}
    (hk : Within port (opens c) p k) (hputs : puts k = puts (s.cont c))
    (htexts : ∀ l, textsUnder l k = textsUnder l (s.cont c))
    (hp : p = true → s.full = false ∧ s.held port = some c) :
    Fits port code (s.goOn c k) opens (Function.update primed c p) := by
  have hwithin := fun d => h.within_goOn (c := c) hk d
  rw [Function.update_eq_self] at hwithin
  refine ⟨hwithin, h.held, h.nodup, fun d hd => ?_, h.free, h.inside, h.lost, h.sent_goOn hputs,
    fun d l => h.texts_goOn (htexts l) d⟩
  by_cases hdc : d = c
  · rw [hdc, Function.update_self] at hd
    rw [hdc]
    exact hp hd
  · rw [Function.update_of_ne hdc] at hd
    exact h.empty d hd

/-- A call begins. -/
theorem Fits.call (h : Fits port code s opens primed)
    (hcode : ∀ call, Within port [] false (code call)) (hidle : s.cont c = []) (call : K) :
    Fits port code
      { s.goOn c (code call) with calls := Function.update s.calls c (s.calls c ++ [call]) }
      opens (Function.update primed c false) := by
  have hopen : opens c = [] := by
    have hwithin := h.within c
    rw [hidle] at hwithin
    exact hwithin
  have hcall := hcode call
  rw [← hopen] at hcall
  have hwithin := fun d => h.within_goOn (c := c) hcall d
  rw [Function.update_eq_self] at hwithin
  refine ⟨hwithin, h.held, h.nodup, fun d hd => h.empty d (primed_of_update hd).2, h.free,
    h.inside, h.lost, fun d => ?_, fun d l => ?_⟩
  · show s.sentBy d ++ puts ((s.goOn c (code call)).cont d)
      = (Function.update s.calls c (s.calls c ++ [call]) d).flatMap (fun call => puts (code call))
    have hd := h.sent d
    by_cases hdc : d = c
    · rw [hdc, hidle, puts_nil, List.append_nil] at hd
      rw [hdc, goOn_cont_self, Function.update_self, List.flatMap_append, hd]
      simp
    · rw [goOn_cont_of_ne hdc, Function.update_of_ne hdc]
      exact hd
  · show ofThread (s.texts l) d ++ textsUnder l ((s.goOn c (code call)).cont d)
      = (Function.update s.calls c (s.calls c ++ [call]) d).flatMap
          (fun call => textsUnder l (code call))
    have hd := h.texts d l
    by_cases hdc : d = c
    · rw [hdc, hidle, textsUnder_nil, List.append_nil] at hd
      rw [hdc, goOn_cont_self, Function.update_self, List.flatMap_append, hd]
      simp
    · rw [goOn_cont_of_ne hdc, Function.update_of_ne hdc]
      exact hd

/-- A section begins. -/
theorem Fits.acquire (h : Fits port code s opens primed) (hc : s.cont c = .acquire l :: k)
    (hfree : s.held l = none) :
    Fits port code { s.goOn c k with held := Function.update s.held l (some c) }
      (Function.update opens c ((l, []) :: opens c)) (Function.update primed c false) := by
  have hwithin := h.within c
  rw [hc] at hwithin
  obtain ⟨hout, hk⟩ := hwithin
  refine ⟨h.within_goOn hk, fun d l' => ?_, fun d => ?_, fun d hd => ?_, fun l' hl' => ?_,
    fun d l' t hin => ?_, h.lost, h.sent_goOn (by rw [hc]; rfl),
    fun d l' => h.texts_goOn (by rw [hc]; rfl) d⟩
  · -- the locks that are held are those of the open sections
    show Function.update s.held l (some c) l' = some d ↔ _
    by_cases hl : l' = l
    · rw [hl, Function.update_self]
      by_cases hdc : d = c
      · rw [hdc, Function.update_self]
        exact iff_of_true rfl List.mem_cons_self
      · rw [Function.update_of_ne hdc]
        refine iff_of_false (fun heq => hdc (Option.some.inj heq).symm) (fun hin => ?_)
        have hd := (h.held d l).mpr hin
        rw [hfree] at hd
        exact Option.some_ne_none d hd.symm
    · rw [Function.update_of_ne hl, h.held d l']
      by_cases hdc : d = c
      · rw [hdc, Function.update_self, List.map_cons, List.mem_cons]
        exact (or_iff_right hl).symm
      · rw [Function.update_of_ne hdc]
  · by_cases hdc : d = c
    · rw [hdc, Function.update_self]
      exact List.nodup_cons.mpr ⟨hout, h.nodup c⟩
    · rw [Function.update_of_ne hdc]
      exact h.nodup d
  · obtain ⟨hempty, hport⟩ := h.empty d (primed_of_update hd).2
    -- the port was held, so it is not the lock that was free
    have hne : port ≠ l := by
      intro heq
      rw [heq, hfree] at hport
      exact Option.some_ne_none d hport.symm
    exact ⟨hempty, (Function.update_of_ne hne ..).trans hport⟩
  · -- a lock that is free now was free before
    have hne : l' ≠ l := by
      intro heq
      have hl'' : Function.update s.held l (some c) l' = none := hl'
      rw [heq, Function.update_self] at hl''
      exact Option.some_ne_none c hl''
    have hl'' : Function.update s.held l (some c) l' = none := hl'
    rw [Function.update_of_ne hne] at hl''
    exact h.free l' hl''
  · -- nothing was sent yet in the new section
    by_cases hdc : d = c
    · rw [hdc, Function.update_self] at hin
      rcases List.mem_cons.mp hin with heq | hin
      · cases heq
        exact (h.free l hfree).trans (List.append_nil _).symm
      · rw [hdc]
        exact h.inside c l' t hin
    · rw [Function.update_of_ne hdc] at hin
      exact h.inside d l' t hin

/-- A section ends: its text is what was sent in it. -/
theorem Fits.release {text : List B} (h : Fits port code s opens primed)
    (hc : s.cont c = .release l text :: k) :
    ∃ o, Fits port code
      { s.goOn c k with
        held := Function.update s.held l none
        texts := Function.update s.texts l (s.texts l ++ [(c, text)]) }
      (Function.update opens c o) (Function.update primed c false) := by
  have hwithin := h.within c
  rw [hc] at hwithin
  obtain ⟨o, ho, hk⟩ := hwithin
  have hnodup := h.nodup c
  have hin : l ∈ (opens c).map Prod.fst := by
    rw [ho]
    exact List.mem_cons_self
  rw [ho, List.map_cons, List.nodup_cons] at hnodup
  -- the sections that stay open are of other locks
  have hother : ∀ d l' t, (l', t) ∈ Function.update opens c o d → l' ≠ l := by
    intro d l' t hin' heq
    have hfst := List.mem_map_of_mem (f := Prod.fst) hin'
    rw [heq] at hfst
    by_cases hdc : d = c
    · rw [hdc, Function.update_self] at hfst
      exact hnodup.1 hfst
    · rw [Function.update_of_ne hdc] at hfst
      exact hdc (h.unique hin hfst).symm
  have hsome := (h.held c l).mpr hin
  refine ⟨o, h.within_goOn hk, fun d l' => ?_, fun d => ?_, fun d hd => ?_, fun l' hl' => ?_,
    fun d l' t hin' => ?_, h.lost, h.sent_goOn (by rw [hc]; rfl), fun d l' => ?_⟩
  · show Function.update s.held l none l' = some d ↔ _
    by_cases hl : l' = l
    · rw [hl, Function.update_self]
      refine iff_of_false (fun heq => Option.some_ne_none d heq.symm) (fun hc' => ?_)
      obtain ⟨e, he, hfst⟩ := List.mem_map.mp hc'
      exact hother d e.1 e.2 he hfst
    · rw [Function.update_of_ne hl, h.held d l']
      by_cases hdc : d = c
      · rw [hdc, Function.update_self, ho, List.map_cons, List.mem_cons]
        exact or_iff_right hl
      · rw [Function.update_of_ne hdc]
  · by_cases hdc : d = c
    · rw [hdc, Function.update_self]
      exact hnodup.2
    · rw [Function.update_of_ne hdc]
      exact h.nodup d
  · -- a thread that has seen the register holds the port, which is not released
    obtain ⟨hdc, hd⟩ := primed_of_update hd
    obtain ⟨hempty, hport⟩ := h.empty d hd
    have hne : port ≠ l := by
      intro heq
      rw [heq, hsome] at hport
      exact hdc (Option.some.inj hport).symm
    exact ⟨hempty, (Function.update_of_ne hne ..).trans hport⟩
  · -- what was sent in the section becomes a whole text
    show s.under l' = (Function.update s.texts l (s.texts l ++ [(c, text)]) l').flatMap spoken
    by_cases hl : l' = l
    · have hinside := h.inside c l text (by rw [ho]; exact List.mem_cons_self)
      rw [hl, Function.update_self, hinside, List.flatMap_append, List.flatMap_singleton]
    · have hfree : Function.update s.held l none l' = none := hl'
      rw [Function.update_of_ne hl] at hfree
      rw [Function.update_of_ne hl]
      exact h.free l' hfree
  · show s.under l' = (Function.update s.texts l (s.texts l ++ [(c, text)]) l').flatMap spoken
      ++ spoken (d, t)
    rw [Function.update_of_ne (hother d l' t hin')]
    by_cases hdc : d = c
    · rw [hdc, Function.update_self] at hin'
      rw [hdc]
      exact h.inside c l' t (by rw [ho]; exact List.mem_cons_of_mem _ hin')
    · rw [Function.update_of_ne hdc] at hin'
      exact h.inside d l' t hin'
  · show ofThread (Function.update s.texts l (s.texts l ++ [(c, text)]) l') d
      ++ textsUnder l' ((s.goOn c k).cont d)
        = (s.calls d).flatMap (fun call => textsUnder l' (code call))
    have hd := h.texts d l'
    by_cases hl : l' = l
    · subst hl
      rw [Function.update_self, ofThread_append, ofThread_singleton]
      by_cases hdc : d = c
      · -- the text goes from what is to come to what was sent
        rw [hdc, hc, textsUnder_cons, Act.textUnder_self] at hd
        rw [hdc, if_pos rfl, goOn_cont_self, List.append_assoc, ← hd]
      · rw [if_neg (Ne.symm hdc), List.append_nil, goOn_cont_of_ne hdc]
        exact hd
    · rw [Function.update_of_ne hl]
      refine h.texts_goOn ?_ d
      rw [hc, textsUnder_cons, Act.textUnder_of_ne (Ne.symm hl)]
      rfl

/-- A value is put: the register is empty, and the value is sent in every section
    that its thread is in. -/
theorem Fits.put (h : Fits port code s opens primed) (hc : s.cont c = .put b :: k) :
    Fits port code ((s.goOn c k).put c b) (Function.update opens c (addTo [b] (opens c)))
      (Function.update primed c false) := by
  have hwithin := h.within c
  rw [hc] at hwithin
  obtain ⟨hprimed, hk⟩ := hwithin
  obtain ⟨hempty, hport⟩ := h.empty c hprimed
  have hempty' : (s.goOn c k).full = false := hempty
  have hunder : ∀ l, ((s.goOn c k).put c b).under l
      = s.under l ++ if s.held l = some c then [(c, b)] else [] := fun l => under_put hempty'
  have hsent : ∀ d, ((s.goOn c k).put c b).sentBy d
      = s.sentBy d ++ if c = d then [b] else [] := fun d => sentBy_put hempty'
  have hput := @put_of_empty L C B K _ (s.goOn c k) c b hempty'
  have hheld : ((s.goOn c k).put c b).held = s.held := by rw [hput]; rfl
  have hcont : ((s.goOn c k).put c b).cont = (s.goOn c k).cont := by rw [hput]
  have htexts : ((s.goOn c k).put c b).texts = s.texts := by rw [hput]; rfl
  have hcalls : ((s.goOn c k).put c b).calls = s.calls := by rw [hput]; rfl
  have hlost : ((s.goOn c k).put c b).lost = s.lost := by rw [hput]; rfl
  refine ⟨fun d => ?_, fun d l' => ?_, fun d => ?_, fun d hd => ?_, fun l' hl' => ?_,
    fun d l' t hin => ?_, hlost.trans h.lost, fun d => ?_, fun d l' => ?_⟩
  · rw [hcont]
    exact h.within_goOn hk d
  · rw [hheld, h.held d l']
    by_cases hdc : d = c
    · rw [hdc, Function.update_self, addTo_fst]
    · rw [Function.update_of_ne hdc]
  · by_cases hdc : d = c
    · rw [hdc, Function.update_self, addTo_fst]
      exact h.nodup c
    · rw [Function.update_of_ne hdc]
      exact h.nodup d
  · -- two threads would hold the port
    obtain ⟨hdc, hd⟩ := primed_of_update hd
    have hport' := (h.empty d hd).2
    rw [hport] at hport'
    exact absurd (Option.some.inj hport').symm hdc
  · rw [hheld] at hl'
    have hne : ¬ s.held l' = some c := by
      rw [hl']
      exact fun heq => Option.some_ne_none c heq.symm
    rw [hunder, htexts, if_neg hne, List.append_nil]
    exact h.free l' hl'
  · rw [hunder, htexts]
    by_cases hdc : d = c
    · rw [hdc, Function.update_self] at hin
      obtain ⟨e, he, heq⟩ := List.mem_map.mp hin
      cases heq
      have hsome := (h.held c e.1).mpr (List.mem_map_of_mem he)
      -- the value comes to what was sent in each section of the thread
      rw [hdc, if_pos hsome, h.inside c e.1 e.2 he, List.append_assoc]
      unfold spoken
      rw [List.map_append]
      rfl
    · rw [Function.update_of_ne hdc] at hin
      have hsome := (h.held d l').mpr (List.mem_map_of_mem hin)
      -- the thread is in no section of a lock that another one holds
      have hne : ¬ s.held l' = some c := by
        rw [hsome]
        exact fun heq => hdc (Option.some.inj heq)
      rw [if_neg hne, List.append_nil]
      exact h.inside d l' t hin
  · -- the value goes from what is to come to what was sent
    have hd := h.sent d
    rw [hsent, hcont, hcalls]
    by_cases hdc : d = c
    · rw [hdc, hc] at hd
      rw [hdc, goOn_cont_self, if_pos rfl, List.append_assoc]
      exact hd
    · rw [goOn_cont_of_ne hdc, if_neg (Ne.symm hdc), List.append_nil]
      exact hd
  · rw [htexts, hcont, hcalls]
    exact h.texts_goOn (by rw [hc]; rfl) d

/-- The device takes the value. -/
theorem Fits.drain (h : Fits port code s opens primed) :
    Fits port code { s with full := false } opens primed :=
  ⟨h.within, h.held, h.nodup, fun d hd => ⟨rfl, (h.empty d hd).2⟩, h.free, h.inside, h.lost,
    h.sent, h.texts⟩

/-- Every step keeps the threads in their sections. -/
theorem Fits.step (hcode : ∀ call, Within port [] false (code call)) {t : State L C B K}
    (h : ∃ opens primed, Fits port code s opens primed) (hst : Step code s t) :
    ∃ opens primed, Fits port code t opens primed := by
  obtain ⟨opens, primed, h⟩ := h
  cases hst with
  | call call hidle => exact ⟨_, _, h.call hcode hidle call⟩
  | acquire hc hfree => exact ⟨_, _, h.acquire hc hfree⟩
  | release hc =>
      obtain ⟨o, ho⟩ := h.release hc
      exact ⟨_, _, ho⟩
  | @ready c k hc hempty =>
      have hwithin := h.within c
      rw [hc] at hwithin
      obtain ⟨hport, hk⟩ := hwithin
      exact ⟨_, _, h.goOn hk (by rw [hc]; rfl) (fun l => by rw [hc]; rfl)
        (fun _ => ⟨hempty, (h.held c port).mpr hport⟩)⟩
  | put hc => exact ⟨_, _, h.put hc⟩
  | drain => exact ⟨_, _, h.drain⟩

/-- In every run the threads are in their sections. -/
theorem reachable_fits (hcode : ∀ call, Within port [] false (code call))
    (h : Reachable State.Idle (Step code) s) : ∃ opens primed, Fits port code s opens primed :=
  h.invariant (fun _ h0 => ⟨_, _, Fits.idle h0⟩) (fun _ _ hI hst => Fits.step hcode hI hst)

/-! ## What was sent -/

/-- With a lock held, the texts `ts` were sent, each whole by one thread before the
    next one.  Those of a thread are, with those it has still to send, the texts
    of its calls in order; and a thread that holds the lock has sent a first part
    of its next one. -/
structure State.Whole (s : State L C B K) (l : L) (texts : K → List (List B))
    (ts : List (C × List B)) : Prop where
  calls : ∀ c, ofThread ts c ++ textsUnder l (s.cont c) = (s.calls c).flatMap texts
  free : s.held l = none → s.under l = ts.flatMap spoken
  inside : ∀ c, s.held l = some c → ∃ t rest more,
    textsUnder l (s.cont c) = (t ++ rest) :: more ∧ s.under l = ts.flatMap spoken ++ spoken (c, t)

/-- What the invariant says of one lock. -/
theorem Fits.whole (h : Fits port code s opens primed) (l : L) :
    s.Whole l (fun call => textsUnder l (code call)) (s.texts l) where
  calls c := h.texts c l
  free := h.free l
  inside c hl := by
    obtain ⟨⟨l', t⟩, hin, rfl⟩ := List.mem_map.mp ((h.held c l).mp hl)
    obtain ⟨rest, more, hnext⟩ := (h.within c).next_text (h.nodup c) hin
    exact ⟨t, rest, more, hnext, h.inside c l' t hin⟩

/-- In every run no value is lost, every thread sends what it was called for, and
    the texts of a lock are those of the calls, whole and in order. -/
theorem output_whole (hcode : ∀ call, Within port [] false (code call))
    (h : Reachable State.Idle (Step code) s) :
    s.lost = []
    ∧ (∀ c, s.sentBy c ++ puts (s.cont c) = (s.calls c).flatMap (fun call => puts (code call)))
    ∧ ∀ l, ∃ ts, s.Whole l (fun call => textsUnder l (code call)) ts := by
  obtain ⟨opens, primed, hfits⟩ := reachable_fits hcode h
  exact ⟨hfits.lost, hfits.sent, fun l => ⟨s.texts l, hfits.whole l⟩⟩

end Runs

end Sections
