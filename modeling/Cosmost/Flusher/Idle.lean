import Cosmost.Bblog.Invariant

/-!
# What the flusher thread flushes (`flusher.c`)

The loop of the flusher reads the clock, then `last_flush_secs`, then the word of the current buffer, and at last reads
`proc_pibr` again for `swap_and_flush_buffer`; meanwhile other threads log, swap and flush. `Conf` adds to the threads of
`Bblog.Threads` the clock, the stamp that `flush_buffer` stores before it frees, and the loop.

`flushes_idle`: in every run of `Undisturbed` steps, a buffer that the flusher detaches is the one whose index it found
to be large enough, after more than `FLUSH_TIMEOUT` seconds without a flush. It can be another one, or too early, when a
thread flushes between two of the reads (`flush_between`).
-/

namespace Cosmost.Flusher

open Cosmost.Lib Cosmost.Bblog

/-- `FLUSH_TIMEOUT` of `flusher.c`, in seconds. -/
def flushTimeout : Nat := 5

/-- `FLUSH_BUF_SIZE`. -/
def flushBufSize : Nat := 1024

/-- `ts.tv_sec - last_flush_secs`, in 64 bits without a sign. -/
def elapsed (ts last : Nat) : Int := ((ts : Int) - last) % 2 ^ 64

/-- A buffer: its address, which can be handed out again once it was freed, and the call of `memalign` it came from. -/
structure Buffer where
  addr : Nat
  born : Nat
  deriving DecidableEq, Repr

/-- A thread that frees a buffer records the time before. -/
inductive Stamp
  /-- Before `clock_gettime`. -/
  | unread
  /-- Before the store of `last_flush_secs`. -/
  | read (ts : Nat)
  /-- Before the `free`. -/
  | stored
  deriving DecidableEq, Repr

/-- Where the flusher stands in its loop. -/
inductive Loop
  /-- Before the `sleep` and the tests for the end of the loop. -/
  | sleep
  /-- Before `clock_gettime`. -/
  | clock
  /-- Before the load of `last_flush_secs`. -/
  | lastFlush (ts : Nat)
  /-- Before the test of `*proc_pibr`. -/
  | null (ts last : Nat)
  /-- Before it reads `*proc_pibr` for the load. -/
  | pointer (ts last : Nat)
  /-- Before the load of the word. -/
  | word (ts last ptr : Nat)
  /-- In `swap_and_flush_buffer`, or before it reads `*proc_pibr` for it; the index of the buffer was large enough. -/
  | swap (ts last : Nat) (found : Buffer) (idx : Nat)
  /-- The loop has ended. -/
  | ended
  deriving DecidableEq, Repr

/-- A buffer that the flusher detached, beside the one that it had found, with the index and the times it had read. -/
structure Detach where
  found : Buffer
  taken : Buffer
  idx : Nat
  ts : Nat
  last : Nat
  deriving DecidableEq, Repr

/-- The process. `born` and `detached` are not part of it. -/
structure Conf (τ : Type*) where
  logger : Bblog.Conf τ
  clock : Nat
  lastFlush : Nat
  stamp : τ → Stamp
  loop : Loop
  born : Nat → Nat
  detached : List Detach

/-- The calls of `memalign` that buffers came from, after a thread went from one point to another. -/
def noteBorn (born : Nat → Nat) (allocs : Nat) : Pc → Pc → Nat → Nat
  | .alloc _ _, .install _ _ new => Function.update born new allocs
  | _, _ => born

/-- The thread is about to take the current buffer out of `proc_pibr`. -/
def Detaches (s : State) : Pc → Prop
  | .fallback _ _ => s.procPibr ≠ 0
  | .install _ curr _ => s.procPibr = curr
  | _ => False

/-- It is about to be handed out the address `a` by `memalign`. -/
def Allocates (A : Allocator) (e : Process) (s : State) (a : Nat) : Pc → Prop
  | .alloc _ _ => (allocBuffer A e s).1 = a
  | _ => False

/-- If it falls back to no buffer, then from the one it began with. -/
def FallsBackRight (s : State) : Pc → Prop
  | .fallback _ curr => s.procPibr = 0 ∨ s.procPibr = curr
  | _ => True

/-- The flusher, at a point of the logger, has read `*proc_pibr` for the load of the word, but not yet for
`swap_and_flush_buffer`. -/
def Loop.Choosing (x : Pc) : Loop → Prop
  | .word _ _ _ => True
  | .swap _ _ _ _ => x = .loadFlush
  | _ => False

/-- The stamp is not newer than the clock that the flusher has read, when it loads the stamp. -/
def Loop.Timely (last : Nat) : Loop → Prop
  | .lastFlush ts => last ≤ ts
  | _ => True

/-- A thread is about to be handed out the address of the buffer that the flusher has found. -/
def Loop.Reused (A : Allocator) (e : Process) (s : State) (x : Pc) : Loop → Prop
  | .swap _ _ found _ => Allocates A e s found.addr x
  | _ => False

section Decide

variable (A : Allocator) (e : Process) (s : State) (a : Nat)

instance : ∀ x, Decidable (Detaches s x)
  | .fallback _ _ => inferInstanceAs (Decidable (_ ≠ _))
  | .install _ _ _ => inferInstanceAs (Decidable (_ = _))
  | .idle | .load _ | .add _ _ | .copy _ _ _ | .release _ | .rollback _ _ | .loadFlush | .check _ _ | .alloc _ _
  | .discard _ _ | .readPid _ _ | .sample _ _ _ | .cas _ _ _ _ | .close _ _ _ | .write _ _ | .free _ _ => isFalse id

instance : ∀ x, Decidable (Allocates A e s a x)
  | .alloc _ _ => inferInstanceAs (Decidable (_ = _))
  | .idle | .load _ | .add _ _ | .copy _ _ _ | .release _ | .rollback _ _ | .loadFlush | .check _ _ | .fallback _ _
  | .install _ _ _ | .discard _ _ | .readPid _ _ | .sample _ _ _ | .cas _ _ _ _ | .close _ _ _ | .write _ _
  | .free _ _ => isFalse id

instance : ∀ x, Decidable (FallsBackRight s x)
  | .fallback _ _ => inferInstanceAs (Decidable (_ ∨ _))
  | .idle | .load _ | .add _ _ | .copy _ _ _ | .release _ | .rollback _ _ | .loadFlush | .check _ _ | .alloc _ _
  | .install _ _ _ | .discard _ _ | .readPid _ _ | .sample _ _ _ | .cas _ _ _ _ | .close _ _ _ | .write _ _
  | .free _ _ => isTrue trivial

instance (x : Pc) : ∀ l, Decidable (Loop.Choosing x l)
  | .word _ _ _ => isTrue trivial
  | .swap _ _ _ _ => inferInstanceAs (Decidable (_ = _))
  | .sleep | .clock | .lastFlush _ | .null _ _ | .pointer _ _ | .ended => isFalse id

instance (last : Nat) : ∀ l, Decidable (Loop.Timely last l)
  | .lastFlush _ => inferInstanceAs (Decidable (_ ≤ _))
  | .sleep | .clock | .null _ _ | .pointer _ _ | .word _ _ _ | .swap _ _ _ _ | .ended => isTrue trivial

instance (x : Pc) : ∀ l, Decidable (Loop.Reused A e s x l)
  | .swap _ _ _ _ => inferInstanceAs (Decidable (Allocates ..))
  | .sleep | .clock | .lastFlush _ | .null _ _ | .pointer _ _ | .word _ _ _ | .ended => isFalse id

end Decide

section Step

variable {τ : Type*} [DecidableEq τ]

/-- The next step of a thread in the logger. -/
def Conf.go (A : Allocator) (e : Process) (c : Conf τ) (t : τ) : Conf τ :=
  match c.logger.pc t, c.stamp t with
  | .free _ _, .unread => { c with stamp := Function.update c.stamp t (.read c.clock) }
  | .free _ _, .read ts => { c with lastFlush := ts, stamp := Function.update c.stamp t .stored }
  | x, _ =>
    let logger := c.logger.run A e t
    { c with
      logger := logger
      stamp := Function.update c.stamp t .unread
      born := noteBorn c.born c.logger.state.allocs x (logger.pc t) }

/-- What the flusher `f` detaches in its next step, if anything. -/
def Conf.detaches (f : τ) (c : Conf τ) : List Detach :=
  match c.loop with
  | .swap ts last found idx =>
    let p := c.logger.state.procPibr
    if Detaches c.logger.state (c.logger.pc f) ∧ p ≠ 0 then [⟨found, ⟨p, c.born p⟩, idx, ts, last⟩] else []
  | _ => []

/-- The next step of the flusher; after its `sleep` the loop ends or goes on. -/
def Conf.flusher (A : Allocator) (e : Process) (f : τ) (c : Conf τ) (ends : Bool) : Option (Conf τ) :=
  match c.loop with
  | .sleep => some { c with loop := if ends then .ended else .clock }
  | .clock => some { c with loop := .lastFlush c.clock }
  | .lastFlush ts =>
    let last := c.lastFlush
    some { c with loop := if elapsed ts last ≤ flushTimeout then .sleep else .null ts last }
  | .null ts last => some { c with loop := if c.logger.state.procPibr = 0 then .sleep else .pointer ts last }
  | .pointer ts last => some { c with loop := .word ts last c.logger.state.procPibr }
  | .word ts last ptr =>
    -- the pointer can have become null since it was tested
    if ptr = 0 then some { c with logger := { c.logger with killed := true } }
    else
      let pibr := (c.logger.state.mem ptr).pibr
      if pibr = 0 ∨ pibrPtr pibr = 0 ∨ pibrPid pibr ≠ e.pid ∨ pibrIdx pibr < flushBufSize then
        some { c with loop := .sleep }
      else
        some { c with
          loop := .swap ts last ⟨ptr, c.born ptr⟩ (pibrIdx pibr)
          logger := c.logger.goto f .loadFlush }
  | .swap ts last found idx =>
    let c' := { c.go A e f with detached := c.detached ++ c.detaches f }
    some { c' with loop := if c'.logger.pc f = .idle then .sleep else .swap ts last found idx }
  | .ended => none

/-- What happens: a second passes, another thread moves, or the flusher goes on. -/
inductive Event (τ : Type*)
  | tick
  | thread (t : τ) (move : Bblog.Move)
  | flusher (ends : Bool)
  deriving DecidableEq

/-- The moves of a process whose flusher is `f`, as long as it lives. -/
def Conf.step (A : Allocator) (e : Process) (f : τ) (c : Conf τ) : Event τ → Option (Conf τ)
  | .tick => some { c with clock := c.clock + 1 }
  | .thread t move =>
    if c.logger.killed ∨ t = f then none
    else match move with
      | .run => if c.logger.pc t = .idle then none else some (c.go A e t)
      | .blog m => if c.logger.pc t = .idle then some { c with logger := c.logger.goto t (.load m) } else none
      | .flush => if c.logger.pc t = .idle then some { c with logger := c.logger.goto t .loadFlush } else none
  | .flusher ends => if c.logger.killed then none else c.flusher A e f ends

/-- After `bblog_init`, with no thread in the logger and the flusher before its loop. -/
structure Conf.Started (A : Allocator) (e : Process) (c : Conf τ) : Prop where
  logger : c.logger.Started A e
  loop : c.loop = .sleep
  detached : c.detached = []

/-- No other thread comes between: none stores a stamp that is newer than the clock the flusher has read before it loads
the stamp; none takes the current buffer between the two reads of `*proc_pibr`, nor before a fallback; and the address of
the buffer that was found is not handed out again. -/
def Conf.Undisturbed (A : Allocator) (e : Process) (f : τ) (c : Conf τ) : Event τ → Prop
  | .tick => True
  | .thread t _ =>
    (c.loop.Choosing (c.logger.pc f) → ¬ Detaches c.logger.state (c.logger.pc t)) ∧
      ¬ c.loop.Reused A e c.logger.state (c.logger.pc t)
  | .flusher _ =>
    c.loop.Timely c.lastFlush ∧ FallsBackRight c.logger.state (c.logger.pc f) ∧
      ¬ c.loop.Reused A e c.logger.state (c.logger.pc f)

instance (A : Allocator) (e : Process) (f : τ) (c : Conf τ) : ∀ ev, Decidable (c.Undisturbed A e f ev)
  | .tick => isTrue trivial
  | .thread _ _ => inferInstanceAs (Decidable (_ ∧ _))
  | .flusher _ => inferInstanceAs (Decidable (_ ∧ _ ∧ _))

/-- What is claimed of a buffer that was detached: it is the one that was found, its index was large enough, and more
than `FLUSH_TIMEOUT` seconds had passed. -/
def Detach.Good (d : Detach) : Prop := d.taken = d.found ∧ flushBufSize ≤ d.idx ∧ d.last + flushTimeout < d.ts

instance (d : Detach) : Decidable d.Good := inferInstanceAs (Decidable (_ ∧ _ ∧ _))

end Step

/-! ## One step of a thread in the logger -/

section Exec

variable {A : Allocator} {e : Process} {s s' : State} {x q : Pc}

theorem initBuffer_procPibr (p : Nat) : (initBuffer e p s).procPibr = s.procPibr := by
  unfold initBuffer reinitProcid
  split_ifs with hpid
  · rfl
  · by_cases hlong : (prefixText e).length ≥ maxPrefixLen <;> simp only [hlong, ↓reduceIte]
    rfl

theorem allocBuffer_procPibr : (allocBuffer A e s).2.procPibr = s.procPibr := by
  unfold allocBuffer
  cases A.memalign s.allocs s.live with
  | none => rfl
  | some b =>
    simp only
    split_ifs
    · rfl
    · exact initBuffer_procPibr ..

/-- A step that detaches no buffer leaves `proc_pibr`. -/
theorem exec_procPibr (hok : exec A e x s = .ok (q, s')) (h : ¬ Detaches s x) : s'.procPibr = s.procPibr := by
  cases x with
  | add m p =>
    obtain ⟨rfl, -⟩ := exec_add_ok hok
    rfl
  | release ptr =>
    obtain ⟨rfl, -⟩ := exec_release_ok hok
    rfl
  | rollback m ptr =>
    obtain ⟨rfl, -⟩ := exec_rollback_ok hok
    rfl
  | alloc k curr =>
    cases hok
    exact allocBuffer_procPibr
  | fallback k curr =>
    cases hok
    exact (not_not.mp h).symm
  | install k curr new =>
    simp only [exec, if_neg (show ¬ s.procPibr = curr from h)] at hok
    cases hok
    rfl
  | readPid k ptr =>
    simp only [exec] at hok
    split_ifs at hok <;> cases hok <;> rfl
  | cas k ptr pid idx =>
    simp only [exec] at hok
    split_ifs at hok <;> cases hok <;> rfl
  | close k ptr idx =>
    simp only [exec] at hok
    split_ifs at hok
    cases hok
    rfl
  | _ => cases hok; rfl

/-- A buffer keeps its origin, unless its address is handed out. -/
theorem noteBorn_of_not {born : Nat → Nat} {a : Nat} (hok : exec A e x s = .ok (q, s')) (h : ¬ Allocates A e s a x) :
    noteBorn born s.allocs x q a = born a := by
  cases x with
  | alloc k curr =>
    cases hok
    split_ifs
    · rfl
    · exact Function.update_of_ne (Ne.symm h) _ _
  | _ => rfl

/-- Where the flusher can be in `swap_and_flush_buffer`: before the swap it has the buffer it found. -/
def Swapping (procPibr : Nat) (born : Nat → Nat) (found : Buffer) : Pc → Prop
  | .loadFlush => procPibr = found.addr ∧ born found.addr = found.born
  | .check k curr | .alloc k curr | .fallback k curr | .install k curr _ =>
    k = none ∧ curr = found.addr ∧ born found.addr = found.born
  | .discard k _ | .readPid k _ | .sample k _ _ | .cas k _ _ _ | .close k _ _ | .write k _ | .free k _ => k = none
  | _ => False

variable {born born' : Nat → Nat} {found : Buffer}

/-- Other threads move. -/
theorem Swapping.mono {p p' : Nat} (h : Swapping p born found x) (hp : x = .loadFlush → p' = p)
    (hborn : born' found.addr = born found.addr) : Swapping p' born' found x := by
  cases x with
  | loadFlush => exact ⟨(hp rfl).trans h.1, hborn.trans h.2⟩
  | check k curr => exact ⟨h.1, h.2.1, hborn.trans h.2.2⟩
  | alloc k curr => exact ⟨h.1, h.2.1, hborn.trans h.2.2⟩
  | fallback k curr => exact ⟨h.1, h.2.1, hborn.trans h.2.2⟩
  | install k curr new => exact ⟨h.1, h.2.1, hborn.trans h.2.2⟩
  | _ => exact h

theorem swapping_swapped (p curr : Nat) : Pc.swapped none curr = .idle ∨ Swapping p born found (Pc.swapped none curr) := by
  unfold Pc.swapped
  split_ifs
  · exact Or.inr rfl
  · exact Or.inl rfl

/-- The flusher itself goes on, until it is out of `swap_and_flush_buffer`. -/
theorem Swapping.exec (h : Swapping s.procPibr born found x) (hok : exec A e x s = .ok (q, s'))
    (hreuse : ¬ Allocates A e s found.addr x) :
    q = .idle ∨ Swapping s'.procPibr (noteBorn born s.allocs x q) found q := by
  cases x with
  | loadFlush =>
    cases hok
    exact Or.inr ⟨rfl, h⟩
  | check k curr =>
    obtain ⟨rfl, h⟩ := h
    cases hok
    split_ifs
    · exact Or.inr ⟨rfl, h⟩
    · exact Or.inl rfl
  | alloc k curr =>
    obtain ⟨rfl, hcurr, hborn⟩ := h
    have hborn' : noteBorn born s.allocs (.alloc none curr) q found.addr = found.born :=
      (noteBorn_of_not hok hreuse).trans hborn
    cases hok
    split_ifs at hborn' ⊢
    · exact Or.inr ⟨rfl, hcurr, hborn'⟩
    · exact Or.inr ⟨rfl, hcurr, hborn'⟩
  | fallback k curr =>
    obtain ⟨rfl, -⟩ := h
    cases hok
    exact swapping_swapped ..
  | install k curr new =>
    obtain ⟨rfl, -⟩ := h
    simp only [Bblog.exec] at hok
    split_ifs at hok <;> cases hok
    · exact swapping_swapped ..
    · exact Or.inr rfl
  | readPid k ptr =>
    obtain rfl : k = none := h
    simp only [Bblog.exec] at hok
    split_ifs at hok <;> cases hok
    · exact Or.inl rfl
    · exact Or.inr rfl
    · exact Or.inl rfl
  | sample k ptr pid =>
    obtain rfl : k = none := h
    simp only [Bblog.exec] at hok
    split_ifs at hok <;> cases hok
    · exact Or.inl rfl
    · exact Or.inr rfl
  | cas k ptr pid idx =>
    obtain rfl : k = none := h
    simp only [Bblog.exec] at hok
    split_ifs at hok <;> cases hok
    · exact Or.inr rfl
    · exact Or.inr rfl
  | close k ptr idx =>
    obtain rfl : k = none := h
    simp only [Bblog.exec] at hok
    split_ifs at hok
    cases hok
    exact Or.inr rfl
  | write k ptr =>
    cases hok
    exact Or.inr h
  | discard k new =>
    obtain rfl : k = none := h
    cases hok
    exact Or.inl rfl
  | free k ptr =>
    obtain rfl : k = none := h
    cases hok
    exact Or.inl rfl
  | _ => cases h

end Exec

/-! ## The loop -/

section Loop

variable {τ : Type*} [DecidableEq τ] {A : Allocator} {e : Process} {f t : τ} {c c' : Conf τ} {ends : Bool}

/-- What is known at each point of the loop, when the flusher is at the point `x` of the logger. -/
def Loop.At (procPibr : Nat) (born : Nat → Nat) (x : Pc) : Loop → Prop
  | .sleep | .clock | .lastFlush _ | .ended => x = .idle
  | .null ts last | .pointer ts last => x = .idle ∧ last + flushTimeout < ts
  | .word ts last ptr => x = .idle ∧ last + flushTimeout < ts ∧ procPibr = ptr
  | .swap ts last found idx => flushBufSize ≤ idx ∧ last + flushTimeout < ts ∧ Swapping procPibr born found x

/-- What was detached was right to detach. -/
structure Conf.Inv (f : τ) (c : Conf τ) : Prop where
  good : ∀ d ∈ c.detached, d.Good
  loop : c.loop.At c.logger.state.procPibr c.born (c.logger.pc f)

/-- A difference that does not wrap. -/
theorem lt_of_elapsed {ts last : Nat} (h : last ≤ ts) (he : ¬ elapsed ts last ≤ flushTimeout) :
    last + flushTimeout < ts := by
  unfold elapsed flushTimeout at *
  omega

/-- A thread reads the clock or stores the stamp or dies, or it takes a step in the logger. -/
theorem Conf.go_cases (A : Allocator) (e : Process) (c : Conf τ) (t : τ) :
    (c.go A e t).loop = c.loop ∧ (c.go A e t).detached = c.detached ∧
      (((c.go A e t).logger.pc = c.logger.pc ∧ (c.go A e t).logger.state = c.logger.state ∧
          (c.go A e t).born = c.born) ∨
        ∃ q s, exec A e (c.logger.pc t) c.logger.state = .ok (q, s) ∧
          (c.go A e t).logger.pc = Function.update c.logger.pc t q ∧ (c.go A e t).logger.state = s ∧
          (c.go A e t).born = noteBorn c.born c.logger.state.allocs (c.logger.pc t) q) := by
  unfold Conf.go
  split
  · exact ⟨rfl, rfl, Or.inl ⟨rfl, rfl, rfl⟩⟩
  · exact ⟨rfl, rfl, Or.inl ⟨rfl, rfl, rfl⟩⟩
  · refine ⟨rfl, rfl, ?_⟩
    cases hex : exec A e (c.logger.pc t) c.logger.state with
    | error x =>
      refine Or.inl ?_
      rw [run_error hex]
      refine ⟨rfl, rfl, ?_⟩
      simp only
      cases c.logger.pc t <;> rfl
    | ok r =>
      obtain ⟨q, s⟩ := r
      refine Or.inr ⟨q, s, rfl, ?_⟩
      rw [run_ok hex]
      refine ⟨rfl, rfl, ?_⟩
      simp only [Function.update_self]

/-- Other threads move, but take the buffer only when the flusher is not choosing one, and reuse no address. -/
theorem Conf.Inv.thread (h : c.Inv f) (ht : t ≠ f)
    (hu : (c.loop.Choosing (c.logger.pc f) → ¬ Detaches c.logger.state (c.logger.pc t)) ∧
      ¬ c.loop.Reused A e c.logger.state (c.logger.pc t)) : (c.go A e t).Inv f := by
  obtain ⟨hloop, hdet, ⟨hpc, hstate, hborn⟩ | ⟨q, s, hok, hpc, hstate, hborn⟩⟩ := c.go_cases A e t
  · exact ⟨by rw [hdet]; exact h.good, by rw [hloop, hpc, hstate, hborn]; exact h.loop⟩
  · refine ⟨by rw [hdet]; exact h.good, ?_⟩
    rw [hloop, hpc, hstate, hborn, Function.update_of_ne (Ne.symm ht)]
    have hat := h.loop
    cases hl : c.loop with
    | word ts last ptr =>
      rw [hl] at hat hu
      exact ⟨hat.1, hat.2.1, (exec_procPibr hok (hu.1 trivial)).trans hat.2.2⟩
    | swap ts last found idx =>
      rw [hl] at hat hu
      exact ⟨hat.1, hat.2.1, hat.2.2.mono (fun hx => exec_procPibr hok (hu.1 hx)) (noteBorn_of_not hok hu.2)⟩
    | _ =>
      rw [hl] at hat
      exact hat

omit [DecidableEq τ] in
/-- What the flusher detaches is what it has found. -/
theorem Conf.Inv.detaches (h : c.Inv f) (hfall : FallsBackRight c.logger.state (c.logger.pc f)) :
    ∀ d ∈ c.detaches f, d.Good := by
  intro d hd
  unfold Conf.detaches at hd
  split at hd
  case h_2 => exact absurd hd List.not_mem_nil
  case h_1 ts last found idx hl =>
    have hat := h.loop
    rw [hl] at hat
    obtain ⟨hidx, htime, hswap⟩ := hat
    simp only at hd
    split_ifs at hd with hp
    · obtain rfl := List.mem_singleton.mp hd
      refine ⟨?_, hidx, htime⟩
      obtain ⟨hdet, hnull⟩ := hp
      have hcurr : c.logger.state.procPibr = found.addr ∧ c.born found.addr = found.born := by
        cases hpc : c.logger.pc f with
        | fallback k curr =>
          rw [hpc] at hfall hswap
          exact ⟨(hfall.resolve_left hnull).trans hswap.2.1, hswap.2.2⟩
        | install k curr new =>
          rw [hpc] at hdet hswap
          exact ⟨Eq.trans hdet hswap.2.1, hswap.2.2⟩
        | _ =>
          rw [hpc] at hdet
          exact hdet.elim
      obtain ⟨addr, born⟩ := found
      simp only at hcurr ⊢
      rw [hcurr.1, hcurr.2]
    · exact absurd hd List.not_mem_nil

/-- The flusher goes on in `swap_and_flush_buffer`. -/
theorem Conf.Inv.swap (h : c.Inv f) {ts last idx : Nat} {found : Buffer} (hl : c.loop = .swap ts last found idx)
    (hfall : FallsBackRight c.logger.state (c.logger.pc f))
    (hreuse : ¬ Allocates A e c.logger.state found.addr (c.logger.pc f)) :
    Conf.Inv f { c.go A e f with
      detached := c.detached ++ c.detaches f
      loop := if (c.go A e f).logger.pc f = .idle then .sleep else .swap ts last found idx } := by
  have hat := h.loop
  rw [hl] at hat
  obtain ⟨hidx, htime, hswap⟩ := hat
  refine ⟨fun d hd => ?_, ?_⟩
  · rcases List.mem_append.mp hd with hd | hd
    · exact h.good d hd
    · exact h.detaches hfall d hd
  · by_cases hidle : (c.go A e f).logger.pc f = .idle
    · simp only [if_pos hidle]
      exact hidle
    · simp only [if_neg hidle]
      refine ⟨hidx, htime, ?_⟩
      obtain ⟨-, -, ⟨hpc, hstate, hborn⟩ | ⟨q, s, hok, hpc, hstate, hborn⟩⟩ := c.go_cases A e f
      · rw [hpc, hstate, hborn]
        exact hswap
      · rw [hpc, Function.update_self] at hidle
        rw [hpc, hstate, hborn, Function.update_self]
        exact (hswap.exec hok hreuse).resolve_left hidle

/-- The flusher goes on. -/
theorem Conf.Inv.flusher (h : c.Inv f) (hu : c.Undisturbed A e f (.flusher ends))
    (hs : c.flusher A e f ends = some c') : c'.Inv f := by
  obtain ⟨htimely, hfall, hreuse⟩ := hu
  have hat := h.loop
  unfold Conf.flusher at hs
  cases hl : c.loop with
  | sleep =>
    rw [hl] at hat hs
    obtain rfl := Option.some.inj hs
    refine ⟨h.good, ?_⟩
    cases ends <;> exact hat
  | clock =>
    rw [hl] at hat hs
    obtain rfl := Option.some.inj hs
    exact ⟨h.good, hat⟩
  | lastFlush ts =>
    rw [hl] at hat hs htimely
    obtain rfl := Option.some.inj hs
    refine ⟨h.good, ?_⟩
    by_cases he : elapsed ts c.lastFlush ≤ flushTimeout
    · simp only [if_pos he]
      exact hat
    · simp only [if_neg he]
      exact ⟨hat, lt_of_elapsed htimely he⟩
  | null ts last =>
    rw [hl] at hat hs
    obtain rfl := Option.some.inj hs
    refine ⟨h.good, ?_⟩
    by_cases hp : c.logger.state.procPibr = 0
    · simp only [if_pos hp]
      exact hat.1
    · simp only [if_neg hp]
      exact hat
  | pointer ts last =>
    rw [hl] at hat hs
    obtain rfl := Option.some.inj hs
    exact ⟨h.good, hat.1, hat.2, rfl⟩
  | word ts last ptr =>
    rw [hl] at hat hs
    obtain ⟨hidle, htime, hptr⟩ := hat
    simp only at hs
    split_ifs at hs with hnull hskip <;> obtain rfl := Option.some.inj hs
    · -- the process is killed
      exact ⟨h.good, hidle, htime, hptr⟩
    · exact ⟨h.good, hidle⟩
    · refine ⟨h.good, ?_, htime, ?_⟩
      · exact Nat.le_of_not_lt fun hlt => hskip (Or.inr (Or.inr (Or.inr hlt)))
      · simp only [Bblog.Conf.goto, Function.update_self]
        exact ⟨hptr, rfl⟩
  | swap ts last found idx =>
    rw [hl] at hs hreuse
    obtain rfl := Option.some.inj hs
    exact h.swap hl hfall hreuse
  | ended =>
    rw [hl] at hs
    cases hs

/-- **One step keeps the invariant**, if no other thread comes between. -/
theorem Conf.Inv.step (h : c.Inv f) {ev : Event τ} (hu : c.Undisturbed A e f ev) (hs : c.step A e f ev = some c') :
    c'.Inv f := by
  have hgoto : ∀ {u : τ} {q : Pc}, u ≠ f → Conf.Inv f { c with logger := c.logger.goto u q } := fun {u q} hne => by
    refine ⟨h.good, ?_⟩
    simp only [Bblog.Conf.goto, Function.update_of_ne (Ne.symm hne)]
    exact h.loop
  cases ev with
  | tick =>
    obtain rfl := Option.some.inj hs
    exact ⟨h.good, h.loop⟩
  | thread u move =>
    have hdead : ¬ (c.logger.killed = true ∨ u = f) := fun hd => by simp [Conf.step, hd] at hs
    have hne : u ≠ f := fun heq => hdead (Or.inr heq)
    simp only [Conf.step, if_neg hdead] at hs
    cases move with
    | run =>
      split_ifs at hs
      obtain rfl := Option.some.inj hs
      exact h.thread hne hu
    | blog m =>
      split_ifs at hs
      obtain rfl := Option.some.inj hs
      exact hgoto hne
    | flush =>
      split_ifs at hs
      obtain rfl := Option.some.inj hs
      exact hgoto hne
  | flusher ends =>
    simp only [Conf.step] at hs
    split_ifs at hs
    exact h.flusher hu hs

omit [DecidableEq τ] in
theorem Conf.Started.inv (h : c.Started A e) : c.Inv f := by
  obtain ⟨cntr, mem, hlog⟩ := h.logger
  refine ⟨fun d hd => ?_, ?_⟩
  · rw [h.detached] at hd
    exact absurd hd List.not_mem_nil
  · rw [h.loop, hlog]
    rfl

/-- **The flusher flushes idle and well-filled buffers**, in every run in which no other thread comes between. -/
theorem flushes_idle (A : Allocator) (e : Process) (f : τ) (c : Conf τ)
    (hc : Reach (Conf.step A e f) (Conf.Undisturbed A e f) (Conf.Started A e) c) : ∀ d ∈ c.detached, d.Good :=
  (Reach.inv (fun _ hc => hc.inv) (fun _ _ _ hc hu hs => hc.step hu hs) hc : c.Inv f).good

end Loop

/-! ## A flush that is right, and two that are not -/

/-- A process that has just started; the flusher is thread `1`. -/
def appLoop : Conf (Fin 2) := ⟨appThreads 2, 10, 0, fun _ => .unread, .sleep, fun _ => 0, []⟩

theorem appLoop_started : appLoop.Started twoPages app := ⟨appThreads_started 2, rfl, rfl⟩

/-- A record of 1100 bytes. -/
def filler1099 : Record := filler 1099 (by decide)

/-- Thread `0` takes `n` steps. -/
def logs (n : Nat) : List (Event (Fin 2)) := List.replicate n (.thread 0 .run)

/-- The flusher does. -/
def flushes (n : Nat) : List (Event (Fin 2)) := List.replicate n (.flusher false)

/-- Thread `0` stores a record; ten seconds after the start the flusher detaches the buffer. -/
def quiet : List (Event (Fin 2)) := .thread 0 (.blog filler1099) :: logs 4 ++ flushes 10

theorem quiet_flush : ∃ c : Conf (Fin 2),
    Reach (Conf.step twoPages app 1) (Conf.Undisturbed twoPages app 1) (Conf.Started twoPages app) c ∧
      c.detached = [⟨⟨4096, 0⟩, ⟨4096, 0⟩, 1131, 10, 0⟩] ∧ ∀ d ∈ c.detached, d.Good := by
  have hrun : (runAll (Conf.step twoPages app 1) (Conf.Undisturbed twoPages app 1) appLoop quiet).any
      (fun c => c.detached = [⟨⟨4096, 0⟩, ⟨4096, 0⟩, 1131, 10, 0⟩]) = true := by decide +kernel
  obtain ⟨c, hc, hp⟩ := Reach.of_runAll appLoop_started _ _ hrun
  exact ⟨c, hc, of_decide_eq_true hp, flushes_idle twoPages app 1 c hc⟩

/-- Thread `0` stores a short record; while the flusher is between clock and stamp a second passes, thread `0` flushes
and fills the next buffer. -/
def overtaken : List (Event (Fin 2)) :=
  .thread 0 (.blog filler4) :: logs 4 ++ flushes 2 ++ .tick :: .thread 0 .flush :: logs 12 ++
    .thread 0 (.blog filler1099) :: logs 4 ++ flushes 8

/-- Thread `0` fills a buffer, and flushes it when the flusher has found it. -/
def exchanged : List (Event (Fin 2)) :=
  .thread 0 (.blog filler1099) :: logs 4 ++ flushes 6 ++ .thread 0 .flush :: logs 12 ++ flushes 4

/-- **The flusher detaches a buffer in the second of a flush, and an empty buffer for a full one.** -/
theorem flush_between :
    (∃ c : Conf (Fin 2), Reach (Conf.step twoPages app 1) (fun _ _ => True) (Conf.Started twoPages app) c ∧
      ∃ d ∈ c.detached, d.last = 11 ∧ d.ts = 10 ∧ ¬ d.Good) ∧
    ∃ c : Conf (Fin 2), Reach (Conf.step twoPages app 1) (fun _ _ => True) (Conf.Started twoPages app) c ∧
      ∃ d ∈ c.detached, d.found = ⟨4096, 0⟩ ∧ d.taken = ⟨8192, 1⟩ ∧ ¬ d.Good := by
  constructor
  · have hrun : (runAll (Conf.step twoPages app 1) (fun _ _ => True) appLoop overtaken).any
        (fun c => ∃ d ∈ c.detached, d.last = 11 ∧ d.ts = 10 ∧ ¬ d.Good) = true := by decide +kernel
    obtain ⟨c, hc, hp⟩ := Reach.of_runAll appLoop_started _ _ hrun
    exact ⟨c, hc, of_decide_eq_true hp⟩
  · have hrun : (runAll (Conf.step twoPages app 1) (fun _ _ => True) appLoop exchanged).any
        (fun c => ∃ d ∈ c.detached, d.found = ⟨4096, 0⟩ ∧ d.taken = ⟨8192, 1⟩ ∧ ¬ d.Good) = true := by
      decide +kernel
    obtain ⟨c, hc, hp⟩ := Reach.of_runAll appLoop_started _ _ hrun
    exact ⟨c, hc, of_decide_eq_true hp⟩

end Cosmost.Flusher
