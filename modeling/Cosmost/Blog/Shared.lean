import Cosmost.Record
import Mathlib.Data.Fintype.Basic

/-!
# The unbatched logger with several threads (`blog.c`)

The prefix and its length are variables of the process, and each thread copies the prefix to a buffer of its own once. A
line is put behind the copy at what the shared length says then. `init_buffer` lets every thread that finds an old
`procid` fill prefix and length, with a counter of its own, before the compare-and-swap decides which of them was first.

`lines_whole`: every line is a whole prefix, the whole body and a brace, in every run of any number of threads in which no
thread changes the length while another has a copy, or publishes a prefix that was cut. `late_fill_cuts` are two threads,
of which the second fills after the first has its copy.
-/

namespace Cosmost.Blog

open Cosmost.Lib
open Bblog (Process)

/-! ## Threads -/

/-- What is passed to the log: what `vsnprintf` printed, unless it failed, and the buffer. -/
structure Line where
  body : Option (List Char)
  buffer : Bytes

/-- The variables that the threads share, and the log. -/
structure Globals where
  /-- `_cntr`. -/
  cntr : Nat
  procid : Nat
  prefixBuf : List Char
  prefixLen : Int
  log : List Line

/-- Where a thread stands in a call of `blog`; `v` is what its `vsnprintf` will do. -/
inductive Pc
  /-- Outside. -/
  | idle
  /-- Before the test of `thread_pid`. -/
  | check (v : Print)
  /-- Before the load of `procid`. -/
  | load (v : Print)
  /-- Before the `snprintf` to `prefix`. -/
  | fill (v : Print) (oldPid : Nat)
  /-- Before the test of `prefix_len < 0`. -/
  | negative (v : Print) (oldPid : Nat)
  /-- Before the test of `prefix_len >= MAX_PREFIX_SIZE`. -/
  | long (v : Print) (oldPid : Nat)
  /-- Before the compare-and-swap. -/
  | cas (v : Print) (oldPid : Nat)
  /-- Before the test of `buf[0]`, and `thread_pid = procid`. -/
  | mark (v : Print)
  /-- Before the `strcpy`. -/
  | copy (v : Print)
  /-- Before the `return prefix_len`. -/
  | ret (v : Print)
  /-- In `blog`, with the length that was returned. -/
  | print (v : Print) (size : Nat)

/-- A thread and its variables. -/
structure Thread where
  pc : Pc
  threadPid : Nat
  /-- `buffer`, of `BUFFER_SIZE` bytes. -/
  buffer : Bytes

/-- A thread goes to another point. -/
def Thread.goto (x : Thread) (q : Pc) : Thread := { x with pc := q }

/-- What `vsnprintf` printed. -/
def printed : Print → Option (List Char)
  | .text s _ => some s
  | .error _ _ _ => none

/-- `snprintf` to `prefix`, with the next counter. -/
def Globals.fill (e : Process) (s : Globals) : Globals :=
  let n := (s.cntr + 1) % 2 ^ 64
  { s with cntr := n, prefixBuf := fits maxPrefixLen (prefixText e n), prefixLen := (prefixText e n).length }

/-- `snprintf` fails. -/
def Globals.fail (written : List Char) (code : Nat) (s : Globals) : Globals :=
  { s with cntr := (s.cntr + 1) % 2 ^ 64, prefixBuf := written, prefixLen := -((code : Int) + 1) }

/-- One step of a thread. -/
def exec (e : Process) (x : Thread) (s : Globals) : Thread × Globals :=
  match x.pc with
  | .idle => (x, s)
  | .check v =>
    if x.threadPid = e.pid then (x.goto (.ret v), s) else ({ x with buffer := blit x.buffer 0 [nul] }.goto (.load v), s)
  | .load v => (x.goto (if s.procid = e.pid then .mark v else .fill v s.procid), s)
  | .fill v oldPid => (x.goto (.negative v oldPid), s.fill e)
  | .negative v oldPid => (x.goto (if s.prefixLen < 0 then .idle else .long v oldPid), s)
  | .long v oldPid => (x.goto (if s.prefixLen ≥ maxPrefixLen then .idle else .cas v oldPid), s)
  | .cas v oldPid =>
    if s.procid = oldPid then (x.goto (.mark v), { s with procid := e.pid }) else (x.goto (.load v), s)
  | .mark v =>
    if x.buffer 0 = nul then ({ x with threadPid := s.procid }.goto (.copy v), s) else (x.goto (.ret v), s)
  | .copy v => ({ x with buffer := strcpy x.buffer 0 s.prefixBuf }.goto (.ret v), s)
  | .ret v => (x.goto (if s.prefixLen < 0 then .idle else .print v s.prefixLen.toNat), s)
  | .print v size =>
    match closeRecord noBatchBufferSize '\x7d' size v x.buffer with
    | (buffer, none) => ({ x with buffer := buffer }.goto .idle, s)
    | (buffer, some _) => ({ x with buffer := buffer }.goto .idle, { s with log := s.log ++ [⟨printed v, buffer⟩] })

/-! ## Runs -/

/-- A process with the threads `τ`. -/
structure Conf (τ : Type*) where
  globals : Globals
  thread : τ → Thread

/-- A move of a thread: a call of `blog`, a step, or an `snprintf` that fails. -/
inductive Move
  | blog (v : Print)
  | run
  | fail (written : List Char) (code : Nat)

section Step

variable {τ : Type*}

/-- A thread and the shared variables are as given. -/
def Conf.put [DecidableEq τ] (c : Conf τ) (t : τ) (r : Thread × Globals) : Conf τ :=
  ⟨r.2, Function.update c.thread t r.1⟩

/-- The state after a move. -/
def Conf.step [DecidableEq τ] (e : Process) (c : Conf τ) : τ × Move → Option (Conf τ)
  | (t, .blog v) =>
    match (c.thread t).pc with
    | .idle => some (c.put t ((c.thread t).goto (.check v), c.globals))
    | _ => none
  | (t, .run) => some (c.put t (exec e (c.thread t) c.globals))
  | (t, .fail written code) =>
    match (c.thread t).pc with
    | .fill v oldPid => some (c.put t ((c.thread t).goto (.negative v oldPid), c.globals.fail written code))
    | _ => none

/-- A process that has not logged: a new one, or the child of a fork, with anything in its buffers. -/
structure Conf.Started (e : Process) (c : Conf τ) : Prop where
  idle : ∀ t, (c.thread t).pc = .idle
  threadPid : ∀ t, (c.thread t).threadPid ≠ e.pid
  procid : c.globals.procid ≠ e.pid
  log : c.globals.log = []

/-- The thread is about to copy the prefix. -/
def Pc.copies : Pc → Bool
  | .copy _ => true
  | _ => false

/-- The thread has a copy of the prefix. -/
def Thread.Cached (e : Process) (x : Thread) : Prop := x.threadPid = e.pid ∧ x.pc.copies = false

/-- The thread may go on: a fill after the prefix was published is not cut, and keeps the length unless nobody has a copy;
a prefix that is published was not cut; and a failure of `vsnprintf` shows in the size. -/
def Conf.SoundAt (e : Process) (c : Conf τ) : Pc → Prop
  | .fill _ _ =>
    c.globals.procid ≠ e.pid ∨
      (c.globals.fill e).prefixLen < maxPrefixLen ∧
        ((c.globals.fill e).prefixLen = c.globals.prefixLen ∨ ∀ u, ¬ (c.thread u).Cached e)
  | .cas _ oldPid => c.globals.procid = oldPid → c.globals.prefixLen < maxPrefixLen
  | .print v size => v.Sound size
  | _ => True

/-- A step of a thread that may go on, or any other move. -/
def Conf.Sound (e : Process) (c : Conf τ) : τ × Move → Prop
  | (t, .run) => c.SoundAt e (c.thread t).pc
  | _ => True

end Step

/-- A line is a whole prefix with some counter, the whole body and a brace, with a NUL inside the buffer. -/
def Line.Whole (e : Process) (l : Line) : Prop :=
  ∃ n, ∃ body ∈ l.body, Holds l.buffer 0 (entry (prefixText e n) body ++ [nul]) ∧
    (entry (prefixText e n) body).length < noBatchBufferSize

/-! ## The invariant -/

/-- The buffer begins with a whole prefix of this length. -/
def Has (e : Process) (buf : Bytes) (len : Int) : Prop :=
  ∃ n, Holds buf 0 (prefixText e n) ∧ len = (prefixText e n).length ∧ (prefixText e n).length < maxPrefixLen

/-- What an `snprintf` of the process left in `prefix` and `prefix_len`. -/
def Globals.Filled (e : Process) (s : Globals) : Prop :=
  s.prefixLen < 0 ∨ ∃ n, s.prefixBuf = fits maxPrefixLen (prefixText e n) ∧ s.prefixLen = (prefixText e n).length

/-- What a thread relies on at each point. -/
def Thread.At (e : Process) (x : Thread) (s : Globals) : Prop :=
  match x.pc with
  | .idle | .check _ => True
  | .load _ | .fill _ _ => x.buffer 0 = nul
  | .negative _ _ | .long _ _ | .cas _ _ => x.buffer 0 = nul ∧ s.Filled e
  | .mark _ => x.buffer 0 = nul ∧ s.procid = e.pid
  | .copy _ | .ret _ => x.threadPid = e.pid
  | .print _ size => x.threadPid = e.pid ∧ Has e x.buffer size ∧ (s.prefixLen < 0 ∨ s.prefixLen = size)

/-- A thread that has marked itself has seen the pid, and has a copy of the prefix as soon as it is made. -/
structure Thread.Ok (e : Process) (x : Thread) (s : Globals) : Prop where
  here : x.At e s
  marked : x.threadPid = e.pid → s.procid = e.pid
  cached : x.Cached e → s.prefixLen < 0 ∨ Has e x.buffer s.prefixLen

/-- A prefix that was published is not cut, the threads are well, and so are the lines. -/
structure Conf.Inv {τ : Type*} (e : Process) (c : Conf τ) : Prop where
  published : c.globals.procid = e.pid → c.globals.Filled e ∧ c.globals.prefixLen < maxPrefixLen
  thread : ∀ t, (c.thread t).Ok e c.globals
  log : ∀ l ∈ c.globals.log, l.Whole e

section Inv

variable {e : Process} {x : Thread} {s s' : Globals}

/-- A prefix that was not cut can be copied. -/
theorem Globals.Filled.has (h : s.Filled e) (hlt : s.prefixLen < maxPrefixLen) (buf : Bytes) :
    s.prefixLen < 0 ∨ Has e (strcpy buf 0 s.prefixBuf) s.prefixLen := by
  rcases h with h | ⟨n, hbuf, hlen⟩
  · exact Or.inl h
  · have hshort : (prefixText e n).length < maxPrefixLen := by omega
    refine Or.inr ⟨n, ?_, hlen, hshort⟩
    rw [hbuf, fits_eq hshort]
    exact (holds_blit _ _ _).left

/-- A thread stays well as long as `procid` is not changed back, and the length, if the thread has a copy, only by a
failure. -/
theorem Thread.Ok.stable (h : x.Ok e s) (hfilled : s.Filled e → s'.Filled e) (hpid : s.procid = e.pid → s'.procid = e.pid)
    (hlen : x.Cached e → s'.prefixLen < 0 ∨ s'.prefixLen = s.prefixLen) : x.Ok e s' where
  here := by
    have hhere := h.here
    unfold Thread.At at hhere ⊢
    cases hpc : x.pc with
    | idle => trivial
    | check v => trivial
    | load v => rwa [hpc] at hhere
    | fill v oldPid => rwa [hpc] at hhere
    | negative v oldPid =>
      rw [hpc] at hhere
      exact ⟨hhere.1, hfilled hhere.2⟩
    | long v oldPid =>
      rw [hpc] at hhere
      exact ⟨hhere.1, hfilled hhere.2⟩
    | cas v oldPid =>
      rw [hpc] at hhere
      exact ⟨hhere.1, hfilled hhere.2⟩
    | mark v =>
      rw [hpc] at hhere
      exact ⟨hhere.1, hpid hhere.2⟩
    | copy v => rwa [hpc] at hhere
    | ret v => rwa [hpc] at hhere
    | print v size =>
      rw [hpc] at hhere
      obtain ⟨hmarked, hhas, hsize⟩ := hhere
      refine ⟨hmarked, hhas, ?_⟩
      rcases hlen ⟨hmarked, by rw [hpc]; rfl⟩ with hneg | hsame
      · exact Or.inl hneg
      · rw [hsame]
        exact hsize
  marked := fun hx => hpid (h.marked hx)
  cached := fun hx => by
    rcases hlen hx with hneg | hsame
    · exact Or.inl hneg
    · rw [hsame]
      exact h.cached hx

/-- A thread that keeps its copy goes on. -/
theorem Thread.Ok.goto (h : x.Ok e s) (hcopy : x.pc.copies = false) {q : Pc} (hq : (x.goto q).At e s) :
    (x.goto q).Ok e s where
  here := hq
  marked := h.marked
  cached := fun hx => h.cached ⟨hx.1, hcopy⟩

variable {τ : Type*} [DecidableEq τ] {c : Conf τ} {t : τ}

/-- One thread moves, and the others stay well. -/
theorem Conf.Inv.put (h : c.Inv e) (hx : x.Ok e s')
    (hpublished : s'.procid = e.pid → s'.Filled e ∧ s'.prefixLen < maxPrefixLen) (hlog : ∀ l ∈ s'.log, l.Whole e)
    (hfilled : c.globals.Filled e → s'.Filled e) (hpid : c.globals.procid = e.pid → s'.procid = e.pid)
    (hlen : ∀ u, (c.thread u).Cached e → s'.prefixLen < 0 ∨ s'.prefixLen = c.globals.prefixLen) :
    (c.put t (x, s')).Inv e where
  published := hpublished
  thread := fun u => by
    by_cases hut : u = t
    · subst hut
      simpa [Conf.put] using hx
    · simpa [Conf.put, hut] using (h.thread u).stable hfilled hpid (hlen u)
  log := hlog

/-- One thread moves and leaves the shared variables. -/
theorem Conf.Inv.put_same (h : c.Inv e) (hx : x.Ok e c.globals) : (c.put t (x, c.globals)).Inv e :=
  h.put hx h.published h.log id id fun _ _ => Or.inr rfl

/-- **A fill**, by `snprintf` or by its failure: the length is kept, or nobody has a copy, or it is negative. -/
theorem Conf.Inv.fill (h : c.Inv e) {v : Print} {oldPid : Nat} (hpc : (c.thread t).pc = .fill v oldPid)
    (hfilled : s'.Filled e) (hprocid : s'.procid = c.globals.procid) (hlog : s'.log = c.globals.log)
    (hlen : s'.prefixLen < 0 ∨ c.globals.procid ≠ e.pid ∨
      s'.prefixLen < maxPrefixLen ∧ (s'.prefixLen = c.globals.prefixLen ∨ ∀ u, ¬ (c.thread u).Cached e)) :
    (c.put t ((c.thread t).goto (.negative v oldPid), s')).Inv e := by
  have hkept : ∀ u, (c.thread u).Cached e → s'.prefixLen < 0 ∨ s'.prefixLen = c.globals.prefixLen := by
    intro u hu
    rcases hlen with hneg | hnew | ⟨-, hsame | hnone⟩
    · exact Or.inl hneg
    · exact absurd ((h.thread u).marked hu.1) hnew
    · exact Or.inr hsame
    · exact absurd hu (hnone u)
  have hx := (h.thread t).stable (fun _ => hfilled) (fun hp => hprocid.trans hp) (hkept t)
  refine h.put (hx.goto (by rw [hpc]; rfl) ?_) (fun hp => ⟨hfilled, ?_⟩) (by rw [hlog]; exact h.log)
    (fun _ => hfilled) (fun hp => hprocid.trans hp) hkept
  · have hhere := (h.thread t).here
    simp only [Thread.At, hpc] at hhere
    exact ⟨hhere, hfilled⟩
  · rcases hlen with hneg | hnew | ⟨hlt, -⟩
    · have : (0 : Int) < maxPrefixLen := by decide
      omega
    · exact absurd (hprocid.symm.trans hp) hnew
    · exact hlt

/-- **A line** behind a whole prefix is whole, and the prefix stays. -/
theorem Has.closeRecord {buf : Bytes} {size : Nat} (h : Has e buf size) {v : Print} (hv : v.Sound size) :
    Has e (closeRecord noBatchBufferSize '\x7d' size v buf).1 size ∧
      ((closeRecord noBatchBufferSize '\x7d' size v buf).2 ≠ none →
        Line.Whole e ⟨printed v, (Cosmost.closeRecord noBatchBufferSize '\x7d' size v buf).1⟩) := by
  have hmax : noBatchBufferSize < 2 ^ 31 := by decide
  obtain ⟨n, hholds, hlen, hshort⟩ := h
  obtain rfl : size = (prefixText e n).length := Int.ofNat_inj.mp hlen
  have hroom := prefix_room hshort
  refine ⟨⟨n, closeRecord_keeps hholds hroom hmax _ hv, rfl, hshort⟩, fun hsome => ?_⟩
  cases v with
  | text body short =>
    by_cases hfit : body.length < noBatchBufferSize - (prefixText e n).length - 2
    · obtain ⟨buf', hclose, hwhole, hlt⟩ := closeRecord_fits hholds hroom hmax '\x7d' short hfit
      rw [hclose]
      exact ⟨n, body, rfl, hwhole, hlt⟩
    · exact absurd (closeRecord_long hroom hmax hfit) hsome
  | error written code valid => exact absurd (closeRecord_refused hroom hmax hv) hsome

/-- **One step of a thread.** -/
theorem Conf.Inv.run (h : c.Inv e) (hs : c.SoundAt e (c.thread t).pc) :
    (c.put t (exec e (c.thread t) c.globals)).Inv e := by
  have hx := h.thread t
  have hhere := hx.here
  cases hpc : (c.thread t).pc with
  | idle =>
    simp only [exec, hpc]
    exact h.put_same hx
  | check v =>
    simp only [exec, hpc]
    split_ifs with hmarked
    · exact h.put_same (hx.goto (by rw [hpc]; rfl) hmarked)
    · refine h.put_same ⟨?_, fun hm => absurd hm hmarked, fun hm => absurd hm.1 hmarked⟩
      exact holds_blit (c.thread t).buffer 0 [nul] 0 (by simp)
  | load v =>
    simp only [Thread.At, hpc] at hhere
    simp only [exec, hpc]
    refine h.put_same (hx.goto (by rw [hpc]; rfl) ?_)
    split_ifs with hpid
    · exact ⟨hhere, hpid⟩
    · exact hhere
  | fill v oldPid =>
    simp only [exec, hpc]
    rw [hpc] at hs
    exact h.fill hpc (Or.inr ⟨_, rfl, rfl⟩) rfl rfl (Or.inr hs)
  | negative v oldPid =>
    simp only [Thread.At, hpc] at hhere
    simp only [exec, hpc]
    refine h.put_same (hx.goto (by rw [hpc]; rfl) ?_)
    split_ifs
    · trivial
    · exact hhere
  | long v oldPid =>
    simp only [Thread.At, hpc] at hhere
    simp only [exec, hpc]
    refine h.put_same (hx.goto (by rw [hpc]; rfl) ?_)
    split_ifs
    · trivial
    · exact hhere
  | cas v oldPid =>
    simp only [Thread.At, hpc] at hhere
    rw [hpc] at hs
    simp only [exec, hpc]
    split_ifs with hold
    · -- the prefix is published
      have hx' : (c.thread t).Ok e { c.globals with procid := e.pid } :=
        hx.stable id (fun _ => rfl) (fun _ => Or.inr rfl)
      exact h.put (hx'.goto (by rw [hpc]; rfl) ⟨hhere.1, rfl⟩) (fun _ => ⟨hhere.2, hs hold⟩) h.log id (fun _ => rfl)
        (fun _ _ => Or.inr rfl)
    · exact h.put_same (hx.goto (by rw [hpc]; rfl) hhere.1)
  | mark v =>
    simp only [Thread.At, hpc] at hhere
    simp only [exec, hpc, hhere.1, ↓reduceIte]
    exact h.put_same ⟨hhere.2, fun _ => hhere.2, fun hm => by cases hm.2⟩
  | copy v =>
    simp only [Thread.At, hpc] at hhere
    simp only [exec, hpc]
    obtain ⟨hfilled, hlt⟩ := h.published (hx.marked hhere)
    exact h.put_same ⟨hhere, hx.marked, fun _ => hfilled.has hlt _⟩
  | ret v =>
    simp only [Thread.At, hpc] at hhere
    simp only [exec, hpc]
    refine h.put_same (hx.goto (by rw [hpc]; rfl) ?_)
    split_ifs with hneg
    · trivial
    · have hsize : (c.globals.prefixLen.toNat : Int) = c.globals.prefixLen := Int.toNat_of_nonneg (not_lt.mp hneg)
      have hcached := hx.cached ⟨hhere, by rw [hpc]; rfl⟩
      refine ⟨hhere, ?_, Or.inr hsize.symm⟩
      rw [hsize]
      exact hcached.resolve_left hneg
  | print v size =>
    simp only [Thread.At, hpc] at hhere
    rw [hpc] at hs
    obtain ⟨-, hhas, hsize⟩ := hhere
    obtain ⟨hkeeps, hwhole⟩ := hhas.closeRecord hs
    simp only [exec, hpc]
    cases hclose : closeRecord noBatchBufferSize '\x7d' size v (c.thread t).buffer with
    | mk buf accepted =>
      rw [hclose] at hkeeps hwhole
      have hcached : c.globals.prefixLen < 0 ∨ Has e buf c.globals.prefixLen := by
        rcases hsize with hneg | heq
        · exact Or.inl hneg
        · rw [heq]
          exact Or.inr hkeeps
      have hx' : ({ c.thread t with buffer := buf }.goto .idle).Ok e c.globals := ⟨trivial, hx.marked, fun _ => hcached⟩
      cases accepted with
      | none => exact h.put_same hx'
      | some k =>
        refine h.put (hx'.stable id id fun _ => Or.inr rfl) h.published ?_ id id (fun _ _ => Or.inr rfl)
        intro l hl
        rcases List.mem_append.mp hl with hl | hl
        · exact h.log l hl
        · rw [List.mem_singleton.mp hl]
          exact hwhole (by simp)

/-- **Sound moves keep the invariant.** -/
theorem Conf.Inv.step {c' : Conf τ} {m : τ × Move} (h : c.Inv e) (hs : c.Sound e m) (hstep : c.step e m = some c') :
    c'.Inv e := by
  obtain ⟨t, mv⟩ := m
  cases mv with
  | blog v =>
    simp only [Conf.step] at hstep
    split at hstep
    · rename_i hpc
      cases hstep
      exact h.put_same ((h.thread t).goto (by rw [hpc]; rfl) trivial)
    · cases hstep
  | run =>
    cases hstep
    exact h.run hs
  | fail written code =>
    simp only [Conf.step] at hstep
    split at hstep
    · rename_i v oldPid hpc
      cases hstep
      have hneg : (c.globals.fail written code).prefixLen < 0 := by
        simp only [Globals.fail]
        omega
      exact h.fill hpc (Or.inl hneg) rfl rfl (Or.inl hneg)
    · cases hstep

omit [DecidableEq τ] in
theorem Conf.Started.inv (h : c.Started e) : c.Inv e where
  published := fun hp => absurd hp h.procid
  thread := fun t => ⟨by simp only [Thread.At, h.idle t], fun hp => absurd hp (h.threadPid t),
    fun hp => absurd hp.1 (h.threadPid t)⟩
  log := fun l hl => by
    rw [h.log] at hl
    exact absurd hl List.not_mem_nil

end Inv

/-- **Unbatched lines carry a whole prefix.** For every process, new or just forked, and any number of threads that call
`blog` any number of times, in every run of sound moves: every line that went to the log is one whole prefix, the whole
body and a brace. -/
theorem lines_whole {τ : Type*} [DecidableEq τ] (e : Process) (c : Conf τ)
    (hc : Reach (Conf.step e) (Conf.Sound e) (Conf.Started e) c) : ∀ l ∈ c.globals.log, l.Whole e := by
  have hinv : c.Inv e := Reach.inv (fun _ h => h.inv) (fun _ _ _ h hs hstep => h.step hs hstep) hc
  exact hinv.log

/-- What the log gets of a whole line: the entry. -/
theorem Line.Whole.text {e : Process} {l : Line} (h : l.Whole e) (hbody : ∀ body ∈ l.body, NulFree body) :
    ∃ n, ∃ body ∈ l.body, cstr noBatchBufferSize l.buffer = entry (prefixText e n) body := by
  obtain ⟨n, body, hmem, hholds, hlen⟩ := h
  have hbrace : NulFree "\x7d".toList := by unfold NulFree nul; decide
  exact ⟨n, body, hmem, cstr_of_holds (((prefixText_nulFree e n).append (hbody body hmem)).append hbrace) hholds hlen⟩

/-! ## Two threads -/

instance (e : Process) (x : Thread) : Decidable (x.Cached e) := inferInstanceAs (Decidable (_ ∧ _))

instance {τ : Type*} [Fintype τ] (e : Process) (c : Conf τ) : ∀ q, Decidable (c.SoundAt e q)
  | .fill _ _ => inferInstanceAs (Decidable (_ ∨ _ ∧ (_ ∨ _)))
  | .cas _ _ => inferInstanceAs (Decidable (_ → _))
  | .print v _ => inferInstanceAs (Decidable (Print.Sound _ v))
  | .idle | .check _ | .load _ | .negative _ _ | .long _ _ | .mark _ | .copy _ | .ret _ => isTrue trivial

instance {τ : Type*} [Fintype τ] (e : Process) (c : Conf τ) : ∀ m, Decidable (c.Sound e m)
  | (t, .run) => inferInstanceAs (Decidable (c.SoundAt e (c.thread t).pc))
  | (_, .blog _) | (_, .fail _ _) => isTrue trivial

/-- Nothing fails. -/
def Served : Move → Prop
  | .blog (.text _ _) | .run => True
  | .blog (.error _ _ _) | .fail _ _ => False

instance : ∀ m, Decidable (Served m)
  | .blog (.text _ _) | .run => isTrue trivial
  | .blog (.error _ _ _) | .fail _ _ => isFalse not_false

/-- Two threads of a new process whose counter stands at `8`. -/
def twoThreads : Conf (Fin 2) := ⟨⟨8, 0, [], 0, []⟩, fun _ => ⟨.idle, 0, fun _ => nul⟩⟩

theorem twoThreads_started : twoThreads.Started Bblog.app := ⟨fun _ => rfl, fun _ => (by decide : 0 ≠ Bblog.app.pid), by decide, rfl⟩

/-- Steps of one thread. -/
def turns (t : Fin 2) (n : Nat) : List (Fin 2 × Move) := List.replicate n (t, .run)

/-- A call with the body `x`. -/
def call (t : Fin 2) : Fin 2 × Move := (t, .blog (.text ['x'] (by decide)))

/-- The second thread fills its prefix while the first is before its compare-and-swap, and both lines are whole. -/
theorem early_fill_whole : ∃ c : Conf (Fin 2),
    Reach (Conf.step Bblog.app) (Conf.Sound Bblog.app) (Conf.Started Bblog.app) c ∧ c.globals.log.length = 2 ∧
      ∀ l ∈ c.globals.log, l.Whole Bblog.app := by
  have hrun : (runAll (Conf.step Bblog.app) (Conf.Sound Bblog.app) twoThreads
      (call 0 :: call 1 :: turns 0 3 ++ turns 1 3 ++ turns 0 7 ++ turns 1 8)).any
      (fun c => c.globals.log.length = 2) = true := by decide +kernel
  obtain ⟨c, hc, hlog⟩ := Reach.of_runAll twoThreads_started _ _ hrun
  exact ⟨c, hc, of_decide_eq_true hlog, lines_whole Bblog.app c hc⟩

/-- **A fill that comes late**: the second thread makes the length that of its own prefix, of counter `10`, after the first has
copied that of counter `9`. The body of the first stands behind the NUL. -/
theorem late_fill_cuts : ∃ c : Conf (Fin 2),
    Reach (Conf.step Bblog.app) (fun _ m => Served m.2) (Conf.Started Bblog.app) c ∧
      ∃ l ∈ c.globals.log, cstr noBatchBufferSize l.buffer = prefixText Bblog.app 9 ∧ ¬ l.Whole Bblog.app := by
  have hrun : (runAll (Conf.step Bblog.app) (fun _ m => Served m.2) twoThreads
      (call 0 :: call 1 :: turns 1 2 ++ turns 0 8 ++ turns 1 1 ++ turns 0 2)).any
      (fun c => c.globals.log.map (fun l => (l.body, cstr noBatchBufferSize l.buffer)) =
        [(some ['x'], prefixText Bblog.app 9)]) = true := by decide +kernel
  obtain ⟨c, hc, hlog⟩ := Reach.of_runAll twoThreads_started _ _ hrun
  obtain ⟨l, hl, hline⟩ := List.map_eq_singleton_iff.mp (of_decide_eq_true hlog)
  obtain ⟨hbody, htext⟩ := Prod.mk.inj hline
  refine ⟨c, hc, l, by rw [hl]; exact List.mem_cons_self, htext, fun hwhole => ?_⟩
  obtain ⟨n, body, -, hentry⟩ := hwhole.text (by rw [hbody]; unfold NulFree nul; decide)
  -- an entry ends with the brace, a prefix with a colon
  have hlast := congrArg List.getLast? (htext.symm.trans hentry)
  have hbrace : "\x7d".toList.getLast? = some '\x7d' := rfl
  rw [entry, List.getLast?_append, hbrace, Option.some_or] at hlast
  exact absurd hlast (by decide)

end Cosmost.Blog
