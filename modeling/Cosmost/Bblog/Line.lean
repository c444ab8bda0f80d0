import Cosmost.Bblog.Fallback
import Cosmost.ProcessName

/-!
# A process and those that it was forked from

A line of descent: a process calls the logger, is renamed, forks, and the child goes on with a copy of everything. Each
event in the log stands beside the process it happened in, under the name that `process_name` had for it then.

`EachText Q`: every text that went to the log meets `Q`, with the process that wrote it and those that stored the records
in its buffer (`authors`). The call of a process adds to the log what its calls of the logger do (`Line.call_rule`).
-/

namespace Cosmost.Bblog

open Cosmost.Lib Cosmost.ProcessName

/-! ## The log -/

/-- Who stored the records that the buffers hold. -/
abbrev Authors := Nat → List Process

/-- The records that the buffers hold, after an event. -/
def Authors.note (w : Authors) : Process × Event → Authors
  | (e, .stored a _ _) => Function.update w a (w a ++ [e])
  | (_, .written a _) => Function.update w a []
  | (_, .unbatched _) => w

/-- The records that the buffers hold, after all events. -/
def authors (log : List (Process × Event)) : Authors := log.foldl Authors.note fun _ => []

/-- A text that goes to the log meets `Q`; one that is not batched has a record of the process that writes it. -/
def TextIs (Q : Process → List Process → List Char → Prop) (w : Authors) : Process × Event → Prop
  | (_, .stored _ _ _) => True
  | (e, .written a text) => Q e (w a) text
  | (e, .unbatched text) => Q e [e] text

instance (Q : Process → List Process → List Char → Prop) [∀ e rs text, Decidable (Q e rs text)] (w : Authors) :
    ∀ x, Decidable (TextIs Q w x)
  | (_, .stored _ _ _) => isTrue trivial
  | (_, .written _ _) | (_, .unbatched _) => inferInstanceAs (Decidable (Q _ _ _))

/-- Every text meets `Q`, of the process that wrote it, the authors of its records, and the text. -/
def EachText (Q : Process → List Process → List Char → Prop) (log : List (Process × Event)) : Prop :=
  EachStep Authors.note (TextIs Q) (fun _ => []) log

instance (Q : Process → List Process → List Char → Prop) [∀ e rs text, Decidable (Q e rs text)]
    (log : List (Process × Event)) : Decidable (EachText Q log) :=
  inferInstanceAs (Decidable (EachStep _ _ _ _))

/-- The events of one process. -/
def tag (e : Process) (evs : List Event) : List (Process × Event) := evs.map (e, ·)

section Log

variable {Q : Process → List Process → List Char → Prop} {log : List (Process × Event)} {e : Process}

theorem tag_append (evs evs' : List Event) : tag e (evs ++ evs') = tag e evs ++ tag e evs' := List.map_append

@[simp] theorem tag_nil : tag e [] = [] := rfl

theorem authors_concat (x : Process × Event) : authors (log ++ [x]) = (authors log).note x := by
  simp [authors, List.foldl_append]

theorem eachText_concat (x : Process × Event) :
    EachText Q (log ++ [x]) ↔ EachText Q log ∧ TextIs Q (authors log) x := by
  simp [EachText, eachStep_append, authors]

variable {A : Allocator} {s s' : State} {msgs : List (List Char)} {m : List Char}

/-- A current buffer that was swapped in has no records yet. -/
theorem Swept.authors_nil (hsw : Swept A e s s') {w : Authors} (hw : ∀ a, a ∉ s.live → w a = [])
    (hp : s'.procPibr ≠ 0) : w s'.procPibr = [] := by
  by_cases hA : (A.memalign s.allocs s.live).isSome
  · exact hw _ (hsw.served hA).2.1
  · exact absurd (hsw.unserved (Option.not_isSome_iff_eq_none.mp hA)).1 hp

/-- The records in the buffers after a swap: the new buffer has none, and a block that is not allocated has none. -/
theorem Swept.records (hsw : Swept A e s s') (hfree : ∀ a, a ∉ s.live → authors log a = []) (htexts : EachText Q log)
    (hQ : ∀ {msgs}, Ready s msgs → msgs.flatten ≠ [] → (s.procid = e.pid ∨ A.memalign s.allocs s.live = none) →
      Q e (authors log s.procPibr) (closedText (s.mem s.procPibr).buf (s.prefixLen + msgs.flatten.length))) :
    ∃ new, s'.trace = s.trace ++ new ∧ (s'.procPibr ≠ 0 → authors (log ++ tag e new) s'.procPibr = []) ∧
      (∀ a, a ∉ s'.live → authors (log ++ tag e new) a = []) ∧ EachText Q (log ++ tag e new) := by
  rcases hsw.trace with ⟨htrace, hlive⟩ | ⟨msgs, hr, hmsgs, hwho, htrace, hlive⟩
  · refine ⟨[], by rw [htrace, List.append_nil], ?_⟩
    rw [tag_nil, List.append_nil]
    exact ⟨hsw.authors_nil hfree, fun a ha => hfree a fun ha' => ha (hlive a ha'), htexts⟩
  · -- the text is of the old buffer
    have hfree' : ∀ a, a ∉ s.live → (authors log).note (e, .written s.procPibr
        (closedText (s.mem s.procPibr).buf (s.prefixLen + msgs.flatten.length))) a = [] := by
      intro a ha
      have hne : a ≠ s.procPibr := fun heq => ha (heq ▸ hr.live)
      rw [Authors.note, Function.update_of_ne hne]
      exact hfree a ha
    refine ⟨_, htrace, ?_⟩
    rw [tag, List.map_singleton, authors_concat, eachText_concat]
    refine ⟨hsw.authors_nil hfree', fun a ha => ?_, htexts, hQ hr hmsgs hwho⟩
    by_cases hne : a = s.procPibr
    · rw [hne, Authors.note, Function.update_self]
    · exact hfree' a fun ha' => ha (hlive a ha' hne)

/-- And after a record was stored: the current buffer has one more. -/
theorem Stored.records (hst : Stored s msgs m s') (hr : Ready s msgs) (hfree : ∀ a, a ∉ s.live → authors log a = [])
    (htexts : EachText Q log) {off : Nat} :
    authors (log ++ tag e [.stored s.procPibr off m]) s'.procPibr = authors log s.procPibr ++ [e] ∧
      (∀ a, a ∉ s'.live → authors (log ++ tag e [.stored s.procPibr off m]) a = []) ∧
      EachText Q (log ++ tag e [.stored s.procPibr off m]) := by
  rw [tag, List.map_singleton, authors_concat, eachText_concat]
  refine ⟨by rw [hst.procPibr, Authors.note, Function.update_self], fun a ha => ?_, htexts, trivial⟩
  rw [hst.live] at ha
  have hne : a ≠ s.procPibr := fun heq => ha (heq ▸ hr.live)
  rw [Authors.note, Function.update_of_ne hne]
  exact hfree a ha

end Log

/-! ## The process -/

/-- A process, with the pids of its line. -/
structure Line where
  self : Self
  cache : Cache
  pids : List Nat
  state : State
  log : List (Process × Event)

/-- What happens to a process. -/
inductive Turn
  /-- It forks; the line goes on with the child. -/
  | fork (pid : Nat) (pos : 0 < pid)
  /-- It gets another name. -/
  | rename (uid : Nat) (cmdline : List Char)
  /-- Other code asks for its name. -/
  | ask
  /-- It makes a call that returns. -/
  | call (c : Call)
  /-- It has called `bblog` and is in its loop, after `n` turns. -/
  | looping (n : Nat) (body : Option (List Char))

/-- The process under the name that it has now. -/
def Line.process (l : Line) : Process :=
  ⟨l.self.pid, (processName l.self l.cache).1, l.self.pos, processName_nulFree _ _⟩

/-- `n` turns of the loop of `_blog` that do not end it. -/
def blogTurns (A : Allocator) (e : Process) (m : List Char) : Nat → State → Option State
  | 0, s => some s
  | n + 1, s =>
    match blogTurn A e m s with
    | .ok (none, s') => blogTurns A e m n s'
    | _ => none

/-- The state after what a process does with the logger. -/
def Turn.state (A : Allocator) (e : Process) (s : State) : Turn → Option State
  | .call c => Call.step A s (e, c)
  | .looping n body =>
    if (record (recordKey s.nextCntr) body).length - 1 ≥ bufferSize - 2 then none
    else blogTurns A e (record (recordKey s.nextCntr) body) n { s with cntr := s.nextCntr }
  | _ => some s

/-- The logger leaves the state `s`. A name was asked for if the prefix was made anew. -/
def Line.after (l : Line) (s : State) : Line :=
  { l with
    cache := if s.procid = l.state.procid then l.cache else (processName l.self l.cache).2
    state := s
    log := l.log ++ tag l.process (s.trace.drop l.state.trace.length) }

/-- What happens to a process, if it can. A child has a pid that is new in the line. -/
def Line.step (A : Allocator) (l : Line) : Turn → Option Line
  | .fork pid pos =>
    if pid ∈ l.pids then none
    else some { l with self := ⟨pid, l.self.uid, l.self.cmdline, pos⟩, pids := pid :: l.pids }
  | .rename uid cmdline => some { l with self := l.self.renamed uid cmdline }
  | .ask => some { l with cache := (processName l.self l.cache).2 }
  | t => (t.state A l.process l.state).map l.after

/-- A process that has not logged. -/
def Line.Started (l : Line) : Prop :=
  ∃ c mem, l.state = .init c mem ∧ l.pids = [l.self.pid] ∧ l.log = []

/-! ## Rules -/

section Rules

variable {A : Allocator} {e : Process} {s s' : State}

/-- The rule for the loop of `_blog` before it ends. -/
theorem blogTurns_rule {J : State → List Event → Prop} {m : List Char} (he : e.Fits)
    (hswap : ∀ {s s' : State} {evs : List Event}, Sane s → J s evs → Swept A e s s' →
      ∃ new, s'.trace = s.trace ++ new ∧ J s' (evs ++ new)) (n : Nat) : ∀ {s : State} {evs : List Event}, Sane s →
    J s evs → blogTurns A e m n s = some s' → ∃ new, s'.trace = s.trace ++ new ∧ J s' (evs ++ new) ∧ Sane s' := by
  induction n with
  | zero =>
    intro s evs h hJ hs
    cases hs
    exact ⟨[], (List.append_nil _).symm, by rwa [List.append_nil], h⟩
  | succ n ih =>
    intro s evs h hJ hs
    rw [blogTurns] at hs
    rcases h.current with hp | hc | ⟨msgs, hr⟩
    · have hturn : blogTurn A e m s = .error .fault := by simp [blogTurn, fetchAdd, hp, bind, Except.bind]
      simp [hturn] at hs
    · simp [blogTurn_cleared hc] at hs
    · by_cases hfit : s.procid = e.pid ∧ s.prefixLen + msgs.flatten.length + m.length < loggerEntryMaxPayload - 32
      · obtain ⟨s₁, hs₁, -⟩ := blogTurn_stored (A := A) hr m hfit.1 hfit.2
        simp [hs₁] at hs
      · obtain ⟨s₁, hs₁, hsw⟩ := blogTurn_swept (A := A) h he hr hfit
        simp only [hs₁] at hs
        obtain ⟨new, htrace, hJ₁⟩ := hswap h hJ hsw
        obtain ⟨new', htrace', hJ', hsane⟩ := ih hsw.sane hJ₁ hs
        exact ⟨new ++ new', by rw [htrace', htrace, List.append_assoc], by rwa [← List.append_assoc], hsane⟩

/-- **The rule for what a process does with the logger.** -/
theorem Turn.rule {J : State → List Event → Prop} (he : e.Fits)
    (hcount : ∀ {s : State} {evs : List Event} (c : Nat), J s evs → J { s with cntr := c } evs)
    (hswap : ∀ {s s' : State} {evs : List Event}, Sane s → J s evs → Swept A e s s' →
      ∃ new, s'.trace = s.trace ++ new ∧ J s' (evs ++ new))
    (hstore : ∀ {s s' : State} {evs : List Event} {msgs : List (List Char)} {m : List Char}, Ready s msgs →
      s.procid = e.pid → J s evs → Stored s msgs m s' →
      J s' (evs ++ [.stored s.procPibr (s.prefixLen + msgs.flatten.length) m]))
    (hclear : ∀ {s : State} {evs : List Event}, Sane s → J s evs → J (s.setWord s.procPibr 0) evs)
    {t : Turn} (h : Sane s) (hJ : J s []) (hs : t.state A e s = some s') :
    ∃ new, s'.trace = s.trace ++ new ∧ J s' new ∧ Sane s' := by
  cases t with
  | call c => exact Call.rule (J := J) he hcount hswap hstore hclear h hJ hs
  | looping n body =>
    simp only [Turn.state] at hs
    split_ifs at hs
    obtain ⟨new, htrace, hJ', hsane⟩ := blogTurns_rule (J := J) he hswap n (h.withCntr s.nextCntr) (hcount s.nextCntr hJ) hs
    exact ⟨new, htrace, hJ', hsane⟩
  | fork _ _ | rename _ _ | ask =>
    cases hs
    exact ⟨[], (List.append_nil _).symm, hJ, h⟩

end Rules

end Cosmost.Bblog
