import Cosmost.Bblog.Line

/-!
# What a child does with the records of its parent

A child inherits a current buffer with records of its parent. `flush_buffer` leaves it alone because `procid` is the
pid of the child by then: `init_buffer` of the new buffer has set it. If `memalign` fails there is no new buffer, `procid`
is still the pid of the parent, and the child writes the parent's records to the log (`child_writes_parents_record`).

`own_texts`: in every line of processes in which `memalign` does not fail on a process that is about to swap out an
inherited buffer with records, each text has only records of the process that wrote it.
-/

namespace Cosmost.Bblog

open Cosmost.Lib Cosmost.ProcessName

/-- The records in a text are of the process that wrote it. -/
def OwnText (e : Process) (rs : List Process) (_ : List Char) : Prop := ∀ r ∈ rs, r.pid = e.pid

instance (e : Process) (rs : List Process) (text : List Char) : Decidable (OwnText e rs text) :=
  inferInstanceAs (Decidable (∀ r ∈ rs, _))

/-- The current buffer is one with records that a process forked from: `procid` is still that process, and so says the
word. -/
def Inherits (e : Process) (s : State) : Prop :=
  s.procPibr ≠ 0 ∧ s.procid ≠ e.pid ∧ pibrPid (s.mem s.procPibr).pibr = s.procid ∧
    pibrIdx (s.mem s.procPibr).pibr ≠ s.prefixLen

instance (e : Process) (s : State) : Decidable (Inherits e s) := inferInstanceAs (Decidable (_ ∧ _))

/-- `memalign` does not fail on a process that swaps out an inherited buffer with records. -/
def Line.Fed (A : Allocator) (l : Line) : Turn → Prop
  | .call (.op (.log _ body)) | .looping _ body =>
    l.process.Fits ∧ (Inherits l.process l.state → Accepted body l.state →
      (A.memalign l.state.allocs l.state.live).isSome)
  | .call (.op (.signal _)) =>
    l.process.Fits ∧ (Inherits l.process l.state → (A.memalign l.state.allocs l.state.live).isSome)
  | .call (.op .init) | .call .exit => l.process.Fits
  | .fork _ _ | .rename _ _ | .ask => True

instance (A : Allocator) (l : Line) : ∀ t, Decidable (l.Fed A t)
  | .call (.op (.log _ _)) | .looping _ _ | .call (.op (.signal _)) => inferInstanceAs (Decidable (_ ∧ _))
  | .call (.op .init) | .call .exit => inferInstanceAs (Decidable (Process.Fits _))
  | .fork _ _ | .rename _ _ | .ask => isTrue trivial

/-! ## The invariant -/

/-- The records in the current buffer are those of the process, if the buffer is; a block that is not allocated has
none. -/
structure OwnRecords (pid : Nat) (s : State) (log : List (Process × Event)) : Prop where
  own : s.procid = pid → s.procPibr ≠ 0 → ∀ r ∈ authors log s.procPibr, r.pid = pid
  free : ∀ a, a ∉ s.live → authors log a = []
  texts : EachText OwnText log

section Own

variable {A : Allocator} {e : Process} {s s' : State} {log : List (Process × Event)} {msgs : List (List Char)}
  {m : List Char} {pids : List Nat}

/-- After a swap the current buffer is not inherited. -/
theorem Swept.not_inherits (hsw : Swept A e s s') : ¬ Inherits e s' := by
  rintro ⟨hp, hpid, -⟩
  by_cases hA : (A.memalign s.allocs s.live).isSome
  · exact hpid (hsw.served hA).2.2.1
  · exact hp (hsw.unserved (Option.not_isSome_iff_eq_none.mp hA)).1

/-- A buffer with records of another process is inherited. -/
theorem Ready.inherits (h : Ready s msgs) (hmsgs : msgs.flatten ≠ []) (hpid : s.procid ≠ e.pid) : Inherits e s := by
  obtain ⟨-, hpidw, hidx, -⟩ := h.word_fields
  have hlen : 0 < msgs.flatten.length := List.length_pos_of_ne_nil hmsgs
  refine ⟨by have := h.page.1; omega, hpid, hpidw, ?_⟩
  rw [hidx]
  omega

/-- **A swap keeps the records apart**, unless `memalign` fails on an inherited buffer. -/
theorem OwnRecords.swap (h : OwnRecords e.pid s log) (hin : Inherits e s → (A.memalign s.allocs s.live).isSome)
    (hsw : Swept A e s s') : ∃ new, s'.trace = s.trace ++ new ∧ OwnRecords e.pid s' (log ++ tag e new) := by
  obtain ⟨new, htrace, hnone, hfree, htexts⟩ := hsw.records h.free h.texts fun {msgs} hr hmsgs hwho => by
    -- the text is of the old buffer, which is that of the process
    have hpid : s.procid = e.pid := by
      rcases hwho with hpid | hnone
      · exact hpid
      · by_contra hpid
        have := hin (hr.inherits hmsgs hpid)
        rw [hnone] at this
        cases this
    exact h.own hpid (by have := hr.page.1; omega)
  refine ⟨new, htrace, fun _ hp r hmem => ?_, hfree, htexts⟩
  rw [hnone hp] at hmem
  exact absurd hmem List.not_mem_nil

/-- Storing a record keeps them apart. -/
theorem OwnRecords.store (h : OwnRecords e.pid s log) (hr : Ready s msgs) (hpid : s.procid = e.pid)
    (hst : Stored s msgs m s') :
    OwnRecords e.pid s' (log ++ tag e [.stored s.procPibr (s.prefixLen + msgs.flatten.length) m]) := by
  obtain ⟨hmore, hfree, htexts⟩ := hst.records (e := e) hr h.free h.texts
  refine ⟨fun _ _ r hmem => ?_, hfree, htexts⟩
  rw [hmore, List.mem_append, List.mem_singleton] at hmem
  rcases hmem with hmem | rfl
  · exact h.own hpid (by have := hr.page.1; omega) r hmem
  · rfl

/-- The exit of a process leaves no inherited buffer. -/
theorem not_inherits_cleared (h : Sane s) : ¬ Inherits e (s.setWord s.procPibr 0) := by
  rintro ⟨hp, -, hpid, -⟩
  have hzero : pibrPid 0 = 0 := by decide
  have hpos := h.used hp
  have hp' : (s.setWord s.procPibr 0).procPibr = s.procPibr := rfl
  rw [hp', setWord_mem_self, hzero] at hpid
  exact absurd hpid (Nat.ne_of_lt hpos)

/-- What a process does keeps the records apart, unless `memalign` fails when it swaps out an inherited buffer. -/
theorem OwnRecords.turn (h : OwnRecords e.pid s log) (hs : Sane s) (he : e.Fits) (hpids : s.procid ∈ pids)
    (hself : e.pid ∈ pids) {t : Turn} (hin : Inherits e s → (A.memalign s.allocs s.live).isSome)
    (hstep : t.state A e s = some s') : ∃ new, s'.trace = s.trace ++ new ∧
      (OwnRecords e.pid s' (log ++ tag e new) ∧ s'.procid ∈ pids) ∧ Sane s' := by
  obtain ⟨new, htrace, ⟨h', hpids', -⟩, hsane⟩ := Turn.rule (A := A)
    (J := fun s evs => OwnRecords e.pid s (log ++ tag e evs) ∧ s.procid ∈ pids ∧
      (Inherits e s → (A.memalign s.allocs s.live).isSome)) he
    (fun c ⟨h, hp, hin⟩ => ⟨⟨h.own, h.free, h.texts⟩, hp, hin⟩)
    (fun {s s' evs} hs ⟨h, hp, hin⟩ hsw => by
      obtain ⟨new, htrace, h'⟩ := h.swap hin hsw
      refine ⟨new, htrace, by rwa [tag_append, ← List.append_assoc], ?_, fun hi => absurd hi hsw.not_inherits⟩
      by_cases hA : (A.memalign s.allocs s.live).isSome
      · rw [(hsw.served hA).2.2.1]
        exact hself
      · rw [(hsw.unserved (Option.not_isSome_iff_eq_none.mp hA)).2.1]
        exact hp)
    (fun {s s' evs msgs m} hr hpid ⟨h, hp, _⟩ hst => by
      refine ⟨by rw [tag_append, ← List.append_assoc]; exact h.store hr hpid hst, by rw [hst.procid]; exact hp, ?_⟩
      exact fun hi => absurd (hst.procid.trans hpid) hi.2.1)
    (fun {s evs} hs ⟨h, hp, _⟩ =>
      ⟨⟨h.own, h.free, h.texts⟩, hp, fun hi => absurd hi (not_inherits_cleared hs)⟩)
    hs ⟨by rwa [tag_nil, List.append_nil], hpids, hin⟩ hstep
  exact ⟨new, htrace, ⟨h', hpids'⟩, hsane⟩

end Own

/-! ## Lines -/

/-- What holds along a line. -/
structure Line.Own (l : Line) : Prop where
  sane : Sane l.state
  records : OwnRecords l.self.pid l.state l.log
  procid : l.state.procid ∈ 0 :: l.pids
  self : l.self.pid ∈ l.pids

section Lines

variable {A : Allocator} {l l' : Line}

theorem Line.Started.own (h : l.Started) : l.Own := by
  obtain ⟨c, mem, hs, hpids, hlog⟩ := h
  refine ⟨hs ▸ sane_init c mem, ⟨fun _ hp => ?_, fun a _ => ?_, ?_⟩, ?_, ?_⟩
  · rw [hs] at hp
    exact absurd rfl hp
  · rw [hlog]
    rfl
  · rw [hlog]
    exact trivial
  · rw [hs]
    exact List.mem_cons_self
  · rw [hpids]
    exact List.mem_singleton_self _

theorem Line.Own.after (h : l.Own) {t : Turn} (hf : l.process.Fits)
    (hin : Inherits l.process l.state → (A.memalign l.state.allocs l.state.live).isSome) {s : State}
    (hs : t.state A l.process l.state = some s) : (l.after s).Own := by
  obtain ⟨new, htrace, ⟨hrec, hpid⟩, hsane⟩ := h.records.turn (e := l.process) h.sane hf h.procid
    (List.mem_cons_of_mem _ h.self) hin hs
  refine ⟨hsane, ?_, hpid, h.self⟩
  simp only [Line.after, htrace, List.drop_left]
  exact hrec

/-- A call that writes nothing and leaves the current buffer. -/
theorem Line.Own.still (h : l.Own) {s : State} (hs : Sane s) (hprocid : s.procid = l.state.procid)
    (hp : s.procPibr = l.state.procPibr) (hlive : s.live = l.state.live) (htrace : s.trace = l.state.trace) :
    (l.after s).Own := by
  refine ⟨hs, ?_, ?_, h.self⟩
  · simp only [Line.after, htrace, List.drop_length, tag_nil, List.append_nil]
    exact ⟨by rw [hprocid, hp]; exact h.records.own, by rw [hlive]; exact h.records.free, h.records.texts⟩
  · simp only [Line.after, hprocid]
    exact h.procid

/-- A call that does not swap out the inherited buffer. -/
theorem Line.Own.call (h : l.Own) {c : Call} (hf : l.Fed A (.call c)) {s : State}
    (hs : Call.step A l.state (l.process, c) = some s) : (l.after s).Own := by
  have hfits : l.process.Fits := by
    rcases c with (_ | _ | _) | _
    · exact hf
    · exact hf.1
    · exact hf.1
    · exact hf
  by_cases hin : Inherits l.process l.state → (A.memalign l.state.allocs l.state.live).isSome
  · exact h.after (t := .call c) hfits hin hs
  · obtain ⟨hi, hnone⟩ := Classical.not_imp.mp hin
    have hp0 := hi.1
    rcases c with (_ | ⟨n, body⟩ | _) | _
    · -- there is a current buffer already
      simp only [Call.step, Op.step, bblogInit, swapBuffers, hp0, ne_eq, not_false_eq_true, ↓reduceIte,
        Option.some.injEq] at hs
      subst hs
      exact h.still h.sane rfl rfl rfl rfl
    · have hlong : ¬ Accepted body l.state := fun ha => hnone (hf.2 hi ha)
      simp only [Call.step, Op.step, bblog, if_pos (Nat.not_lt.mp hlong), Except.toOption, Option.map_some,
        Option.some.injEq] at hs
      subst hs
      exact h.still (h.sane.withCntr _) rfl rfl rfl rfl
    · exact absurd (hf.2 hi) hnone
    · obtain ⟨heq, hc⟩ := bblogExit_clears (A := A) (e := l.process) h.sane hp0
      simp only [Call.step, heq, Except.toOption, Option.some.injEq] at hs
      subst hs
      exact h.still ⟨⟨h.sane.len, h.sane.short⟩, h.sane.pos, h.sane.used, Or.inr (Or.inl hc)⟩ rfl rfl rfl rfl

/-- **Each step keeps the records of the processes apart.** -/
theorem Line.Own.step (h : l.Own) {t : Turn} (hf : l.Fed A t) (hstep : l.step A t = some l') : l'.Own := by
  cases t with
  | fork pid pos =>
    simp only [Line.step] at hstep
    split_ifs at hstep with hpid
    cases hstep
    refine ⟨h.sane, ⟨fun heq _ => ?_, h.records.free, h.records.texts⟩, ?_, List.mem_cons_self⟩
    · -- the current buffer is not of the child
      have hprocid : pid ∈ 0 :: l.pids := by
        have := h.procid
        rwa [show l.state.procid = pid from heq] at this
      rcases List.mem_cons.mp hprocid with rfl | hmem
      · exact absurd pos (Nat.lt_irrefl 0)
      · exact absurd hmem hpid
    · rcases List.mem_cons.mp h.procid with h0 | hmem
      · exact List.mem_cons.mpr (Or.inl h0)
      · exact List.mem_cons_of_mem _ (List.mem_cons_of_mem _ hmem)
  | rename uid cmdline => cases hstep; exact ⟨h.sane, h.records, h.procid, h.self⟩
  | ask => cases hstep; exact ⟨h.sane, h.records, h.procid, h.self⟩
  | call c =>
    obtain ⟨s, hs, rfl⟩ := Option.map_eq_some_iff.mp hstep
    exact h.call hf hs
  | looping n body =>
    obtain ⟨s, hs, rfl⟩ := Option.map_eq_some_iff.mp hstep
    -- a call that is in its loop has been accepted
    have haccepted : Accepted body l.state := by
      by_contra hlong
      simp only [Turn.state, if_pos (Nat.not_lt.mp hlong)] at hs
      cases hs
    exact h.after hf.1 (fun hi => hf.2 hi haccepted) hs

/-- **A child never logs its parent's records.** In every line of processes with pairwise distinct pids, whatever they do
and whatever `memalign` answers, as long as it does not fail on a process that swaps out an inherited buffer with records:
every text that went to the log has only records of the process that wrote it. -/
theorem own_texts (A : Allocator) (l : Line) (hl : Reach (Line.step A) (Line.Fed A) Line.Started l) :
    EachText OwnText l.log := by
  have h : l.Own := Reach.inv (fun _ h => h.own) (fun _ _ _ h hf hstep => h.step hf hstep) hl
  exact h.records.texts

end Lines

/-! ## A child that writes its own record, and one that writes its parent's -/

/-- A process that has not logged. -/
def appLine : Line := ⟨⟨7, 0, "app".toList, app.pos⟩, .empty, [7], .init 0 fun _ => ⟨0, fun _ => nul⟩, []⟩

theorem appLine_started : appLine.Started := ⟨0, _, rfl, rfl, rfl⟩

/-- Parent and child log a record, and the child gets a signal. -/
theorem child_writes_own_record : ∃ l,
    Reach (Line.step twoPages) (Line.Fed twoPages) Line.Started l ∧ l.self.pid = 8 ∧ l.log.length = 3 ∧
      EachText OwnText l.log := by
  have hrun : (runAll (Line.step twoPages) (Line.Fed twoPages) appLine
      [.call (.op .init), .call (.op (.log 2 (some ['x']))), .fork 8 (by decide), .call (.op (.log 2 (some ['y']))),
        .call (.op (.signal 14))]).any (fun l => l.self.pid = 8 ∧ l.log.length = 3) = true := by decide +kernel
  obtain ⟨l, hl, hp⟩ := Reach.of_runAll appLine_started _ _ hrun
  obtain ⟨hpid, hlen⟩ := of_decide_eq_true hp
  exact ⟨l, hl, hpid, hlen, own_texts twoPages l hl⟩

/-- An allocator with one page. -/
def onePage : Allocator where
  memalign _ live := if 4096 ∉ live then some (4096, ⟨0, fun _ => nul⟩) else none
  page := by
    intro n live a p h
    split_ifs at h
    cases h
    decide
  fresh := by
    intro n live a p h
    split_ifs at h with h1
    cases h
    exact h1

/-- **A child writes its parent's record**: it gets a signal, and there is no memory for its own buffer. -/
theorem child_writes_parents_record : ∃ l,
    Reach (Line.step onePage) (fun l _ => l.process.Fits) Line.Started l ∧ ¬ EachText OwnText l.log := by
  have hrun : (runAll (Line.step onePage) (fun l _ => l.process.Fits) appLine
      [.call (.op .init), .call (.op (.log 2 (some ['x']))), .fork 8 (by decide), .call (.op (.signal 14))]).any
      (fun l => ¬ EachText OwnText l.log) = true := by decide +kernel
  obtain ⟨l, hl, hp⟩ := Reach.of_runAll appLine_started _ _ hrun
  exact ⟨l, hl, of_decide_eq_true hp⟩

end Cosmost.Bblog
