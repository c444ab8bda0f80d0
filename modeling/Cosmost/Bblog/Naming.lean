import Cosmost.Bblog.Fork

/-!
# Whose entry a record stands in

The prefix of an entry has the pid and the name of a process. `process_name` keeps a name for a pid, except `zygote`; the
prefix is made once for a pid; a buffer gets it when it is allocated. So a process that logs as `zygote` and then gets its
own name goes on logging as `zygote` (`renamed_process_misnamed`), although `process_name` would say otherwise.

`texts_named`: in every line of processes whose names do not change under a prefix, each text begins with the prefix of
every process that stored a record in it, under the name that `process_name` had for it then.
-/

namespace Cosmost.Bblog

open Cosmost.Lib Cosmost.ProcessName

/-- The text begins with the prefix of each process that stored a record in it. -/
def NamedText (_ : Process) (rs : List Process) (text : List Char) : Prop := ∀ r ∈ rs, prefixText r <+: text

instance (e : Process) (rs : List Process) (text : List Char) : Decidable (NamedText e rs text) :=
  inferInstanceAs (Decidable (∀ r ∈ rs, _))

/-- The name does not change under a prefix that was made for the pid: `process_name` keeps another name than `zygote`
for this pid, or what it reads is the same. -/
def Line.NameKept (l : Line) : Turn → Prop
  | .rename uid cmdline => l.state.procid = l.self.pid →
      l.cache.Valid l.self ∨ readProcessName (l.self.renamed uid cmdline) = readProcessName l.self
  | .call _ | .looping _ _ => l.process.Fits
  | .fork _ _ | .ask => True

instance (l : Line) : ∀ t, Decidable (l.NameKept t)
  | .rename _ _ => inferInstanceAs (Decidable (_ → _))
  | .call _ | .looping _ _ => inferInstanceAs (Decidable (Process.Fits _))
  | .fork _ _ | .ask => isTrue trivial

/-! ## The invariant -/

/-- The records in the current buffer are of processes with the prefix in use. -/
structure NamedRecords (s : State) (log : List (Process × Event)) : Prop where
  current : s.procPibr ≠ 0 → ∀ r ∈ authors log s.procPibr, prefixText r = s.prefixBuf
  free : ∀ a, a ∉ s.live → authors log a = []
  texts : EachText NamedText log

section Named

variable {A : Allocator} {e : Process} {s s' : State} {log : List (Process × Event)} {msgs : List (List Char)}
  {m : List Char} {pids : List Nat}

/-- The text of a buffer with records begins with its prefix. -/
theorem Ready.closedText_begins (h : Ready s msgs) (hmsgs : msgs.flatten ≠ []) (hnul : NulFree s.prefixBuf) :
    s.prefixBuf <+: closedText (s.mem s.procPibr).buf (s.prefixLen + msgs.flatten.length) := by
  have hlen : 0 < msgs.flatten.length := List.length_pos_of_ne_nil hmsgs
  have hshort := h.short
  rw [maxPrefixLen_eq] at hshort
  refine cstr_begins hnul (h.holds.left.blit_of_le _ ?_) ?_
  · rw [Nat.zero_add, h.len]
    omega
  · rw [h.len, pibrBufSize_eq]
    omega

theorem NamedRecords.swap (h : NamedRecords s log) (hsw : Swept A e s s') :
    ∃ new, s'.trace = s.trace ++ new ∧ NamedRecords s' (log ++ tag e new) := by
  obtain ⟨new, htrace, hnone, hfree, htexts⟩ := hsw.records h.free h.texts fun {msgs} hr hmsgs _ r hmem => by
    have hname := h.current (by have := hr.page.1; omega) r hmem
    rw [hname]
    exact hr.closedText_begins hmsgs (hname ▸ prefixText_nulFree r)
  refine ⟨new, htrace, fun hp r hmem => ?_, hfree, htexts⟩
  rw [hnone hp] at hmem
  exact absurd hmem List.not_mem_nil

/-- Storing a record of the process that the prefix is of. -/
theorem NamedRecords.store (h : NamedRecords s log) (hr : Ready s msgs) (hname : s.prefixBuf = prefixText e)
    (hst : Stored s msgs m s') :
    NamedRecords s' (log ++ tag e [.stored s.procPibr (s.prefixLen + msgs.flatten.length) m]) := by
  obtain ⟨hmore, hfree, htexts⟩ := hst.records (e := e) hr h.free h.texts
  refine ⟨fun _ r hmem => ?_, hfree, htexts⟩
  rw [hmore, List.mem_append, List.mem_singleton] at hmem
  rw [hst.prefixBuf]
  rcases hmem with hmem | rfl
  · exact h.current (by have := hr.page.1; omega) r hmem
  · exact hname.symm

/-- The prefix in use is that of the process, if it was made for its pid. -/
def PrefixNow (e : Process) (s : State) : Prop := s.procid = e.pid → s.prefixBuf = prefixText e

/-- **What a process does keeps each record under its name.** -/
theorem NamedRecords.turn (h : NamedRecords s log) (hnow : PrefixNow e s) (hs : Sane s) (he : e.Fits)
    (hpids : s.procid ∈ pids) (hself : e.pid ∈ pids) {t : Turn} (hstep : t.state A e s = some s') :
    ∃ new, s'.trace = s.trace ++ new ∧
      (NamedRecords s' (log ++ tag e new) ∧ PrefixNow e s' ∧ s'.procid ∈ pids) ∧ Sane s' := by
  refine Turn.rule (A := A)
    (J := fun s evs => NamedRecords s (log ++ tag e evs) ∧ PrefixNow e s ∧ s.procid ∈ pids) he
    (fun c ⟨h, hnow, hp⟩ => ⟨⟨h.current, h.free, h.texts⟩, hnow, hp⟩) ?_ ?_
    (fun hs ⟨h, hnow, hp⟩ => ⟨⟨h.current, h.free, h.texts⟩, hnow, hp⟩)
    hs ⟨by rwa [tag_nil, List.append_nil], hnow, hpids⟩ hstep
  · intro s s' evs hs ⟨h, hnow, hp⟩ hsw
    obtain ⟨new, htrace, h'⟩ := h.swap hsw
    refine ⟨new, htrace, by rwa [tag_append, ← List.append_assoc], fun hpid => ?_, ?_⟩
    all_goals by_cases hA : (A.memalign s.allocs s.live).isSome
    · rw [(hsw.served hA).2.2.2, freshPrefix]
      split_ifs with hold
      · exact hnow hold
      · rfl
    · obtain ⟨-, hprocid, hbuf⟩ := hsw.unserved (Option.not_isSome_iff_eq_none.mp hA)
      rw [hbuf]
      exact hnow (hprocid ▸ hpid)
    · rw [(hsw.served hA).2.2.1]
      exact hself
    · rw [(hsw.unserved (Option.not_isSome_iff_eq_none.mp hA)).2.1]
      exact hp
  · intro s s' evs msgs m hr hpid ⟨h, hnow, hp⟩ hst
    refine ⟨by rw [tag_append, ← List.append_assoc]; exact h.store hr (hnow hpid) hst, fun _ => ?_, ?_⟩
    · rw [hst.prefixBuf]
      exact hnow hpid
    · rw [hst.procid]
      exact hp

end Named

/-! ## Lines -/

/-- What holds along a line. -/
structure Line.Named (l : Line) : Prop where
  sane : Sane l.state
  records : NamedRecords l.state l.log
  now : PrefixNow l.process l.state
  procid : l.state.procid ∈ 0 :: l.pids
  self : l.self.pid ∈ l.pids

section Lines

variable {A : Allocator} {l l' : Line}

theorem Line.Started.named (h : l.Started) : l.Named := by
  obtain ⟨c, mem, hs, hpids, hlog⟩ := h
  refine ⟨hs ▸ sane_init c mem, ⟨fun hp => ?_, fun a _ => ?_, ?_⟩, fun hpid => ?_, ?_, ?_⟩
  · rw [hs] at hp
    exact absurd rfl hp
  · rw [hlog]
    rfl
  · rw [hlog]
    exact trivial
  · rw [hs] at hpid
    exact absurd hpid (Nat.ne_of_lt l.process.pos)
  · rw [hs]
    exact List.mem_cons_self
  · rw [hpids]
    exact List.mem_singleton_self _

/-- A call leaves the name, whether it asked for it or not. -/
theorem Line.after_process (l : Line) (s : State) : (l.after s).process = l.process := by
  simp only [Line.process, Line.after, Process.mk.injEq, true_and]
  split_ifs
  · rfl
  · exact processName_again _ _

/-- Asking for the name leaves it. -/
theorem Line.ask_process (l : Line) :
    Line.process { l with cache := (processName l.self l.cache).2 } = l.process := by
  simp only [Line.process, Process.mk.injEq, true_and]
  exact processName_again _ _

/-- A change that keeps the name leaves the process. -/
theorem Line.NameKept.process {uid : Nat} {cmdline : List Char} (h : l.NameKept (.rename uid cmdline))
    (hpid : l.state.procid = l.self.pid) :
    Line.process { l with self := l.self.renamed uid cmdline } = l.process := by
  simp only [Line.process, Self.renamed, Process.mk.injEq, true_and]
  by_cases hv : l.cache.Valid l.self
  · rw [processName_valid hv]
    exact processName_valid hv
  · have hread := (h hpid).resolve_left hv
    rw [processName_read hv, ← hread]
    exact processName_read hv

theorem Line.Named.after (h : l.Named) {t : Turn} (hf : l.process.Fits) {s : State}
    (hs : t.state A l.process l.state = some s) : (l.after s).Named := by
  obtain ⟨new, htrace, ⟨hrec, hnow, hpid⟩, hsane⟩ := h.records.turn h.now h.sane hf h.procid
    (List.mem_cons_of_mem _ h.self) hs
  refine ⟨hsane, ?_, ?_, hpid, h.self⟩
  · simp only [Line.after, htrace, List.drop_left]
    exact hrec
  · rw [l.after_process]
    exact hnow

/-- **Each step keeps the records under their names.** -/
theorem Line.Named.step (h : l.Named) {t : Turn} (hk : l.NameKept t) (hstep : l.step A t = some l') : l'.Named := by
  cases t with
  | fork pid pos =>
    simp only [Line.step] at hstep
    split_ifs at hstep with hpid
    cases hstep
    have hother : l.state.procid ≠ pid := by
      rintro rfl
      exact (List.mem_cons.mp h.procid).elim (Nat.ne_of_gt pos) hpid
    refine ⟨h.sane, h.records, fun heq => absurd heq hother, ?_, List.mem_cons_self⟩
    exact (List.mem_cons.mp h.procid).elim (fun h0 => List.mem_cons.mpr (Or.inl h0))
      fun hmem => List.mem_cons_of_mem _ (List.mem_cons_of_mem _ hmem)
  | rename uid cmdline =>
    cases hstep
    refine ⟨h.sane, h.records, fun hpid => ?_, h.procid, h.self⟩
    rw [hk.process hpid]
    exact h.now hpid
  | ask =>
    cases hstep
    refine ⟨h.sane, h.records, ?_, h.procid, h.self⟩
    rw [l.ask_process]
    exact h.now
  | call c =>
    obtain ⟨s, hs, rfl⟩ := Option.map_eq_some_iff.mp hstep
    exact h.after hk hs
  | looping n body =>
    obtain ⟨s, hs, rfl⟩ := Option.map_eq_some_iff.mp hstep
    exact h.after hk hs

/-- **Each record goes to the log under the pid and the name of its process.** In every line of processes, with forks,
changes of the name and calls of the logger in any order, as long as no change of the name comes after the prefix was
made for the pid, except behind a name that `process_name` keeps: every text in the log begins with the prefix of each
process that stored a record in it, under the name that `process_name` gave when the record was logged. -/
theorem texts_named (A : Allocator) (l : Line) (hl : Reach (Line.step A) Line.NameKept Line.Started l) :
    EachText NamedText l.log := by
  have h : l.Named := Reach.inv (fun _ h => h.named) (fun _ _ _ h hk hstep => h.step hk hstep) hl
  exact h.records.texts

end Lines

/-! ## A process that is renamed before it logs, and one that is renamed after -/

/-- A process as zygote starts it. -/
def zygoteLine : Line := ⟨⟨7, 0, "zygote".toList, app.pos⟩, .empty, [7], .init 0 fun _ => ⟨0, fun _ => nul⟩, []⟩

theorem zygoteLine_started : zygoteLine.Started := ⟨0, _, rfl, rfl, rfl⟩

/-- A child of zygote gets its name before it logs, and another after: it logs under the first. -/
theorem renamed_process_named : ∃ l,
    Reach (Line.step twoPages) Line.NameKept Line.Started l ∧ l.self.pid = 8 ∧ l.log.length = 4 ∧
      EachText NamedText l.log := by
  have hrun : (runAll (Line.step twoPages) Line.NameKept zygoteLine
      [.call (.op .init), .call (.op (.log 2 (some ['x']))), .fork 8 (by decide), .rename 0 "app".toList,
        .call (.op (.log 2 (some ['y']))), .rename 0 "app:remote".toList, .call (.op (.log 2 (some ['z']))),
        .call (.op (.signal 14))]).any (fun l => l.self.pid = 8 ∧ l.log.length = 4) = true := by decide +kernel
  obtain ⟨l, hl, hp⟩ := Reach.of_runAll zygoteLine_started _ _ hrun
  obtain ⟨hpid, hlen⟩ := of_decide_eq_true hp
  exact ⟨l, hl, hpid, hlen, texts_named twoPages l hl⟩

/-- **A process that logs as zygote goes on under that name**: the prefix is not made again. -/
theorem renamed_process_misnamed : ∃ l,
    Reach (Line.step twoPages) (fun l _ => l.process.Fits) Line.Started l ∧ ¬ EachText NamedText l.log := by
  have hrun : (runAll (Line.step twoPages) (fun l _ => l.process.Fits) zygoteLine
      [.call (.op .init), .call (.op (.log 2 (some ['x']))), .fork 8 (by decide),
        .call (.op (.log 2 (some ['y']))), .rename 0 "app".toList, .call (.op (.log 2 (some ['z']))),
        .call (.op (.signal 14))]).any (fun l => ¬ EachText NamedText l.log) = true := by decide +kernel
  obtain ⟨l, hl, hp⟩ := Reach.of_runAll zygoteLine_started _ _ hrun
  exact ⟨l, hl, of_decide_eq_true hp⟩

end Cosmost.Bblog
