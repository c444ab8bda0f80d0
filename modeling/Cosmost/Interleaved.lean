import Cosmost.Bblog.Numbered
import Cosmost.Lib.Sorted
import Cosmost.ProcessLog

/-!
# The log of threads that run at the same time

The threads of a process use descriptors and make file calls at the same time, and what each of them logs goes through
`bblog` while the others are at any point of theirs. The records get their numbers in one order and are stored in another,
and the buffers are written in a third. So a reader of the log first puts the records in the order of their numbers.

`interleaved_log_tells_threads`: what is then read of a thread and a wrapper is a part of the accesses that the thread made
through it, in its order, and likewise for the records of its file calls; and nothing is missing but what is pending once
nothing is on its way. The kernel and the world of a file call are those that the call finds, whatever the other threads do.
-/

namespace Cosmost

open Cosmost.Lib Cosmost.Fs Cosmost.Batch Cosmost.Bblog

variable {τ W : Type*}

/-! ## The threads -/

/-- What a thread does: something with a descriptor, or a file call. -/
inductive Deed (W : Type*)
  | data (ev : Batch.Event)
  | file (d : Disk W) (call : LibCall) (w : W)

/-- The records of a file call. -/
def Deed.records : Deed W → List FileRecord
  | .data _ => []
  | .file d call w => d.records w call

/-- What a thread logs for it. -/
def Deed.messages (t : Thread) : Deed W → List Message
  | .data ev => (t.reports ev).map .report
  | .file d call w => (d.records w call).map .file

/-- The variables of the data wrappers behind it. -/
def Deed.after (t : Thread) : Deed W → Thread
  | .data ev => t.step ev
  | .file _ _ _ => t

/-- What a thread logs for one deed after the other. -/
def runMessages : Thread → List (Deed W) → List Message
  | _, [] => []
  | t, x :: xs => x.messages t ++ runMessages (x.after t) xs

/-- What it does with descriptors. -/
def Deed.events (xs : List (Deed W)) : List Batch.Event :=
  xs.filterMap fun
    | .data ev => some ev
    | .file _ _ _ => none

/-- A message that has taken a number. -/
structure Numbered (τ : Type*) where
  number : Nat
  thread : τ
  message : Message
  time : Timeval

/-- The text that it is logged as; `tid` is what `gettid` returns. -/
def Numbered.text (tid : τ → Int) (x : Numbered τ) : List Char := x.message.text (tid x.thread) x.time

/-- A process. The last two fields are not part of it: what the threads have done, and the messages that have taken a
number, both in order. -/
structure Threads (τ W : Type*) where
  callers : Callers τ
  vars : τ → Thread
  /-- What a thread has yet to log of what it has done. -/
  queue : τ → List Message
  deeds : List (τ × Deed W)
  numbered : List (Numbered τ)

/-- What a thread does next: a deed, when it has logged the last; the call of `bblog` for its next message, at a time, up to
`_blog`; and the other moves of the logger. -/
inductive Turn (W : Type*)
  | does (x : Deed W)
  | tell (time : Timeval)
  | pass
  | flush
  | run

/-- Nothing but the logger goes on. -/
def Threads.goOn (p : Threads τ W) (c : Callers τ) : Threads τ W := { p with callers := c }

section Step

variable [DecidableEq τ]

/-- A deed. -/
def Threads.does (p : Threads τ W) (t : τ) (x : Deed W) : Threads τ W :=
  { p with
    vars := Function.update p.vars t (x.after (p.vars t))
    queue := Function.update p.queue t (x.messages (p.vars t))
    deeds := p.deeds ++ [(t, x)] }

/-- A message takes a number; the others stay. -/
def Threads.tells (p : Threads τ W) (t : τ) (m : Message) (time : Timeval) (ms : List Message) (c : Callers τ) :
    Threads τ W :=
  { p with
    callers := c
    queue := Function.update p.queue t ms
    numbered := p.numbered ++ [⟨p.callers.conf.state.nextCntr, t, m, time⟩] }

/-- The next turn of a thread. -/
def Threads.step (A : Allocator) (e : Process) (tid : τ → Int) (p : Threads τ W) : τ × Turn W → Option (Threads τ W)
  | (t, .does x) =>
    if p.callers.conf.killed ∨ p.callers.conf.pc t ≠ .idle ∨ p.callers.built t ≠ none ∨ p.queue t ≠ [] then none
    else some (p.does t x)
  | (t, .tell time) =>
    match p.queue t with
    | [] => none
    | m :: ms =>
      -- what `vsnprintf` prints has no NUL
      if h : NulFree (m.text (tid t) time) then
        (p.callers.step A e (t, .format (m.text (tid t) time) h)).map (p.tells t m time ms)
      else none
  | (t, .pass) => (p.callers.step A e (t, .pass)).map p.goOn
  | (t, .flush) => (p.callers.step A e (t, .flush)).map p.goOn
  | (t, .run) => (p.callers.step A e (t, .run)).map p.goOn

end Step

/-- After `bblog_init`, with the counter at `c`, and threads that have done nothing. -/
def Threads.Started (A : Allocator) (e : Process) (c : Nat) (p : Threads τ W) : Prop :=
  p.callers.Started A e ∧ p.callers.conf.state.cntr = c ∧ p.vars = (fun _ => Thread.init) ∧ p.queue = (fun _ => []) ∧
    p.deeds = [] ∧ p.numbered = []

/-- `bblog` has room for a message that takes a number, and the logger leaves no gap. -/
def Threads.Sound [Fintype τ] (e : Process) (tid : τ → Int) (p : Threads τ W) : τ × Turn W → Prop
  | (t, .tell time) => ∀ m ∈ (p.queue t).head?,
    (record (recordKey p.callers.conf.state.nextCntr) (some (m.text (tid t) time))).length - 1 < bufferSize - 2
  | (t, .run) => p.callers.conf.Tidy e (t, .run)
  | _ => True

/-- The deed is one in scope, with paths that need no escape. -/
def Deed.InScope : Deed W → Prop
  | .data ev => ev.InScope ∧ ev.CleanFile
  | .file d call w => ∀ r ∈ d.records w call, r.Readable

/-! ## What is logged in a run -/

/-- The deeds of a thread. -/
def deedsOf [DecidableEq τ] (t : τ) (xs : List (τ × Deed W)) : List (Deed W) := (xs.filter (·.1 = t)).map Prod.snd

/-- The messages of a thread among those that took a number. -/
def messagesOf [DecidableEq τ] (t : τ) (xs : List (Numbered τ)) : List Message :=
  (xs.filter (·.thread = t)).map Numbered.message

theorem runMessages_snoc (x : Deed W) {xs : List (Deed W)} : ∀ {t : Thread},
    runMessages t (xs ++ [x]) = runMessages t xs ++ x.messages (xs.foldl Deed.after t) := by
  induction xs with
  | nil => intro t; simp [runMessages]
  | cons y xs ih =>
    intro t
    rw [List.cons_append, runMessages, ih, runMessages, List.foldl_cons, List.append_assoc]

/-- The variables behind the deeds are those behind what was done with descriptors. -/
theorem foldl_after {xs : List (Deed W)} : ∀ {t : Thread}, xs.foldl Deed.after t = (Deed.events xs).foldl Thread.step t := by
  induction xs with
  | nil => intro t; rfl
  | cons x xs ih => cases x <;> exact ih

/-- The reports of a deed, and its records. -/
theorem Deed.messages_eq (t : Thread) (x : Deed W) :
    (x.messages t).filterMap Message.reported = (Deed.events [x]).flatMap t.reports ∧
    (x.messages t).filterMap Message.recorded = x.records := by
  cases x with
  | data ev =>
    have hreports : ((t.reports ev).map Message.report).filterMap Message.reported = t.reports ev := by
      rw [List.filterMap_map]
      exact List.filterMap_some
    have hrecords : ((t.reports ev).map Message.report).filterMap Message.recorded = [] := by
      rw [List.filterMap_map]
      exact List.filterMap_eq_nil_iff.mpr fun _ _ => rfl
    exact ⟨by rw [Deed.messages, hreports]; simp [Deed.events], hrecords⟩
  | file d call w =>
    have hreports : ((d.records w call).map Message.file).filterMap Message.reported = [] := by
      rw [List.filterMap_map]
      exact List.filterMap_eq_nil_iff.mpr fun _ _ => rfl
    have hrecords : ((d.records w call).map Message.file).filterMap Message.recorded = d.records w call := by
      rw [List.filterMap_map]
      exact List.filterMap_some
    exact ⟨hreports, hrecords⟩

/-- The reports are those of what was done with descriptors. -/
theorem reported_run (xs : List (Deed W)) : ∀ t : Thread,
    (runMessages t xs).filterMap Message.reported = t.runReports (Deed.events xs) := by
  induction xs with
  | nil => intro t; rfl
  | cons x xs ih =>
    intro t
    rw [runMessages, List.filterMap_append, ih, (x.messages_eq t).1]
    cases x <;> simp [Deed.events, Deed.after, Thread.runReports]

/-- The records are those of the file calls. -/
theorem recorded_run (xs : List (Deed W)) : ∀ t : Thread,
    (runMessages t xs).filterMap Message.recorded = xs.flatMap Deed.records := by
  induction xs with
  | nil => intro t; rfl
  | cons x xs ih =>
    intro t
    rw [runMessages, List.filterMap_append, ih, (x.messages_eq t).2, List.flatMap_cons]

section Run

variable [DecidableEq τ] [Fintype τ] {A : Allocator} {e : Process} {tid : τ → Int} {c : Nat} {p p' : Threads τ W}

/-- What every sound turn keeps; `c` is where the counter stood at the start. -/
structure Threads.Ok (e : Process) (tid : τ → Int) (c : Nat) (p : Threads τ W) : Prop where
  callers : p.callers.Ok e c
  /-- The records that `bblog` accepted are those of the messages, with their numbers. -/
  told : p.callers.told.map Formatted.entry = p.numbered.map fun x => (x.number, x.text tid)
  numbers : p.numbered.map Numbered.number = p.callers.numbers
  vars : ∀ t, p.vars t = (deedsOf t p.deeds).foldl Deed.after Thread.init
  /-- Each thread numbers its messages in order. -/
  messages : ∀ t, runMessages Thread.init (deedsOf t p.deeds) = messagesOf t p.numbered ++ p.queue t

/-- The logger goes on, and takes no number. -/
theorem Threads.Ok.goOn (h : p.Ok e tid c) (he : e.Fits) {x : τ × CallerMove} (hx : p.callers.Tidy e x)
    {q : Callers τ} (hstep : p.callers.step A e x = some q) (htold : q.told = p.callers.told)
    (hnumbers : q.numbers = p.callers.numbers) : (p.goOn q).Ok e tid c where
  callers := h.callers.step he hx hstep
  told := by
    rw [show (p.goOn q).callers.told = p.callers.told from htold]
    exact h.told
  numbers := h.numbers.trans hnumbers.symm
  vars := h.vars
  messages := h.messages

/-- A deed. -/
theorem Threads.Ok.does (h : p.Ok e tid c) {t : τ} (x : Deed W) (hqueue : p.queue t = []) : (p.does t x).Ok e tid c where
  callers := h.callers
  told := h.told
  numbers := h.numbers
  vars := by
    intro u
    by_cases hu : u = t
    · subst hu
      simp [Threads.does, deedsOf, h.vars u]
    · simp [Threads.does, deedsOf, hu, Ne.symm hu, h.vars u]
  messages := by
    intro u
    by_cases hu : u = t
    · subst hu
      have hdeeds : deedsOf u (p.deeds ++ [(u, x)]) = deedsOf u p.deeds ++ [x] := by simp [deedsOf]
      have hrun := h.messages u
      rw [hqueue, List.append_nil] at hrun
      simp only [Threads.does, Function.update_self]
      rw [hdeeds, runMessages_snoc, hrun, h.vars u]
    · have hdeeds : deedsOf u (p.deeds ++ [(t, x)]) = deedsOf u p.deeds := by simp [deedsOf, Ne.symm hu]
      simp only [Threads.does, Function.update_of_ne hu]
      rw [hdeeds, h.messages u]

/-- A message takes a number, and there is room for it. -/
theorem Threads.Ok.tells (h : p.Ok e tid c) (he : e.Fits) {t : τ} {m : Message} {ms : List Message} {time : Timeval}
    (hqueue : p.queue t = m :: ms) (hnul : NulFree (m.text (tid t) time))
    (hroom : (record (recordKey p.callers.conf.state.nextCntr) (some (m.text (tid t) time))).length - 1 < bufferSize - 2)
    {q : Callers τ} (hstep : p.callers.step A e (t, .format (m.text (tid t) time) hnul) = some q) :
    (p.tells t m time ms q).Ok e tid c where
  callers := h.callers.step he (x := (t, .format _ hnul)) trivial hstep
  told := by
    simp only [Callers.step] at hstep
    split_ifs at hstep
    cases hstep
    simp only [Threads.tells, Callers.format, formatted, dif_pos hroom, List.map_append, h.told]
    rfl
  numbers := by
    simp only [Callers.step] at hstep
    split_ifs at hstep
    cases hstep
    simp only [Threads.tells, Callers.format, List.map_append, h.numbers]
    rfl
  vars := h.vars
  messages := by
    intro u
    have hrun := h.messages u
    by_cases hu : u = t
    · subst hu
      rw [hqueue] at hrun
      simp [Threads.tells, messagesOf, hrun]
    · simp only [Threads.tells, Function.update_of_ne hu]
      rw [hrun]
      simp [messagesOf, Ne.symm hu]

/-- **Every sound turn keeps it.** -/
theorem Threads.Ok.step (h : p.Ok e tid c) (he : e.Fits) {x : τ × Turn W} (hx : p.Sound e tid x)
    (hstep : p.step A e tid x = some p') : p'.Ok e tid c := by
  obtain ⟨t, turn⟩ := x
  cases turn with
  | does x =>
    simp only [Threads.step] at hstep
    split_ifs at hstep with hcan
    cases hstep
    exact h.does x (by simpa using (not_or.mp (not_or.mp (not_or.mp hcan).2).2).2)
  | tell time =>
    simp only [Threads.step] at hstep
    split at hstep
    · cases hstep
    · rename_i m ms hqueue
      split_ifs at hstep with hnul
      obtain ⟨q, hq, rfl⟩ := Option.map_eq_some_iff.mp hstep
      exact h.tells he hqueue hnul (hx m (by rw [hqueue]; rfl)) hq
  | pass =>
    obtain ⟨q, hq, rfl⟩ := Option.map_eq_some_iff.mp hstep
    obtain ⟨r, -, hpass⟩ := Option.bind_eq_some_iff.mp hq
    obtain ⟨conf, -, rfl⟩ := Option.map_eq_some_iff.mp hpass
    exact h.goOn he (x := (t, .pass)) trivial hq rfl rfl
  | flush =>
    obtain ⟨q, hq, rfl⟩ := Option.map_eq_some_iff.mp hstep
    have hflush := hq
    simp only [Callers.step] at hflush
    split_ifs at hflush
    obtain ⟨conf, -, rfl⟩ := Option.map_eq_some_iff.mp hflush
    exact h.goOn he (x := (t, .flush)) trivial hq rfl rfl
  | run =>
    obtain ⟨q, hq, rfl⟩ := Option.map_eq_some_iff.mp hstep
    obtain ⟨conf, -, rfl⟩ := Option.map_eq_some_iff.mp hq
    exact h.goOn he (x := (t, .run)) hx hq rfl rfl

/-- At the start it holds. -/
theorem Threads.Started.ok (h : p.Started A e c) (he : e.Fits) : p.Ok e tid c := by
  obtain ⟨hcallers, hc, hvars, hqueue, hdeeds, hnumbered⟩ := h
  refine ⟨hc ▸ hcallers.ok he, ?_, ?_, fun t => ?_, fun t => ?_⟩
  · rw [hcallers.2.2.2.1, hnumbered]
    rfl
  · rw [hcallers.2.2.1, hnumbered]
    rfl
  · rw [hvars, hdeeds]
    rfl
  · rw [hqueue, hdeeds, hnumbered]
    rfl

end Run

/-! ## Readers -/

/-- The records of the batch of an entry, with their keys. -/
def batchMembers : Json → List (List Char × Json)
  | .obj ms =>
    match valuesAt ms "BATCH".toList with
    | [.obj rs] => rs
    | _ => []
  | _ => []

/-- The number in the key of a record. -/
def readRecName (key : List Char) : Option Nat :=
  if "REC_".toList.isPrefixOf key then readDecimal (key.drop 4) else none

/-- The records that a log holds, with their numbers. -/
noncomputable def logNumbered (log : List (List Char)) : List (Nat × Json) :=
  log.flatMap fun text =>
    (((valueOf text).map batchMembers).getD []).filterMap fun r => (readRecName r.1).map fun n => (n, r.2)

/-- The records in the order of their numbers. -/
noncomputable def inOrder (log : List (List Char)) : List Json := (sortedBy Prod.fst (logNumbered log)).map Prod.snd

/-- The accesses of a thread through a wrapper that a log tells. -/
noncomputable def accessesInOrder (tid : Int) (w : Wrapper) (log : List (List Char)) :
    List (List Char × Option (Nat × Nat)) := ((inOrder log).filter (ofThread tid)).flatMap (readRecord w)

/-- The records of the file calls of a thread. -/
noncomputable def filesInOrder (tid : Int) (log : List (List Char)) : List FileRecord :=
  ((inOrder log).filter (ofThread tid)).filterMap readFileRecord

theorem readRecName_recName (n : Nat) : readRecName (recName n) = some n := by
  have hprefix : "REC_".toList.isPrefixOf (recName n) = true := by simp [recName]
  rw [readRecName, if_pos hprefix]
  exact readDecimal_decimal n

theorem batchMembers_entryValue (e : Process) (rs : List (List Char × Json)) : batchMembers (entryValue e rs) = rs := by
  have hbatch : valuesAt [("PID".toList, Json.num (decimal e.pid)), ("PROC".toList, .str e.name),
      ("BATCH".toList, .obj rs)] "BATCH".toList = [.obj rs] := by simp [valuesAt]
  simp only [batchMembers, entryValue, hbatch]

/-- The records that are read from texts that are made of groups. -/
theorem logNumbered_groups {e : Process} {value : List Char → Json} {ws : List Write} {groups : List (List Formatted)}
    (h : List.Forall₂ (fun w g => g ≠ [] ∧
      Prints w.text (entryValue e (g.map fun r => (recName r.number, value r.body)))) ws groups) :
    logNumbered (ws.map Write.text) = groups.flatten.map fun r => (r.number, value r.body) := by
  induction h with
  | nil => rfl
  | @cons w g ws groups hw _ ih =>
    have hentry : (((valueOf w.text).map batchMembers).getD []).filterMap (fun r => (readRecName r.1).map fun n => (n, r.2)) =
        g.map fun r => (r.number, value r.body) := by
      rw [hw.2.isJson.valueOf, Option.map_some, Option.getD_some, batchMembers_entryValue, List.filterMap_map]
      simp only [Function.comp_def, readRecName_recName, Option.map_some]
      exact congrFun List.filterMap_eq_map' g
    rw [List.map_cons, List.flatten_cons, List.map_append, ← ih, ← hentry]
    rfl

/-- What is read of messages that are read back. -/
theorem read_numbered [DecidableEq τ] {tid : τ → Int} (htid : Function.Injective tid) (t : τ) {xs : List (Numbered τ)}
    (h : ∀ x ∈ xs, x.message.Readable) :
    (∀ w, ((xs.map fun x => recordValue (x.text tid)).filter (ofThread (tid t))).flatMap (readRecord w) =
      (ofWrapper w ((messagesOf t xs).filterMap Message.reported)).flatMap Notification.told) ∧
    ((xs.map fun x => recordValue (x.text tid)).filter (ofThread (tid t))).filterMap readFileRecord =
      (messagesOf t xs).filterMap Message.recorded := by
  induction xs with
  | nil => exact ⟨fun w => rfl, rfl⟩
  | cons x xs ih =>
    obtain ⟨hx, hrest⟩ := List.forall_mem_cons.mp h
    obtain ⟨hreports, hrecords⟩ := ih hrest
    rw [List.map_cons, Numbered.text, hx.value, List.filter_cons, ofThread_members]
    by_cases hu : x.thread = t
    · have hmessages : messagesOf t (x :: xs) = x.message :: messagesOf t xs := by simp [messagesOf, hu]
      rw [hmessages, decide_eq_true (congrArg tid hu), if_pos rfl]
      refine ⟨fun w => ?_, ?_⟩
      · have happend : (x.message :: messagesOf t xs).filterMap Message.reported =
            x.message.reported.toList ++ (messagesOf t xs).filterMap Message.reported := by
          cases hm : x.message.reported <;> simp [hm]
        rw [List.flatMap_cons, hreports w, Message.read_report, happend, ofWrapper, ofWrapper, ofWrapper, List.filter_append,
          List.flatMap_append]
      · rw [List.filterMap_cons, hx.read_file, hrecords, List.filterMap_cons]
    · have hmessages : messagesOf t (x :: xs) = messagesOf t xs := by simp [messagesOf, hu]
      rw [hmessages, decide_eq_false fun heq => hu (htid heq), if_neg Bool.false_ne_true]
      exact ⟨hreports, hrecords⟩

/-! ## The log -/

/-- The texts that were written. -/
def Threads.log (p : Threads τ W) : List (List Char) := p.callers.conf.writes.map Write.text

/-- What is done with descriptors by deeds in scope. -/
theorem events_inScope {xs : List (Deed W)} (h : ∀ x ∈ xs, x.InScope) :
    ∀ ev ∈ Deed.events xs, ev.InScope ∧ ev.CleanFile := by
  intro ev hev
  obtain ⟨x, hx, hxev⟩ := List.mem_filterMap.mp hev
  cases x with
  | data ev' =>
    obtain rfl := Option.some.inj hxev
    exact h _ hx
  | file d call w => cases hxev

/-- The messages of deeds in scope are read back. -/
theorem runMessages_readable {xs : List (Deed W)} (h : ∀ x ∈ xs, x.InScope) :
    ∀ m ∈ runMessages Thread.init xs, m.Readable := by
  intro m hm
  cases m with
  | report n =>
    have hevents := events_inScope h
    apply (tidy_init.run (fun ev hev => (hevents ev hev).1) fun ev hev => (hevents ev hev).2).2
    rw [← reported_run]
    exact List.mem_filterMap.mpr ⟨_, hm, rfl⟩
  | file r =>
    have hr : r ∈ xs.flatMap Deed.records := by
      rw [← recorded_run xs Thread.init]
      exact List.mem_filterMap.mpr ⟨_, hm, rfl⟩
    obtain ⟨x, hx, hrx⟩ := List.mem_flatMap.mp hr
    cases x with
    | data ev => exact absurd hrx List.not_mem_nil
    | file d call w => exact ⟨call.passed d.kernel d.libc w r hrx, h _ hx r hrx⟩

/-- The numbers increase as long as the counter does not wrap. -/
theorem numbersFrom_increasing {n k : Nat} (h : n + k < 2 ^ 64) : (numbersFrom n k).Pairwise (· < ·) := by
  have hrange : numbersFrom n k = List.range' (n + 1) k := by
    refine (List.map_congr_left fun i hi => ?_).trans (List.map_id' _)
    rw [List.mem_range'_1] at hi
    exact Nat.mod_eq_of_lt (by omega)
  rw [hrange]
  exact List.pairwise_lt_range'

section Log

variable [DecidableEq τ] [Fintype τ] {e : Process} {tid : τ → Int} {c : Nat} {p : Threads τ W}

omit [Fintype τ] in
theorem deedsOf_inScope (hdeeds : ∀ x ∈ p.deeds, x.2.InScope) (t : τ) : ∀ x ∈ deedsOf t p.deeds, x.InScope := by
  intro x hx
  obtain ⟨y, hy, rfl⟩ := List.mem_map.mp hx
  exact hdeeds y (List.mem_of_mem_filter hy)

/-- The messages that took a number are read back. -/
theorem Threads.Ok.readable (h : p.Ok e tid c) (hdeeds : ∀ x ∈ p.deeds, x.2.InScope) :
    ∀ x ∈ p.numbered, x.message.Readable := by
  intro x hx
  apply runMessages_readable (deedsOf_inScope hdeeds x.thread)
  rw [h.messages]
  refine List.mem_append_left _ (List.mem_map.mpr ⟨x, List.mem_filter.mpr ⟨hx, ?_⟩, rfl⟩)
  exact decide_eq_true rfl

/-- The accepted records have the numbers that were taken. -/
theorem Threads.Ok.told_numbers (h : p.Ok e tid c) : p.callers.told.map Formatted.number = p.callers.numbers := by
  have hfst := congrArg (List.map Prod.fst) h.told
  rw [List.map_map, List.map_map] at hfst
  exact hfst.trans h.numbers

/-- Their numbers increase. -/
theorem Threads.Ok.increasing (h : p.Ok e tid c) (hfew : c + p.callers.numbers.length < 2 ^ 64) :
    p.callers.told.Pairwise fun r r' => r.number < r'.number := by
  rw [← List.pairwise_map (R := (· < ·)), h.told_numbers, h.callers.numbers]
  exact numbersFrom_increasing (by simpa using hfew)

/-- Their bodies print values. -/
theorem Threads.Ok.prints (h : p.Ok e tid c) (hreadable : ∀ x ∈ p.numbered, x.message.Readable) :
    ∀ r ∈ p.callers.told, Prints r.body (recordValue r.body) := by
  intro r hr
  have hentry : r.entry ∈ p.numbered.map fun x => (x.number, x.text tid) := by
    rw [← h.told]
    exact List.mem_map_of_mem hr
  obtain ⟨x, hx, hxr⟩ := List.mem_map.mp hentry
  have hbody : x.text tid = r.body := congrArg Prod.snd hxr
  rw [← hbody, Numbered.text, (hreadable x hx).value]
  exact (hreadable x hx).prints _ _

/-- The accepted records with some numbers are the messages with these numbers. -/
theorem Threads.Ok.told_values (h : p.Ok e tid c) (ns : List Nat) :
    (p.callers.told.filter fun r => r.number ∈ ns).map (fun r => recordValue r.body) =
      (p.numbered.filter fun x => x.number ∈ ns).map fun x => recordValue (x.text tid) := by
  have hleft := List.filter_map (f := Formatted.entry) (l := p.callers.told) (p := fun y => decide (y.1 ∈ ns))
  have hright := List.filter_map (f := fun x : Numbered τ => (x.number, x.text tid)) (l := p.numbered)
    (p := fun y => decide (y.1 ∈ ns))
  rw [h.told] at hleft
  have hvalues := congrArg (List.map fun y : Nat × List Char => recordValue y.2) (hleft.symm.trans hright)
  rw [List.map_map, List.map_map] at hvalues
  exact hvalues

/-- **The log in order**: part of the messages, in the order in which they took their numbers; all of them if none is on its
way. -/
theorem Threads.Ok.inOrder (h : p.Ok e tid c) (hname : Clean e.name) (hfew : c + p.callers.numbers.length < 2 ^ 64)
    (hreadable : ∀ x ∈ p.numbered, x.message.Readable) :
    ∃ xs, xs.Sublist p.numbered ∧ inOrder p.log = xs.map (fun x => recordValue (x.text tid)) ∧
      ((∀ r ∈ p.callers.told, p.callers.pending r = 0) → xs = p.numbered) := by
  obtain ⟨groups, hgroups, hnodup, hcount⟩ := h.callers.tells (by omega) hname (h.prints hreadable)
  -- the records of the groups are some of those that were accepted, each once
  have htold : ∀ r ∈ groups.flatten, r ∈ p.callers.told := by
    intro r hr
    by_contra hnot
    have hzero := hcount r
    rw [if_neg hnot] at hzero
    have hpos := List.count_pos_iff.mpr hr
    omega
  have honce : groups.flatten.Nodup := by
    rw [List.nodup_iff_count_le_one]
    intro r
    have hone := hcount r
    split_ifs at hone <;> omega
  have hsorted := sortedBy_of_subset honce htold (h.increasing hfew)
  -- a record is in a group if its number is that of one
  have hfilter : p.callers.told.filter (· ∈ groups.flatten) =
      p.callers.told.filter fun r => r.number ∈ groups.flatten.map Formatted.number := by
    refine List.filter_congr fun r hr => ?_
    rw [decide_eq_decide]
    refine ⟨fun hmem => List.mem_map_of_mem hmem, fun hmem => ?_⟩
    obtain ⟨r', hr', heq⟩ := List.mem_map.mp hmem
    rwa [← List.inj_on_of_nodup_map hnodup (htold r' hr') hr heq]
  refine ⟨p.numbered.filter fun x => x.number ∈ groups.flatten.map Formatted.number, List.filter_sublist, ?_, fun hnone => ?_⟩
  · rw [← h.told_values, ← hfilter, ← hsorted, Cosmost.inOrder, Threads.log, logNumbered_groups hgroups, sortedBy_map,
      List.map_map]
    rfl
  · refine List.filter_eq_self.mpr fun x hx => decide_eq_true ?_
    have hx' : x.number ∈ p.callers.told.map Formatted.number := by
      rw [h.told_numbers, ← h.numbers]
      exact List.mem_map_of_mem hx
    obtain ⟨r, hr, hrx⟩ := List.mem_map.mp hx'
    have hone := hcount r
    rw [if_pos hr, hnone r hr] at hone
    rw [← hrx]
    exact List.mem_map_of_mem (List.count_pos_iff.mp (by omega))

end Log

/-- **The log of threads that run at the same time tells what each of them did.** In every run of any number of threads in
which `bblog` has room for every message and the logger leaves no gap, as long as the counter does not wrap, of deeds in
scope with paths that need no escape. Whoever puts the records in the order of their numbers reads for each thread and
wrapper some of the accesses that the thread made through it, in its order, and some of the records of its file calls; and
when the thread has logged its deeds and nothing is on its way, all of them, up to the accesses that are pending. -/
theorem interleaved_log_tells_threads [Fintype τ] [DecidableEq τ] (A : Allocator) (e : Process) (he : e.Fits)
    (hname : Clean e.name) (tid : τ → Int) (htid : Function.Injective tid) (c : Nat) (p : Threads τ W)
    (hp : Reach (Threads.step A e tid) (Threads.Sound e tid) (Threads.Started A e c) p)
    (hfew : c + p.callers.numbers.length < 2 ^ 64) (hdeeds : ∀ x ∈ p.deeds, x.2.InScope) (t : τ) :
    (∀ w, ((accessesInOrder (tid t) w p.log).map Prod.snd).Sublist
      (((Deed.events (deedsOf t p.deeds)).filterMap (Event.accessed w)).map some)) ∧
    (filesInOrder (tid t) p.log).Sublist ((deedsOf t p.deeds).flatMap Deed.records) ∧
    (p.queue t = [] → (∀ r ∈ p.callers.told, p.callers.pending r = 0) →
      (∀ w, (accessesInOrder (tid t) w p.log).map Prod.snd ++ readPending (p.vars t w).vars =
        ((Deed.events (deedsOf t p.deeds)).filterMap (Event.accessed w)).map some) ∧
      filesInOrder (tid t) p.log = (deedsOf t p.deeds).flatMap Deed.records) := by
  have h : p.Ok e tid c := Reach.inv (I := fun p => p.Ok e tid c) (fun p hp => hp.ok he)
    (fun p x p' h hx hstep => h.step he hx hstep) hp
  have hreadable := h.readable hdeeds
  obtain ⟨xs, hxs, horder, hall⟩ := h.inOrder hname hfew hreadable
  obtain ⟨haccesses, hfiles⟩ := read_numbered htid t fun x hx => hreadable x (hxs.subset hx)
  rw [← horder] at haccesses hfiles
  -- what the thread has to tell
  have hscope := events_inScope (deedsOf_inScope hdeeds t)
  have hreports := reported_run (deedsOf t p.deeds) Thread.init
  have hrecords := recorded_run (deedsOf t p.deeds) Thread.init
  rw [h.messages t, List.filterMap_append] at hreports hrecords
  have hvars : p.vars t = (Deed.events (deedsOf t p.deeds)).foldl Thread.step Thread.init := by
    rw [h.vars, foldl_after]
  have hpart : (messagesOf t xs).Sublist (messagesOf t p.numbered) := (hxs.filter _).map _
  refine ⟨fun w => ?_, ?_, fun hqueue hnone => ?_⟩
  · rw [← told_runReports hscope w, ← hreports, accessesInOrder, haccesses w]
    refine List.Sublist.trans ?_ (List.sublist_append_left _ _)
    exact ((((hpart.filterMap _).trans (List.sublist_append_left _ _)).filter _).flatMap _).map _
  · rw [← hrecords, filesInOrder, hfiles]
    exact (hpart.filterMap _).trans (List.sublist_append_left _ _)
  · rw [hall hnone] at haccesses hfiles
    rw [hqueue, List.filterMap_nil, List.append_nil] at hreports hrecords
    refine ⟨fun w => ?_, ?_⟩
    · rw [accessesInOrder, haccesses w, hreports, hvars]
      exact told_runReports hscope w
    · rw [filesInOrder, hfiles, hrecords]

/-! ## Two threads -/

instance (en : Entry) (call : Batch.Call) : Decidable (Batch.InScope en call) :=
  decidable_of_iff (en.counts call ∧ call.lookup = true ∧ notify call.fd sIFREG call.file.chars call.fstat call.lstat ≠ 0 ∧
      0 ≤ call.fd ∧ 1 ≤ en.size call ∧ en.size call < 2 ^ 32 ∧ 0 ≤ en.off call ∧
      en.off call + en.size call + 4096 < 2 ^ 63)
    ⟨fun ⟨h1, h2, h3, h4, h5, h6, h7, h8⟩ => ⟨h1, h2, h3, ⟨h4, h5, h6, h7, h8⟩⟩,
      fun ⟨h1, h2, h3, ⟨h4, h5, h6, h7, h8⟩⟩ => ⟨h1, h2, h3, h4, h5, h6, h7, h8⟩⟩

instance : ∀ ev : Batch.Event, Decidable ev.InScope
  | .access en call => inferInstanceAs (Decidable (Batch.InScope en call))
  | .close _ | .exit => isTrue trivial

instance : ∀ ev : Batch.Event, Decidable ev.CleanFile
  | .access _ call => inferInstanceAs (Decidable (Clean call.file.chars))
  | .close _ | .exit => isTrue trivial

instance : ∀ x : Deed W, Decidable x.InScope
  | .data ev => inferInstanceAs (Decidable (ev.InScope ∧ ev.CleanFile))
  | .file d call w => inferInstanceAs (Decidable (∀ r ∈ d.records w call, ∀ q ∈ r.paths, Clean q))

instance [Fintype τ] (e : Process) (tid : τ → Int) (p : Threads τ W) : ∀ x, Decidable (p.Sound e tid x)
  | (t, .tell time) => inferInstanceAs (Decidable (∀ m ∈ (p.queue t).head?,
      (record (recordKey p.callers.conf.state.nextCntr) (some (m.text (tid t) time))).length - 1 < bufferSize - 2))
  | (t, .run) => inferInstanceAs (Decidable (p.callers.conf.Tidy e (t, .run)))
  | (_, .does _) | (_, .pass) | (_, .flush) => isTrue trivial

/-- The threads of a process that has just started. -/
def appAtWork (n : Nat) : Threads (Fin n) W := ⟨appCallers n, fun _ => Thread.init, fun _ => [], [], []⟩

theorem appAtWork_started (n : Nat) : (appAtWork n : Threads (Fin n) W).Started twoPages app 0 :=
  ⟨appCallers_started n, rfl, rfl, rfl, rfl, rfl⟩

/-- One thread reads a file and exits, another makes a file. They take numbers in one order and store in the other; then one
of them flushes. -/
def atWork (t u : Fin 2) : List (Fin 2 × Turn (Finset (List Char))) :=
  [(t, .does (.data (sampleRead 4096))), (t, .does (.data .exit)),
    (u, .does (.file tree (.fopen "/data/z".toList "w+".toList) ∅)), (t, .tell ⟨1, 0⟩), (u, .tell ⟨1, 1⟩), (u, .pass)] ++
    List.replicate 4 (u, .run) ++ (t, .pass) :: List.replicate 4 (t, .run) ++ (u, .flush) :: List.replicate 10 (u, .run)

/-- What `gettid` returns. -/
def atWorkTid (t : Fin 2) : Int := 8 + t.val

/-- The log tells both. -/
theorem crossed_deeds_told : ∃ p : Threads (Fin 2) (Finset (List Char)),
    Reach (Threads.step twoPages app atWorkTid) (Threads.Sound app atWorkTid) (Threads.Started twoPages app 0) p ∧
    (accessesInOrder 8 .read p.log).map Prod.snd = [some (4096, 0)] ∧
    filesInOrder 9 p.log = [.create (notifyCreate "fopen (create)" "/data/z".toList)] := by
  have hrun : (runAll (Threads.step twoPages app atWorkTid) (Threads.Sound app atWorkTid) (appAtWork 2) (atWork 0 1)).any
      (fun p => p.callers.numbers.length = 2 ∧ (∀ r ∈ p.callers.told, p.callers.pending r = 0) ∧
        (∀ x ∈ p.deeds, x.2.InScope) ∧ p.queue 0 = [] ∧ p.queue 1 = [] ∧ readPending (p.vars 0 .read).vars = [] ∧
        (Deed.events (deedsOf 0 p.deeds)).filterMap (Event.accessed .read) = [(4096, 0)] ∧
        (deedsOf 1 p.deeds).flatMap Deed.records = [.create (notifyCreate "fopen (create)" "/data/z".toList)]) = true := by
    decide +kernel
  obtain ⟨p, hp, htest⟩ := Reach.of_runAll (appAtWork_started 2) _ _ hrun
  obtain ⟨hnumbers, hnone, hdeeds, hqueue, hqueue', hpending, haccessed, hrecords⟩ := of_decide_eq_true htest
  have htid : Function.Injective atWorkTid := by decide
  have htells := fun t => interleaved_log_tells_threads twoPages app app_fits (by decide) atWorkTid htid 0 p hp
    (by rw [hnumbers]; decide) hdeeds t
  have haccesses := ((htells 0).2.2 hqueue hnone).1 .read
  rw [hpending, List.append_nil, haccessed] at haccesses
  exact ⟨p, hp, haccesses, ((htells 1).2.2 hqueue' hnone).2.trans hrecords⟩

end Cosmost
