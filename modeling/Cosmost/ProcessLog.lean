import Cosmost.Fs.Replay
import Cosmost.Fs.Told
import Cosmost.Log

/-!
# The log of a process

The threads of a process access files and create, map, rename and remove them, one doing after the other in any order, and
all that they log goes through one buffer. `log_tells_process`: readers of the log, each of which passes over what is for
another, get back the records of the file calls, whole and in order, and for every thread the accesses that it has
reported. Where the calls can be followed, whoever replays the records has the files in scope.
-/

namespace Cosmost

open Cosmost.Lib Cosmost.Fs Cosmost.Batch Cosmost.Bblog

variable {W : Type*}

/-- What a thread does: something with a descriptor, or a file call. -/
inductive Doing
  | data (ev : Batch.Event)
  | file (call : LibCall)

/-- What a thread logs. -/
inductive Message
  | report (n : Notification)
  | file (r : FileRecord)

/-- The text of a message of a thread. -/
def Message.text (tid : Int) (t : Timeval) : Message → List Char
  | .report n => n.text tid t
  | .file r => r.text tid t

/-- What the threads log in a run, in order. The variables of the data wrappers are those of a thread. -/
def messages (d : Disk W) : (Int → Thread) → W → List (Int × Doing) → List (Int × Message)
  | _, _, [] => []
  | ts, w, (tid, .data ev) :: es =>
    ((ts tid).reports ev).map (fun n => (tid, .report n)) ++
      messages d (Function.update ts tid ((ts tid).step ev)) w es
  | ts, w, (tid, .file call) :: es => (d.records w call).map (fun r => (tid, .file r)) ++ messages d ts (d.next w call) es

/-- The messages as they are logged; `times i` is the time of the message `i`. -/
def texts (times : Nat → Timeval) (ms : List (Int × Message)) : List (List Char) :=
  ms.mapIdx fun i m => m.2.text m.1 (times i)

/-- A process: each message is logged by `bblog` as it is made, and at the end a signal handler exits. -/
def processRun (A : Allocator) (e : Process) (n : Nat) (d : Disk W) (times : Nat → Timeval) (es : List (Int × Doing))
    (w : W) (c : Nat) (mem : Nat → Pibr) (sig : Nat) : Except Stuck State :=
  signalRun A e n (texts times (messages d (fun _ => Thread.init) w es)) c mem sig

/-! ## Readers -/

/-- The records of file calls that a log tells. -/
noncomputable def readFiles (log : List (List Char)) : List FileRecord := (logRecords log).filterMap readFileRecord

/-- A record of a thread. -/
def ofThread (tid : Int) : Json → Bool
  | .obj ms => numberAt ms "TID" == some (signed tid)
  | _ => false

/-- The accesses of a thread through a wrapper that a log tells. -/
noncomputable def readThread (tid : Int) (w : Wrapper) (log : List (List Char)) : List (List Char × Option (Nat × Nat)) :=
  ((logRecords log).filter (ofThread tid)).flatMap (readRecord w)

/-! ## What is done and logged by whom -/

/-- What a thread does with descriptors. -/
def eventsOf (tid : Int) (es : List (Int × Doing)) : List Batch.Event :=
  es.filterMap fun x =>
    match x.2 with
    | .data ev => if x.1 = tid then some ev else none
    | .file _ => none

/-- The file calls of all threads. -/
def callsOf (es : List (Int × Doing)) : List LibCall :=
  es.filterMap fun x =>
    match x.2 with
    | .data _ => none
    | .file call => some call

/-- The reports of a thread. -/
def reportsOf (tid : Int) (ms : List (Int × Message)) : List Notification :=
  ms.filterMap fun x =>
    match x.2 with
    | .report n => if x.1 = tid then some n else none
    | .file _ => none

/-- The records of all threads. -/
def recordsOf (ms : List (Int × Message)) : List FileRecord :=
  ms.filterMap fun x =>
    match x.2 with
    | .report _ => none
    | .file r => some r

section Messages

variable {d : Disk W} {es : List (Int × Doing)}

/-- The reports of a thread do not depend on the other threads, nor on the file calls. -/
theorem reports_messages (tid : Int) : ∀ {ts : Int → Thread} {w : W},
    reportsOf tid (messages d ts w es) = (ts tid).runReports (eventsOf tid es) := by
  have happend : ∀ ms ms', reportsOf tid (ms ++ ms') = reportsOf tid ms ++ reportsOf tid ms' := fun _ _ =>
    List.filterMap_append
  have hrecords : ∀ (u : Int) (rs : List FileRecord), reportsOf tid (rs.map fun r => (u, .file r)) = [] := by
    intro u rs
    rw [reportsOf, List.filterMap_map]
    exact List.filterMap_eq_nil_iff.mpr fun _ _ => rfl
  have hreports : ∀ (u : Int) (ns : List Notification),
      reportsOf tid (ns.map fun n => (u, .report n)) = if u = tid then ns else [] := by
    intro u ns
    rw [reportsOf, List.filterMap_map]
    by_cases hu : u = tid
    · simp [hu]
    · simp [hu]
  induction es with
  | nil => intro ts w; rfl
  | cons x es ih =>
    obtain ⟨u, doing⟩ := x
    intro ts w
    cases doing with
    | data ev =>
      rw [messages, happend, hreports, ih]
      by_cases hu : u = tid
      · subst hu
        simp [eventsOf, Thread.runReports]
      · simp [eventsOf, hu, Ne.symm hu]
    | file call =>
      rw [messages, happend, hrecords, List.nil_append, ih]
      rfl

/-- The records do not depend on the accesses between them. -/
theorem records_messages : ∀ {ts : Int → Thread} {w : W},
    recordsOf (messages d ts w es) = d.recorded w (callsOf es) := by
  have happend : ∀ ms ms', recordsOf (ms ++ ms') = recordsOf ms ++ recordsOf ms' := fun _ _ => List.filterMap_append
  have hrecords : ∀ (u : Int) (rs : List FileRecord), recordsOf (rs.map fun r => (u, .file r)) = rs := by
    intro u rs
    rw [recordsOf, List.filterMap_map]
    exact List.filterMap_some
  have hreports : ∀ (u : Int) (ns : List Notification), recordsOf (ns.map fun n => (u, .report n)) = [] := by
    intro u ns
    rw [recordsOf, List.filterMap_map]
    exact List.filterMap_eq_nil_iff.mpr fun _ _ => rfl
  induction es with
  | nil => intro ts w; rfl
  | cons x es ih =>
    obtain ⟨u, doing⟩ := x
    intro ts w
    cases doing with
    | data ev =>
      rw [messages, happend, hreports, List.nil_append, ih]
      rfl
    | file call =>
      rw [messages, happend, hrecords, ih]
      rfl

end Messages

/-! ## Messages of two kinds -/

/-- A message that is read back. -/
def Message.Readable : Message → Prop
  | .report n => ∃ w, n.Neat w
  | .file r => r.Passed ∧ r.Readable

/-- What a message denotes. -/
def Message.members (tid : Int) (t : Timeval) : Message → List (List Char × Json)
  | .report n => n.members tid t
  | .file r => r.members tid t

theorem Message.Readable.prints {m : Message} (h : m.Readable) (tid : Int) (t : Timeval) :
    Prints (m.text tid t) (.obj (m.members tid t)) := by
  cases m with
  | report n =>
    obtain ⟨w, hn⟩ := h
    exact hn.prints tid t
  | file r => exact h.1.prints h.2 tid t

/-- A message tells its thread. -/
theorem ofThread_members (m : Message) (u tid : Int) (t : Timeval) :
    ofThread tid (.obj (m.members u t)) = decide (u = tid) := by
  have htid : numberAt (m.members u t) "TID" = some (signed u) := by
    cases m with
    | report n => simp [Message.members, Notification.members, numberAt, valuesAt]
    | file r => cases r <;> simp [Message.members, FileRecord.members, recordMembers, numberAt, valuesAt]
  have hinj : signed u = signed tid ↔ u = tid := by
    constructor
    · intro h
      have hread := congrArg readSigned h
      rwa [readSigned_signed, readSigned_signed, Option.some.injEq] at hread
    · exact congrArg signed
  rw [ofThread, htid, Bool.eq_iff_iff, beq_iff_eq, Option.some.injEq, hinj, decide_eq_true_iff]

/-- The reader of accesses passes over the records of file calls. -/
theorem readRecord_file (w : Wrapper) (r : FileRecord) (tid : Int) (t : Timeval) :
    readRecord w (.obj (r.members tid t)) = [] := by
  have hrw : valuesAt (r.members tid t) "RW".toList = [] := by
    cases r <;> simp [FileRecord.members, recordMembers, valuesAt]
  rw [readRecord]
  split
  · rename_i hvalue
    rw [hrw] at hvalue
    cases hvalue
  · rfl

/-- The reader of file calls passes over the reports. -/
theorem readFileRecord_report {n : Notification} {w : Wrapper} (hn : n.Neat w) (tid : Int) (t : Timeval) :
    readFileRecord (.obj (n.members tid t)) = none := by
  have hops : ∀ w ∈ closeOrder, ∀ op ∈ w.ops, op ∉ createOps := by decide
  -- a report has a path, but neither a mode nor an address
  simp [readFileRecord, Notification.members, stringAt, numberAt, valuesAt, hops w (by cases w <;> decide) n.op hn.op]

/-- The report of a message. -/
def Message.reported : Message → Option Notification
  | .report n => some n
  | .file _ => none

/-- The record of a message. -/
def Message.recorded : Message → Option FileRecord
  | .report _ => none
  | .file r => some r

section Read

variable {m : Message} (h : m.Readable) (tid : Int) (t : Timeval)
include h

theorem Message.Readable.value : recordValue (m.text tid t) = .obj (m.members tid t) := recordValue_eq (h.prints tid t)

omit h in
/-- What a message tells the reader of the accesses of a wrapper. -/
theorem Message.read_report (w : Wrapper) :
    readRecord w (.obj (m.members tid t)) = (ofWrapper w m.reported.toList).flatMap Notification.told := by
  cases m with
  | report n =>
    rw [Message.members, readRecord_members]
    by_cases hw : wrapperOf n.op.toList = some w
    · simp [Message.reported, ofWrapper, hw]
    · simp [Message.reported, ofWrapper, hw]
  | file r => exact readRecord_file w r tid t

/-- And the reader of the file calls. -/
theorem Message.Readable.read_file : readFileRecord (.obj (m.members tid t)) = m.recorded := by
  cases m with
  | report n =>
    obtain ⟨w, hn⟩ := h
    exact readFileRecord_report hn tid t
  | file r => exact h.1.read_back tid t

end Read

/-- **What the texts of messages tell**: to one reader the accesses of the reports of a thread, to another the records. -/
theorem read_texts {ms : List (Int × Message)} (h : ∀ m ∈ ms, m.2.Readable) : ∀ times : Nat → Timeval,
    (∀ b ∈ texts times ms, ∃ v, Prints b v) ∧
    (∀ tid w, (((texts times ms).map recordValue).filter (ofThread tid)).flatMap (readRecord w) =
      (ofWrapper w (reportsOf tid ms)).flatMap Notification.told) ∧
    ((texts times ms).map recordValue).filterMap readFileRecord = recordsOf ms := by
  induction ms with
  | nil => exact fun times => ⟨fun b hb => absurd hb List.not_mem_nil, fun tid w => rfl, rfl⟩
  | cons x ms ih =>
    obtain ⟨u, m⟩ := x
    intro times
    obtain ⟨hm, hrest⟩ := List.forall_mem_cons.mp h
    obtain ⟨hprints, hreports, hrecords⟩ := ih hrest fun i => times (i + 1)
    have htexts : texts times ((u, m) :: ms) = m.text u (times 0) :: texts (fun i => times (i + 1)) ms := by
      simp [texts, List.mapIdx_cons]
    rw [htexts, List.map_cons, hm.value u (times 0)]
    refine ⟨List.forall_mem_cons.mpr ⟨⟨_, hm.prints u (times 0)⟩, hprints⟩, fun tid w => ?_, ?_⟩
    · rw [List.filter_cons, ofThread_members]
      by_cases hu : u = tid
      · subst hu
        have happend : reportsOf u ((u, m) :: ms) = m.reported.toList ++ reportsOf u ms := by
          cases m <;> simp [reportsOf, Message.reported]
        rw [decide_eq_true rfl, if_pos rfl, List.flatMap_cons, hreports u w, Message.read_report, happend, ofWrapper,
          ofWrapper, ofWrapper, List.filter_append, List.flatMap_append]
      · rw [decide_eq_false hu, if_neg Bool.false_ne_true, hreports tid w]
        cases m with
        | report n => simp [reportsOf, hu]
        | file r => rfl
    · rw [List.filterMap_cons, hm.read_file, hrecords]
      cases m <;> rfl

/-- The messages of threads that do as below are read back. -/
theorem messages_readable {d : Disk W} {es : List (Int × Doing)} {w : W}
    (hes : ∀ tid, ∀ ev ∈ eventsOf tid es, ev.InScope ∧ ev.CleanFile)
    (hpaths : ∀ r ∈ d.recorded w (callsOf es), r.Readable) :
    ∀ m ∈ messages d (fun _ => Thread.init) w es, m.2.Readable := by
  rintro ⟨tid, m⟩ hm
  cases m with
  | report n =>
    have hmade : reportsOf tid (messages d (fun _ => Thread.init) w es) = Thread.init.runReports (eventsOf tid es) :=
      reports_messages tid
    apply (tidy_init.run (fun ev hev => (hes tid ev hev).1) fun ev hev => (hes tid ev hev).2).2
    rw [← hmade]
    exact List.mem_filterMap.mpr ⟨_, hm, if_pos rfl⟩
  | file r =>
    have hmade : recordsOf (messages d (fun _ => Thread.init) w es) = d.recorded w (callsOf es) := records_messages
    have hr : r ∈ d.recorded w (callsOf es) := by
      rw [← hmade]
      exact List.mem_filterMap.mpr ⟨_, hm, rfl⟩
    exact ⟨d.passed_recorded r hr, hpaths r hr⟩

/-- The reports of a run of a thread tell the accesses that it made through a wrapper, up to those that are pending. -/
theorem told_runReports {evs : List Batch.Event} (hevs : ∀ ev ∈ evs, ev.InScope ∧ ev.CleanFile) (w : Wrapper) :
    ((ofWrapper w (Thread.init.runReports evs)).flatMap Notification.told).map Prod.snd ++
        readPending (evs.foldl Thread.step Thread.init w).vars = (evs.filterMap (Event.accessed w)).map some := by
  have hscope : ∀ ev ∈ evs, ev.InScope := fun ev hev => (hevs ev hev).1
  have htidy := (tidy_init.run hscope fun ev hev => (hevs ev hev).2).1 w
  have h : Reported (evs.map (Event.record w)).flatten (evs.foldl (Journal.step w) Journal.init) := reported_init.run hscope
  have htold : (ofWrapper w (Thread.init.runReports evs)).flatMap Notification.told =
      (evs.foldl Thread.step Thread.init w).told := by
    rw [Journal.told, htidy]
    rfl
  rw [htold, Journal.told_snd, foldl_step]
  exact h.read_back

/-- So do the reports of a thread among the messages of a process. -/
theorem told_reports {d : Disk W} {es : List (Int × Doing)} {w : W} (tid : Int)
    (hes : ∀ ev ∈ eventsOf tid es, ev.InScope ∧ ev.CleanFile) (wr : Wrapper) :
    ((ofWrapper wr (reportsOf tid (messages d (fun _ => Thread.init) w es))).flatMap Notification.told).map Prod.snd ++
        readPending ((eventsOf tid es).foldl Thread.step Thread.init wr).vars =
      ((eventsOf tid es).filterMap (Event.accessed wr)).map some := by
  rw [reports_messages]
  exact told_runReports hes wr

/-! ## The log -/

/-- **The log of a process tells its file calls and its accesses.** The accesses are in scope, and all paths need no escape;
`bblog` has room for every message, and a signal ends the process. Then the records that are read from the log are those of
the file calls, whole and in order; if the calls can be followed, replaying them from the files in scope at the start gives
the files in scope at the end; and what is read of a thread and a wrapper are the accesses that the thread made through it,
up to those that are pending. -/
theorem log_tells_process (A : Allocator) (hA : Serves A) (e : Process) (he : e.Fits) (hname : Clean e.name) (n : Nat)
    (d : Disk W) (times : Nat → Timeval) (es : List (Int × Doing)) (w : W)
    (hes : ∀ tid, ∀ ev ∈ eventsOf tid es, ev.InScope ∧ ev.CleanFile)
    (hpaths : ∀ r ∈ d.recorded w (callsOf es), r.Readable) (c : Nat) (mem : Nat → Pibr) (sig : Nat)
    (hfits : ∀ r ∈ numbered c (texts times (messages d (fun _ => Thread.init) w es)),
      FitsEmpty (prefixText e).length (recText r)) :
    ∃ s, processRun A e (n + 2) d times es w c mem sig = .ok s ∧
      readFiles (logged s.trace) = d.recorded w (callsOf es) ∧
      (d.Documented → EachStep d.next d.Followed w (callsOf es) →
        (readFiles (logged s.trace)).foldl FileRecord.replay (d.inScope w) =
          d.inScope ((callsOf es).foldl d.next w)) ∧
      ∀ tid wr, (readThread tid wr (logged s.trace)).map Prod.snd ++
          readPending ((eventsOf tid es).foldl Thread.step Thread.init wr).vars =
        ((eventsOf tid es).filterMap (Event.accessed wr)).map some := by
  have hreadable := messages_readable hes hpaths
  obtain ⟨hprints, hreports, hrecords⟩ := read_texts hreadable times
  have hnul : ∀ b ∈ texts times (messages d (fun _ => Thread.init) w es), NulFree b := fun b hb => by
    obtain ⟨v, hv⟩ := hprints b hb
    exact hv.isJson.nulFree
  obtain ⟨s, groups, hrun, hgrouped, -⟩ := signalRun_grouped hA he n hnul hfits mem sig
  have hlog := hgrouped.logRecords hname hprints
  have hfiles : readFiles (logged s.trace) = d.recorded w (callsOf es) := by
    rw [readFiles, hlog, hrecords, records_messages]
  refine ⟨s, hrun, hfiles, fun hd hfollowed => ?_, fun tid wr => ?_⟩
  · rw [hfiles]
    exact hd.replay_recorded hfollowed
  · rw [readThread, hlog, hreports]
    exact told_reports tid (hes tid) wr

/-- One thread makes a file under a directory descriptor and reads one; another makes a file, renames the directory, and
removes the file that it has made. -/
def someDoings : List (Int × Doing) :=
  [(8, .file (.openat 5 "x".toList (oCREAT ||| oWRONLY) 0o600)), (8, .data (sampleRead 4096)),
    (9, .file (.fopen "/data/z".toList "w+".toList)), (9, .file (.rename "/data/d".toList "/data/e".toList)),
    (8, .data .exit), (9, .file (.unlink "/data/z".toList))]

theorem someDoings_events : ∀ tid, ∀ ev ∈ eventsOf tid someDoings, ev.InScope ∧ ev.CleanFile := by
  intro tid ev hev
  have hcases : ev = sampleRead 4096 ∨ ev = .exit := by
    simp only [someDoings, eventsOf, List.mem_filterMap, List.mem_cons, List.not_mem_nil, or_false] at hev
    obtain ⟨x, rfl | rfl | rfl | rfl | rfl | rfl, hx⟩ := hev <;> simp at hx
    · exact Or.inl hx.2.symm
    · exact Or.inr hx.2.symm
  rcases hcases with rfl | rfl
  · have hfile : Clean fileA.chars := by decide
    exact ⟨⟨by decide, rfl, by decide, ⟨by decide, by decide, by decide, by decide, by decide⟩⟩, hfile⟩
  · exact ⟨trivial, trivial⟩

theorem someDoings_readable : ∀ r ∈ tree.recorded ∅ (callsOf someDoings), r.Readable := by
  unfold FileRecord.Readable
  decide +kernel

theorem someDoings_followed : EachStep tree.next tree.Followed ∅ (callsOf someDoings) :=
  ⟨fun _ _ => Or.inl (by decide +kernel), fun _ => ⟨Or.inl (by decide +kernel), fun _ _ => by decide⟩,
    fun _ => Or.inl ⟨by decide +kernel, by decide +kernel, Or.inl (by decide +kernel)⟩,
    fun _ => Or.inl (by decide +kernel), trivial⟩

/-- Who replays the log has the first file under its new directory, and the log tells the read of the first thread. -/
theorem renamed_directory_told :
    ∃ s, processRun twoPages app 2 tree (fun _ => ⟨1, 0⟩) someDoings ∅ 0 (fun _ => ⟨0, fun _ => nul⟩) 14 = .ok s ∧
      (readFiles (logged s.trace)).foldl FileRecord.replay ∅ = {"/data/e/x".toList} ∧
      (readThread 8 .read (logged s.trace)).map Prod.snd = [some (4096, 0)] := by
  obtain ⟨s, hs, -, hreplay, hthread⟩ := log_tells_process twoPages twoPages_serves app app_fits (by decide) 0 tree
    (fun _ => ⟨1, 0⟩) someDoings ∅ someDoings_events someDoings_readable 0 (fun _ => ⟨0, fun _ => nul⟩) 14
    (by unfold FitsEmpty; decide +kernel)
  refine ⟨s, hs, ?_, ?_⟩
  · have hstart : tree.inScope ∅ = ∅ := by decide
    have hend := hreplay tree_documented someDoings_followed
    rw [hstart] at hend
    rw [hend]
    decide +kernel
  · have htold := hthread 8 .read
    have hpending : readPending ((eventsOf 8 someDoings).foldl Thread.step Thread.init .read).vars = [] := by
      decide +kernel
    rw [hpending, List.append_nil] at htold
    rw [htold]
    decide +kernel

end Cosmost
