import Cosmost.Batch.Text
import Cosmost.Batch.Told
import Cosmost.Bblog.Entry

/-!
# From the accesses of a thread to the log, and back

The accesses of a thread go through the batching of the data wrappers, the record that `notify_read_write` prints, and the
shared buffer of `bblog`, until `flush_buffer` hands an entry to the log. `readLog` goes the other way: it reads an entry as
a JSON text, takes the records of its batch, and in each the path and the access list.

`log_tells_accesses`: what is read from the log of a run are the accesses of the run, each once and in order, up to those
that are still pending; and each of them is told under the path of its file if the lookups keep the paths of pending
batches. The steps are those of the pipeline: `reports_run` for the wrappers, `Notification.prints_text` for the record,
`signalRun_grouped` for the buffer and `prints_batchEntry` for the entry.
-/

namespace Cosmost.Batch

open Cosmost.Lib Cosmost.Fs Cosmost.Bblog

/-! ## The reports of a thread -/

/-- The operations under which a wrapper reports. -/
def Wrapper.ops : Wrapper → List String
  | .read => ["read", "read (close)", "read (exit)"]
  | .write => ["write", "write (close)", "write (exit)"]
  | .fread => ["fread", "fread (close)", "fread (exit)"]
  | .fwrite => ["fwrite", "fwrite (close)", "fwrite (exit)"]
  | .pread64 => ["pread64", "pread", "pread64 (close)", "pread64 (exit)"]
  | .pwrite64 => ["pwrite64", "pwrite", "pwrite64 (close)", "pwrite64 (exit)"]

/-- The six wrappers, in the order of `close_common`; `mmap_close`, which it calls last, has nothing pending. -/
def closeOrder : List Wrapper := [.read, .pread64, .fread, .write, .fwrite, .pwrite64]

/-- The wrapper that reports under an operation. -/
def wrapperOf (op : List Char) : Option Wrapper := closeOrder.find? fun w => op ∈ w.ops.map String.toList

/-- What an event of the thread reports, in order. -/
def Thread.reports (t : Thread) : Event → List Notification
  | .access e c => Batch.reports (e.run true c (t e.wrapper).vars).2
  | .close fd => if fd = -1 then [] else closeOrder.flatMap fun w => Batch.reports (w.close fd (t w).vars).2
  | .exit => closeOrder.flatMap fun w => Batch.reports (w.close (-1) (t w).vars).2

/-- What a run of the thread reports. -/
def Thread.runReports : Thread → List Event → List Notification
  | _, [] => []
  | t, e :: es => t.reports e ++ (t.step e).runReports es

/-- The report is one of the wrapper, and prints no character that needs an escape. -/
structure Notification.Neat (w : Wrapper) (n : Notification) : Prop where
  op : n.op ∈ w.ops
  path : Clean n.path
  str : Clean n.str

/-- A function of the wrapper that makes neat reports, and leaves variables that do. -/
structure Neat (w : Wrapper) (p : Vars × List Effect) : Prop where
  path : Clean p.1.path
  access : Clean p.1.access
  reports : ∀ n ∈ reports p.2, n.Neat w

/-- The file of an access has a name that needs no escape. -/
def Event.CleanFile : Event → Prop
  | .access _ c => Clean c.file.chars
  | .close _ | .exit => True

theorem clean_ioRecord (size : Nat) (off : Int) : Clean (ioRecord size off) := by
  intro c hc
  simp only [ioRecord, List.mem_append, List.mem_cons, List.not_mem_nil, or_false] at hc
  rcases hc with hc | rfl | hc | rfl
  · exact clean_decimal _ c hc
  · decide
  · exact clean_decimal _ c hc
  · decide

section Neat

variable {w : Wrapper} {op : String} (hop : op ∈ w.ops) {b : Vars} (hpath : Clean b.path) (haccess : Clean b.access)
include hop hpath haccess

theorem neat_notify (fd cs ce : Int) (size : Nat) (off : Int) :
    Neat w (batchReadWriteNotify op fd cs ce size off b) := by
  refine ⟨hpath, (clean_ioRecord size off).fits _, fun n hn => ?_⟩
  simp only [batchReadWriteNotify, notifyReadWrite] at hn
  by_cases h : b.lastFd ≠ -1 ∧ b.lastSize ≠ 0
  · rw [if_pos h] at hn
    obtain rfl := List.mem_singleton.mp hn
    exact ⟨hop, hpath, haccess⟩
  · rw [if_neg h] at hn
    exact absurd hn List.not_mem_nil

theorem neat_record (fd cs ce : Int) (size : Nat) (off : Int) : Neat w (recordIostr op fd cs ce size off b) := by
  simp only [recordIostr]
  split_ifs
  · exact neat_notify hop hpath haccess fd cs ce size off
  · exact ⟨hpath, haccess.append ((clean_ioRecord size off).fits _), fun n hn => absurd hn List.not_mem_nil⟩

theorem neat_first (fd : Int) (size : Nat) (off : Int) : Neat w (batchReadWriteFirst op fd size off b).2 := by
  have hrec := neat_record hop hpath haccess fd (currStart off) (currEnd size off) size off
  simp only [batchReadWriteFirst]
  split_ifs
  · exact ⟨hpath, haccess, fun n hn => absurd hn List.not_mem_nil⟩
  · exact neat_notify hop hpath haccess fd _ _ size off
  all_goals exact ⟨hrec.path, hrec.access, hrec.reports⟩

theorem neat_second (fd : Int) (size : Nat) (off : Int) : Neat w (batchReadWriteSecond op fd size off b) := by
  unfold batchReadWriteSecond
  split_ifs
  · exact ⟨hpath, haccess, fun n hn => absurd hn List.not_mem_nil⟩
  · exact neat_notify hop hpath haccess fd _ _ size off

end Neat

theorem Entry.op_mem (e : Entry) : e.op ∈ e.wrapper.ops := by
  cases e <;> simp [Entry.op, Entry.wrapper, Wrapper.ops]

/-- An access in scope. -/
theorem InScope.neat {e : Entry} {c : Call} (h : InScope e c) (hfile : Clean c.file.chars) {b : Vars} (hb : Good b)
    (hpath : Clean b.path) (haccess : Clean b.access) : Neat e.wrapper (e.run true c b) := by
  rw [h.run_eq hb]
  split_ifs
  · exact neat_first e.op_mem hpath haccess c.fd (e.size c) (e.off c)
  · exact neat_second e.op_mem (b := { b with path := c.file.chars }) hfile haccess c.fd (e.size c) (e.off c)

theorem neat_closeWith {w : Wrapper} {name : String} (hops : name ++ " (exit)" ∈ w.ops ∧ name ++ " (close)" ∈ w.ops)
    (fd : Int) {b : Vars} (hpath : Clean b.path) (haccess : Clean b.access) : Neat w (closeWith name fd b) := by
  simp only [closeWith, notifyReadWrite]
  split_ifs
  · exact ⟨hpath, haccess.dropLast, List.forall_mem_singleton.mpr ⟨hops.1, hpath, haccess⟩⟩
  · exact ⟨hpath, haccess.dropLast, List.forall_mem_singleton.mpr ⟨hops.2, hpath, haccess⟩⟩
  · exact ⟨hpath, haccess, fun n hn => absurd hn List.not_mem_nil⟩

theorem Wrapper.neat_close (w : Wrapper) (fd : Int) {b : Vars} (hpath : Clean b.path) (haccess : Clean b.access) :
    Neat w (w.close fd b) := by
  cases w <;> exact neat_closeWith (by decide) fd hpath haccess

/-- An operation tells the wrapper. -/
theorem wrapperOf_eq {w : Wrapper} {op : String} (h : op ∈ w.ops) : wrapperOf op.toList = some w := by
  have hall : ∀ w' ∈ closeOrder, ∀ op ∈ w'.ops, wrapperOf op.toList = some w' := by decide
  exact hall w (by cases w <;> decide) op h

/-- The reports of one wrapper. -/
def ofWrapper (w : Wrapper) (ns : List Notification) : List Notification :=
  ns.filter fun n => wrapperOf n.op.toList = some w

theorem ofWrapper_neat {w : Wrapper} {p : Vars × List Effect} (h : Neat w p) (w' : Wrapper) :
    ofWrapper w' (Batch.reports p.2) = if w = w' then Batch.reports p.2 else [] := by
  split_ifs with hw
  · refine List.filter_eq_self.mpr fun n hn => ?_
    rw [wrapperOf_eq (h.reports n hn).op, hw]
    simp
  · refine List.filter_eq_nil_iff.mpr fun n hn => ?_
    rw [wrapperOf_eq (h.reports n hn).op]
    simpa using hw

/-- A function that is called for every wrapper makes the reports of each. -/
theorem ofWrapper_flatMap (f : Wrapper → List Notification) (hf : ∀ w w', ofWrapper w' (f w) = if w = w' then f w else [])
    (w : Wrapper) : ofWrapper w (closeOrder.flatMap f) = f w := by
  rw [ofWrapper, List.filter_flatMap]
  have heach : ∀ w', (f w').filter (fun n => wrapperOf n.op.toList = some w) = if w' = w then f w' else [] := fun w' => hf w' w
  simp only [heach]
  cases w <;> simp [closeOrder]

/-! ## Runs -/

/-- What a run of a thread keeps. -/
structure Thread.Tidy (t : Thread) : Prop where
  good : ∀ w, Good (t w).vars
  path : ∀ w, Clean (t w).vars.path
  access : ∀ w, Clean (t w).vars.access

theorem tidy_init : Thread.init.Tidy := by
  have hnil : Clean [] := fun c hc => absurd hc List.not_mem_nil
  exact ⟨fun _ => good_init, fun _ => hnil, fun _ => hnil⟩

/-- What the function of a wrapper does for an event. -/
def Thread.does (t : Thread) (ev : Event) (w : Wrapper) : Vars × List Effect :=
  match ev with
  | .access e c => if e.wrapper = w then e.run true c (t w).vars else ((t w).vars, [])
  | .close fd => if fd = -1 then ((t w).vars, []) else w.close fd (t w).vars
  | .exit => w.close (-1) (t w).vars

theorem Thread.step_eq (t : Thread) (ev : Event) (w : Wrapper) : ∃ x, t.step ev w = (t w).keep x (t.does ev w) := by
  cases ev with
  | access e c =>
    refine ⟨some c, ?_⟩
    by_cases hw : e.wrapper = w
    · simp [Thread.step, Journal.step, Thread.does, hw]
    · simp [Thread.step, Journal.step, Thread.does, hw, Journal.keep]
  | close fd =>
    refine ⟨none, ?_⟩
    by_cases hfd : fd = -1
    · simp [Thread.step, Journal.step, Thread.does, hfd, Journal.keep]
    · simp [Thread.step, Journal.step, Thread.does, hfd]
  | exit => exact ⟨none, rfl⟩

theorem Journal.reports_keep (j : Journal) (x : Option Call) (p : Vars × List Effect) :
    Batch.reports ((j.keep x p).trace.map Prod.snd) = Batch.reports (j.trace.map Prod.snd) ++ Batch.reports p.2 := by
  simp only [Journal.keep, List.map_append, reports_append, List.map_map]
  exact congrArg (_ ++ Batch.reports ·) (List.map_id _)

section Step

variable {t : Thread} (h : t.Tidy) {ev : Event} (hev : ev.InScope) (hfile : ev.CleanFile)
include h

theorem Thread.Tidy.idle (w : Wrapper) : Neat w ((t w).vars, []) :=
  ⟨h.path w, h.access w, fun _ hn => absurd hn List.not_mem_nil⟩

include hev

theorem Thread.Tidy.does_good (w : Wrapper) : Good (t.does ev w).1 := by
  cases ev with
  | access e c =>
    simp only [Thread.does]
    split_ifs
    · exact (run_adds hev (h.good w)).good
    · exact h.good w
  | close fd =>
    simp only [Thread.does]
    split_ifs
    · exact h.good w
    · exact (wrapper_close_adds w fd (h.good w)).good
  | exit => exact (wrapper_close_adds w (-1) (h.good w)).good

include hfile

theorem Thread.Tidy.does_neat (w : Wrapper) : Neat w (t.does ev w) := by
  cases ev with
  | access e c =>
    simp only [Thread.does]
    split_ifs with hw
    · have hneat : Neat e.wrapper (e.run true c (t w).vars) :=
        InScope.neat hev hfile (h.good w) (h.path w) (h.access w)
      exact hw ▸ hneat
    · exact h.idle w
  | close fd =>
    simp only [Thread.does]
    split_ifs
    · exact h.idle w
    · exact w.neat_close fd (h.path w) (h.access w)
  | exit => exact w.neat_close (-1) (h.path w) (h.access w)

/-- Of what the event reports, the reports of a wrapper are those that its function makes. -/
theorem Thread.Tidy.ofWrapper_reports (w : Wrapper) : ofWrapper w (t.reports ev) = Batch.reports (t.does ev w).2 := by
  have hclose : ∀ fd w₁ w₂, ofWrapper w₂ (Batch.reports (w₁.close fd (t w₁).vars).2) =
      if w₁ = w₂ then Batch.reports (w₁.close fd (t w₁).vars).2 else [] := fun fd w₁ w₂ =>
    ofWrapper_neat (w₁.neat_close fd (h.path w₁) (h.access w₁)) w₂
  cases ev with
  | access e c =>
    have hneat := h.does_neat hev hfile e.wrapper
    simp only [Thread.does, ↓reduceIte] at hneat
    simp only [Thread.reports, Thread.does]
    rw [ofWrapper_neat hneat]
    split_ifs with hw
    · rw [hw]
    · rfl
  | close fd =>
    simp only [Thread.reports, Thread.does]
    split_ifs
    · rfl
    · exact ofWrapper_flatMap _ (hclose fd) w
  | exit => exact ofWrapper_flatMap _ (hclose (-1)) w

theorem Thread.Tidy.step : (t.step ev).Tidy := by
  have hvars : ∀ w, (t.step ev w).vars = (t.does ev w).1 := fun w => by
    obtain ⟨x, hx⟩ := t.step_eq ev w
    rw [hx]
    rfl
  refine ⟨fun w => ?_, fun w => ?_, fun w => ?_⟩
  · rw [hvars]
    exact h.does_good hev w
  · rw [hvars]
    exact (h.does_neat hev hfile w).path
  · rw [hvars]
    exact (h.does_neat hev hfile w).access

/-- Every report is a neat one of its wrapper. -/
theorem Thread.Tidy.reports_neat : ∀ n ∈ t.reports ev, ∃ w, n.Neat w := by
  intro n hn
  cases ev with
  | access e c =>
    have hneat := h.does_neat hev hfile e.wrapper
    simp only [Thread.does, ↓reduceIte] at hneat
    exact ⟨e.wrapper, hneat.reports n hn⟩
  | close fd =>
    simp only [Thread.reports] at hn
    split_ifs at hn
    · exact absurd hn List.not_mem_nil
    · obtain ⟨w, -, hw⟩ := List.mem_flatMap.mp hn
      exact ⟨w, (w.neat_close fd (h.path w) (h.access w)).reports n hw⟩
  | exit =>
    obtain ⟨w, -, hw⟩ := List.mem_flatMap.mp hn
    exact ⟨w, (w.neat_close (-1) (h.path w) (h.access w)).reports n hw⟩

end Step

/-- **The reports of a run**: those of each wrapper are the reports in its trace, and all of them are neat. -/
theorem Thread.Tidy.run {es : List Event} (hes : ∀ ev ∈ es, ev.InScope) (hfiles : ∀ ev ∈ es, ev.CleanFile) :
    ∀ {t : Thread}, t.Tidy →
      (∀ w, Batch.reports ((es.foldl Thread.step t w).trace.map Prod.snd) =
        Batch.reports ((t w).trace.map Prod.snd) ++ ofWrapper w (t.runReports es)) ∧
      ∀ n ∈ t.runReports es, ∃ w, n.Neat w := by
  induction es with
  | nil => intro t _; exact ⟨fun w => by simp [Thread.runReports, ofWrapper], fun n hn => absurd hn List.not_mem_nil⟩
  | cons ev es ih =>
    intro t h
    obtain ⟨hev, hrest⟩ := List.forall_mem_cons.mp hes
    obtain ⟨hfile, hfiles'⟩ := List.forall_mem_cons.mp hfiles
    obtain ⟨htrace, hneat⟩ := ih hrest hfiles' (h.step hev hfile)
    refine ⟨fun w => ?_, fun n hn => ?_⟩
    · obtain ⟨x, hx⟩ := t.step_eq ev w
      rw [List.foldl_cons, htrace w, hx, Journal.reports_keep, List.append_assoc, ← h.ofWrapper_reports hev hfile w,
        Thread.runReports, ofWrapper, ofWrapper, ofWrapper, List.filter_append]
    · rcases List.mem_append.mp hn with hn | hn
      · exact h.reports_neat hev hfile n hn
      · exact hneat n hn

/-! ## The log -/

/-- The records of reports; `times i` is the time that `gettimeofday` gives to the report `i`. -/
def bodies (tid : Int) (times : Nat → Timeval) (ns : List Notification) : List (List Char) :=
  ns.mapIdx fun i n => n.text tid (times i)

/-- A process with one thread: the thread's events, each report logged by `bblog` as it is made, and then the exit of a
signal handler. -/
def traceRun (A : Allocator) (e : Process) (n : Nat) (tid : Int) (times : Nat → Timeval) (es : List Event) (c : Nat)
    (mem : Nat → Pibr) (sig : Nat) : Except Stuck State :=
  signalRun A e n (bodies tid times (Thread.init.runReports es)) c mem sig

/-! ## Reading the log -/

/-- The accesses that a record tells, if it is one of the wrapper. -/
def readRecord (w : Wrapper) : Json → List (List Char × Option (Nat × Nat))
  | .obj ms =>
    match valuesAt ms "OP".toList, valuesAt ms "PATH".toList, valuesAt ms "RW".toList with
    | [.str op], [.str path], [.str rw] => if wrapperOf op = some w then (readAccesses rw).map (path, ·) else []
    | _, _, _ => []
  | _ => []

/-- The accesses of a wrapper that the log tells. -/
noncomputable def readLog (w : Wrapper) (log : List (List Char)) : List (List Char × Option (Nat × Nat)) :=
  (logRecords log).flatMap (readRecord w)

/-- What a report's record tells is what the report tells. -/
theorem readRecord_members (w : Wrapper) (tid : Int) (t : Timeval) (n : Notification) :
    readRecord w (.obj (n.members tid t)) = if wrapperOf n.op.toList = some w then n.told else [] := by
  have hop : valuesAt (n.members tid t) "OP".toList = [.str n.op.toList] := by simp [Notification.members, valuesAt]
  have hpath : valuesAt (n.members tid t) "PATH".toList = [.str n.path] := by simp [Notification.members, valuesAt]
  have hrw : valuesAt (n.members tid t) "RW".toList = [.str n.str.dropLast] := by simp [Notification.members, valuesAt]
  simp only [readRecord, hop, hpath, hrw, Notification.told]

theorem Notification.Neat.clean_op {n : Notification} {w : Wrapper} (h : n.Neat w) : Clean n.op.toList := by
  have hall : ∀ w ∈ closeOrder, ∀ op ∈ w.ops, Clean op.toList := by decide
  exact hall w (by cases w <;> decide) n.op h.op

/-- The record of a neat report. -/
theorem Notification.Neat.prints {n : Notification} {w : Wrapper} (h : n.Neat w) (tid : Int) (t : Timeval) :
    Prints (n.text tid t) (.obj (n.members tid t)) := n.prints_text tid t h.clean_op h.path h.str.dropLast

theorem bodies_cons (tid : Int) (times : Nat → Timeval) (n : Notification) (ns : List Notification) :
    bodies tid times (n :: ns) = n.text tid (times 0) :: bodies tid (fun i => times (i + 1)) ns := by
  simp [bodies, List.mapIdx_cons]

/-- What the records of neat reports tell. -/
theorem readRecord_bodies (w : Wrapper) (tid : Int) {ns : List Notification} (hneat : ∀ n ∈ ns, ∃ w, n.Neat w) :
    ∀ times, (∀ b ∈ bodies tid times ns, ∃ v, Prints b v) ∧
      (bodies tid times ns).flatMap (fun b => readRecord w (recordValue b)) = (ofWrapper w ns).flatMap Notification.told := by
  induction ns with
  | nil => intro times; exact ⟨fun b hb => absurd hb List.not_mem_nil, rfl⟩
  | cons n ns ih =>
    intro times
    obtain ⟨⟨w', hn⟩, hrest⟩ := List.forall_mem_cons.mp hneat
    obtain ⟨hprints, hread⟩ := ih hrest fun i => times (i + 1)
    have hvalue : recordValue (n.text tid (times 0)) = .obj (n.members tid (times 0)) := recordValue_eq (hn.prints tid _)
    rw [bodies_cons]
    refine ⟨List.forall_mem_cons.mpr ⟨⟨_, hn.prints tid _⟩, hprints⟩, ?_⟩
    rw [List.flatMap_cons, hread, hvalue, readRecord_members, ofWrapper, ofWrapper]
    by_cases hw : wrapperOf n.op.toList = some w
    · rw [if_pos hw, List.filter_cons_of_pos (by simpa using hw), List.flatMap_cons]
    · rw [if_neg hw, List.filter_cons_of_neg (by simpa using hw), List.nil_append]

/-- **The log tells the accesses.** A thread makes accesses in scope, on files with names that need no escape, and closes
descriptors; each report goes through `bblog`, which has room for every record, and a signal ends the process. Then what is
read from the log and then from the variables of a wrapper are the accesses made through it, each once and in order; and
each access is told under the path of its file, if a descriptor names one file while it is open and every lookup keeps the
path of a pending batch. -/
theorem log_tells_accesses (A : Allocator) (hA : Serves A) (e : Process) (he : e.Fits) (hname : Clean e.name) (n : Nat)
    (tid : Int) (times : Nat → Timeval) (es : List Event) (hes : ∀ ev ∈ es, ev.InScope)
    (hfiles : ∀ ev ∈ es, ev.CleanFile) (c : Nat) (mem : Nat → Pibr) (sig : Nat)
    (hfits : ∀ r ∈ numbered c (bodies tid times (Thread.init.runReports es)),
      FitsEmpty (prefixText e).length (recText r)) :
    ∃ s, traceRun A e (n + 2) tid times es c mem sig = .ok s ∧ ∀ w,
      (readLog w (logged s.trace)).map Prod.snd ++ readPending (es.foldl Thread.step Thread.init w).vars =
        (es.filterMap (Event.accessed w)).map some ∧
      (NamesFixed (fun _ => none) es → EachStep (Journal.step w) (KeepsPath w) Journal.init es →
        readLog w (logged s.trace) ++ (es.foldl Thread.step Thread.init w).toTell = es.filterMap (Event.toTell w)) := by
  obtain ⟨htrace, hneat⟩ := tidy_init.run hes hfiles
  obtain ⟨hbodies, -⟩ := readRecord_bodies .read tid hneat times
  have hnul : ∀ b ∈ bodies tid times (Thread.init.runReports es), NulFree b := fun b hb => by
    obtain ⟨v, hv⟩ := hbodies b hb
    exact hv.isJson.nulFree
  obtain ⟨s, groups, hrun, hgrouped, -⟩ := signalRun_grouped hA he n hnul hfits mem sig
  refine ⟨s, hrun, fun w => ?_⟩
  have htold : readLog w (logged s.trace) = (es.foldl Thread.step Thread.init w).told := by
    rw [readLog, hgrouped.logRecords hname hbodies, List.flatMap_map,
      (readRecord_bodies w tid hneat times).2, Journal.told, htrace w]
    rfl
  constructor
  · have h : Reported (es.map (Event.record w)).flatten (es.foldl (Journal.step w) Journal.init) := reported_init.run hes
    rw [htold, Journal.told_snd, foldl_step]
    exact h.read_back
  · intro hfix hkeep
    have h := (tells_init fun _ => none).run hes hfix hkeep
    rw [htold, foldl_step]
    exact h

/-- Two reads of one file, the close of its descriptor, and the exit of the thread. -/
def twoReads : List Event := [sampleRead 4096, sampleRead 8192, .close 3, .exit]

/-- Its log tells both. -/
theorem two_reads_told : ∃ s, traceRun twoPages app 2 8 (fun _ => ⟨1, 0⟩) twoReads 0 (fun _ => ⟨0, fun _ => nul⟩) 14 = .ok s ∧
    readLog .read (logged s.trace) =
      [("/data/a".toList, some (4096, 0)), ("/data/a".toList, some (4096, 4096))] := by
  have hfile : Clean fileA.chars := by decide
  have hevents : ∀ ev ∈ twoReads, ev.InScope ∧ ev.CleanFile := by
    intro ev hev
    simp only [twoReads, List.mem_cons, List.not_mem_nil, or_false] at hev
    rcases hev with rfl | rfl | rfl | rfl
    · exact ⟨⟨by decide, rfl, by decide, ⟨by decide, by decide, by decide, by decide, by decide⟩⟩, hfile⟩
    · exact ⟨⟨by decide, rfl, by decide, ⟨by decide, by decide, by decide, by decide, by decide⟩⟩, hfile⟩
    · exact ⟨trivial, trivial⟩
    · exact ⟨trivial, trivial⟩
  obtain ⟨s, hs, htells⟩ := log_tells_accesses twoPages twoPages_serves app app_fits (by decide) 0 8 (fun _ => ⟨1, 0⟩) twoReads
    (fun ev hev => (hevents ev hev).1) (fun ev hev => (hevents ev hev).2) 0 (fun _ => ⟨0, fun _ => nul⟩) 14
    (by unfold FitsEmpty; decide +kernel)
  refine ⟨s, hs, ?_⟩
  have hpending : (twoReads.foldl Thread.step Thread.init .read).toTell = [] := by decide +kernel
  have hfix : NamesFixed (fun _ => none) twoReads :=
    ⟨fun _ hp => absurd hp (by simp), fun p hp => by simpa [eq_comm] using hp, trivial⟩
  have hkeep : EachStep (Journal.step .read) (KeepsPath .read) Journal.init twoReads :=
    ⟨fun _ _ hl => absurd rfl hl, fun _ _ _ hne => absurd rfl hne, trivial, trivial, trivial⟩
  have htold := (htells .read).2 hfix hkeep
  rw [hpending, List.append_nil] at htold
  rw [htold]
  rfl

end Cosmost.Batch
