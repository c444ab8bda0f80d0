import Cosmost.Batch.Tagged

/-!
# A batch that is pending at a fork

A child gets the thread that forked with its variables, and so the batches that were pending. Unlike the log buffers and
the name of the process, they carry no pid, so the child goes on with them and reports accesses of its parent
(`child_reports_parents_read`).

`own_reports`: in every family of processes in which no thread forks with a batch pending, each batch is reported by the
process that made the accesses in it.
-/

namespace Cosmost.Batch

open Cosmost.Lib Cosmost.Fs

/-- Processes by their pids, with threads `τ`; effects are under the pid of the process. -/
abbrev Family (τ : Type*) := Nat → Option (τ → Wrapper → Tagged Nat)

/-- One process, at its start. -/
def Family.init {τ : Type*} (pid : Nat) : Family τ := Function.update (fun _ => none) pid (some fun _ _ => .init)

/-- There is one process, at its start. -/
def Family.Started {τ : Type*} (f : Family τ) : Prop := ∃ pid, f = .init pid

/-- What a thread of a process does, whole. -/
inductive FamilyEvent (τ : Type*)
  | thread (pid : Nat) (t : τ) (ev : Event)
  /-- The thread forks a process with a new pid. -/
  | fork (pid : Nat) (t : τ) (child : Nat)

/-- One event of a thread, as in `Journal.step`. -/
def Tagged.step (pid : Nat) (w : Wrapper) (j : Tagged Nat) : Event → Tagged Nat
  | .access e c => if e.wrapper = w then j.keep pid (e.run true c j.vars) else j
  | .close fd => if fd = -1 then j else j.keep pid (w.close fd j.vars)
  | .exit => j.keep pid (w.close (-1) j.vars)

section Steps

variable {τ : Type*} [DecidableEq τ]

/-- An event, if there is the process, and no other with the pid of the child. The child has the thread that forked, and
those that it will create. -/
def Family.step (f : Family τ) : FamilyEvent τ → Option (Family τ)
  | .thread pid t ev => (f pid).map fun threads =>
      Function.update f pid (some (Function.update threads t fun w => (threads t w).step pid w ev))
  | .fork pid t child => (f pid).bind fun threads =>
      if (f child).isSome then none
      else some (Function.update f child (some (Function.update (fun _ _ => .init) t (threads t))))

/-- No thread forks with a batch pending. -/
def Family.NonePending (f : Family τ) : FamilyEvent τ → Prop
  | .thread _ _ _ => True
  | .fork pid t _ => ∀ threads ∈ f pid, ∀ w, (threads t w).vars.lastFd = -1

end Steps

/-- A report is of the accesses of the process that makes it. -/
def ReportsOwn (l : List Nat) : Nat × Effect → Prop
  | (pid, .notify _) => AllOf pid l
  | (_, .snprintf _ _ _) => True

instance (l : List Nat) : ∀ x, Decidable (ReportsOwn l x)
  | (_, .notify _) => inferInstanceAs (Decidable (∀ x ∈ _, _))
  | (_, .snprintf _ _ _) => isTrue trivial

/-- Every report is. -/
def OwnReports (j : Tagged Nat) : Prop := EachStep listStep ReportsOwn [] j.trace

instance (j : Tagged Nat) : Decidable (OwnReports j) := inferInstanceAs (Decidable (EachStep _ _ _ _))

/-! ## One set of variables -/

/-- The pending batch is of the process. -/
structure Tagged.OfProcess (pid : Nat) (j : Tagged Nat) : Prop where
  pending : j.vars.lastFd ≠ -1 → AllOf pid (listed j.trace)
  ownReports : OwnReports j

section Journal

variable {pid : Nat} {j : Tagged Nat}

theorem admits_reportsOwn : Admits ReportsOwn pid :=
  ⟨fun _ _ _ => trivial, fun _ _ _ _ _ => trivial, fun _ hl _ => hl⟩

theorem ofProcess_init : Tagged.OfProcess pid .init := ⟨fun h => absurd rfl h, trivial⟩

/-- A call that does nothing leaves the batch. -/
theorem Tagged.OfProcess.still (h : j.OfProcess pid) {p : Vars × List Effect} (hlast : p.1.lastFd = j.vars.lastFd)
    (hnone : p.2 = []) : (j.keep pid p).OfProcess pid := by
  have htrace := j.keep_trace pid hnone
  refine ⟨fun hne => ?_, by rw [OwnReports, htrace]; exact h.ownReports⟩
  rw [htrace]
  exact h.pending fun heq => hne (hlast.trans heq)

/-- **What a thread does leaves the batch its process's.** -/
theorem Tagged.OfProcess.step (h : j.OfProcess pid) (w : Wrapper) (ev : Event) : (j.step pid w ev).OfProcess pid := by
  have hclose : ∀ fd, (j.keep pid (w.close fd j.vars)).OfProcess pid := by
    intro fd
    obtain ⟨heach, hlast | ⟨hlast, hnone, -⟩⟩ :=
      close_leaves (P := ReportsOwn) (a := pid) w fd (fun hne _ => h.pending hne)
    · exact ⟨fun hne => absurd hlast hne, eachStep_append.mpr ⟨h.ownReports, heach⟩⟩
    · exact h.still hlast hnone
  cases ev with
  | access e c =>
    simp only [Tagged.step]
    split_ifs
    · rw [Entry.run_eq]
      split_ifs
      · have hown : j.vars.lastFd = c.fd → c.fd ≠ -1 → AllOf pid (listed j.trace) := fun heq hfd => h.pending (heq ▸ hfd)
        rcases traced_leaves admits_reportsOwn e.op (e.size c) (e.off c) c hown (fun hne _ => h.pending hne) with
          hl | ⟨hlast, hnone⟩
        · refine ⟨fun _ => ?_, eachStep_append.mpr ⟨h.ownReports, hl.each⟩⟩
          rw [Tagged.keep, listed, List.foldl_append]
          exact hl.all
        · exact h.still hlast hnone
      · exact h.still rfl rfl
    · exact h
  | close fd =>
    simp only [Tagged.step]
    split_ifs
    · exact h
    · exact hclose fd
  | exit => exact hclose (-1)

/-- A child that inherits no pending batch. -/
theorem Tagged.OfProcess.fork (h : j.OfProcess pid) (hnone : j.vars.lastFd = -1) (child : Nat) : j.OfProcess child :=
  ⟨fun hne => absurd hnone hne, h.ownReports⟩

end Journal

/-! ## Runs -/

section Runs

variable {τ : Type*} {f f' : Family τ}

/-- What holds of every process. -/
def Family.OfProcess (f : Family τ) : Prop := ∀ pid, ∀ threads ∈ f pid, ∀ t w, (threads t w).OfProcess pid

theorem Family.OfProcess.init (pid : Nat) : (Family.init pid : Family τ).OfProcess := by
  intro pid' threads hf t w
  rw [Family.init, Function.update_apply] at hf
  split_ifs at hf
  · cases hf
    exact ofProcess_init
  · cases hf

/-- One process changes, or is new. -/
theorem Family.OfProcess.update (h : f.OfProcess) {pid : Nat} {threads : τ → Wrapper → Tagged Nat}
    (ht : ∀ t w, (threads t w).OfProcess pid) : Family.OfProcess (Function.update f pid (some threads)) := by
  intro pid' threads' hf
  by_cases heq : pid' = pid
  · subst heq
    rw [Function.update_self] at hf
    cases hf
    exact ht
  · rw [Function.update_of_ne heq] at hf
    exact h pid' threads' hf

variable [DecidableEq τ]

/-- **Each step keeps the batches apart.** -/
theorem Family.OfProcess.step (h : f.OfProcess) {ev : FamilyEvent τ} (hnone : f.NonePending ev)
    (hstep : f.step ev = some f') : f'.OfProcess := by
  cases ev with
  | thread pid t ev =>
    obtain ⟨threads, hf, rfl⟩ := Option.map_eq_some_iff.mp hstep
    have ht := h pid threads hf
    apply h.update
    intro t' w
    by_cases heq : t' = t
    · rw [heq, Function.update_self]
      exact (ht t w).step w ev
    · rw [Function.update_of_ne heq]
      exact ht t' w
  | fork pid t child =>
    obtain ⟨threads, hf, hchild⟩ := Option.bind_eq_some_iff.mp hstep
    split_ifs at hchild
    cases hchild
    apply h.update
    intro t' w
    by_cases heq : t' = t
    · rw [heq, Function.update_self]
      exact (h pid threads hf t w).fork (hnone threads hf w) child
    · rw [Function.update_of_ne heq]
      exact ofProcess_init

/-- **A pending access is reported by one process only, that made it.** In every family of processes, with any number of
threads each, forks, accesses, closes and exits in any order, as long as no thread forks with a batch pending: each
report of a process lists accesses of that process. -/
theorem own_reports (f : Family τ) (hf : Reach Family.step Family.NonePending Family.Started f)
    (pid : Nat) (threads : τ → Wrapper → Tagged Nat) (hp : f pid = some threads) (t : τ) (w : Wrapper) :
    OwnReports (threads t w) := by
  have h : f.OfProcess := Reach.inv (by rintro _ ⟨pid, rfl⟩; exact .init pid)
    (fun _ _ _ h hnone hstep => h.step hnone hstep) hf
  exact (h pid threads hp t w).ownReports

end Runs

/-! ## A process that closes its file before it forks, and one that does not -/

/-- A read of 100 bytes at the start of a file in scope. -/
def parentsRead : Event :=
  .access .read ⟨3, 100, 100, 0, false, fileA, true, .mode 0x81a4, .mode 0x81a4⟩

instance (f : Family Unit) : ∀ ev, Decidable (f.NonePending ev)
  | .thread _ _ _ => isTrue trivial
  | .fork _ _ _ => inferInstanceAs (Decidable (∀ _ ∈ _, ∀ _, _))

/-- Parent and child read, and exit. -/
theorem closed_before_fork : ∃ (f : Family Unit) (threads : Unit → Wrapper → Tagged Nat),
    Reach Family.step Family.NonePending Family.Started f ∧ f 8 = some threads ∧
      (threads () .read).trace.length = 4 ∧ OwnReports (threads () .read) := by
  have hrun : (runAll Family.step Family.NonePending (Family.init 7 : Family Unit)
      [.thread 7 () parentsRead, .thread 7 () (.close 3), .fork 7 () 8, .thread 8 () parentsRead, .thread 8 () .exit]).any
      (fun f => (f 8).any fun threads => (threads () .read).trace.length = 4) = true := by decide +kernel
  obtain ⟨f, hf, hp⟩ := Reach.of_runAll (show Family.Started (Family.init 7) from ⟨7, rfl⟩) _ _ hrun
  obtain ⟨threads, hthreads, hlen⟩ := (Option.any_eq_true _ _).mp hp
  exact ⟨f, threads, hf, hthreads, of_decide_eq_true hlen, own_reports f hf 8 threads hthreads () .read⟩

/-- **A child reports its parent's read**: it exits with the batch that was pending at the fork. -/
theorem child_reports_parents_read : ∃ (f : Family Unit) (threads : Unit → Wrapper → Tagged Nat),
    Reach Family.step (fun _ _ => True) Family.Started f ∧ f 8 = some threads ∧
      ¬ OwnReports (threads () .read) := by
  have hrun : (runAll Family.step (fun _ _ => True) (Family.init 7 : Family Unit)
      [.thread 7 () parentsRead, .fork 7 () 8, .thread 8 () .exit]).any
      (fun f => (f 8).any fun threads => ¬ OwnReports (threads () .read)) = true := by decide +kernel
  obtain ⟨f, hf, hp⟩ := Reach.of_runAll (show Family.Started (Family.init 7) from ⟨7, rfl⟩) _ _ hrun
  obtain ⟨threads, hthreads, hnot⟩ := (Option.any_eq_true _ _).mp hp
  exact ⟨f, threads, hf, hthreads, of_decide_eq_true hnot⟩

end Cosmost.Batch
