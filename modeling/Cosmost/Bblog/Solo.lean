import Cosmost.Bblog.Wait

/-!
# A process with one thread, and signals

The one thread takes the steps of `exec`; between any two of them a signal may come, and its handler runs
`bblog_exit(-signum)` to its end before the thread goes on (`Solo.step`). What `alloc_buffer` does after `memalign` to the
variables of the process is taken apart, since a handler sees them; without a signal its steps are `alloc_buffer`
(`alloc_run`). The process may call `bblog_exit(1)`, after which its buffer has no word, and fork, after which the run goes
on with the child and the buffer that it inherits.
-/

namespace Cosmost.Bblog

open Cosmost.Lib

/-- The next step of the thread. -/
inductive SoloPc
  /-- One of those of any thread. -/
  | pc (x : Pc)
  /-- `reinit_procid` reads `procid`, to initialize the block `new`. -/
  | reinit (k : Option Record) (curr new : Nat)
  /-- It has made the prefix, and compares and swaps `procid`. -/
  | prefixed (k : Option Record) (curr new old : Nat)
  /-- `init_buffer` copies the prefix and stores the word. -/
  | fill (k : Option Record) (curr new : Nat)
  deriving DecidableEq

/-- One step of the thread. -/
def soloExec (A : Allocator) (e : Process) : SoloPc → State → Except Stuck (SoloPc × State)
  | .pc (.alloc k curr), s =>
    match A.memalign s.allocs s.live with
    | none => .ok (.pc (.fallback k curr), { s with allocs := s.allocs + 1 })
    | some (a, p) =>
      let s := { s with allocs := s.allocs + 1, live := a :: s.live, mem := Function.update s.mem a p }
      if a % 4096 ≠ 0 then .ok (.pc (.fallback k curr), s.free a) else .ok (.reinit k curr a, s)
  | .pc x, s => (exec A e x s).map fun r => (.pc r.1, r.2)
  | .reinit k curr new, s =>
    if s.procid = e.pid then .ok (.fill k curr new, s)
    else
      let s := { s with prefixBuf := fits maxPrefixLen (prefixText e), prefixLen := (prefixText e).length }
      if s.prefixLen ≥ maxPrefixLen then .ok (.pc (.install k curr new), s)
      else .ok (.prefixed k curr new s.procid, s)
  | .prefixed k curr new old, s =>
    if s.procid = old then .ok (.fill k curr new, { s with procid := e.pid }) else .ok (.reinit k curr new, s)
  | .fill k curr new, s =>
    .ok (.pc (.install k curr new),
      (s.setBuf new (strcpy (s.mem new).buf 0 s.prefixBuf)).setWord new (packBuffer new e.pid s.prefixLen 0))

/-- A process and its one thread. -/
structure Solo where
  process : Process
  pc : SoloPc
  state : State

/-- What happens to it. -/
inductive SoloEvent
  /-- It calls `bblog_init`. -/
  | init
  /-- It calls `_blog`. -/
  | blog (m : Record)
  /-- It calls `bblog_exit(1)`. -/
  | exit
  /-- It forks. -/
  | fork (child : Process)
  /-- The signal `sig + 1` comes. -/
  | signal (sig : Nat)
  /-- The thread takes its next step. -/
  | run

/-- What happens to the process, if it lives on. Calls begin in no function of the logger; a signal comes at any point. -/
def Solo.step (A : Allocator) (c : Solo) : SoloEvent → Option Solo
  | .init => if c.pc = .pc .idle then some { c with pc := .pc (.check none 0) } else none
  | .blog m => if c.pc = .pc .idle then some { c with pc := .pc (.load m) } else none
  | .exit =>
    if c.pc = .pc .idle ∧ c.state.procPibr ≠ 0 then
      let pibr := (c.state.mem c.state.procPibr).pibr
      some { c with
        pc := .pc (if pibr ≠ 0 ∧ pibrPtr pibr ≠ 0 then .readPid none (pibrPtr pibr) else .idle)
        state := c.state.setWord c.state.procPibr 0 }
    else none
  | .fork child => if c.pc = .pc .idle then some { c with process := child } else none
  | .signal sig => (bblogExit A c.process (-((sig : Int) + 1)) c.state).toOption.map fun s => { c with state := s }
  | .run =>
    if c.pc = .pc .idle then none
    else (soloExec A c.process c.pc c.state).toOption.map fun r => ⟨c.process, r.1, r.2⟩

/-- A process that has not logged. -/
def Solo.Started (c : Solo) : Prop := c.process.Fits ∧ c.pc = .pc .idle ∧ ∃ cntr mem, c.state = .init cntr mem

/-- A child has a valid pid and a name with which the prefix fits. -/
def SoloEvent.Fits : SoloEvent → Prop
  | .fork child => child.Fits
  | .init | .blog _ | .exit | .signal _ | .run => True

instance : ∀ ev, Decidable (SoloEvent.Fits ev)
  | .fork child => inferInstanceAs (Decidable child.Fits)
  | .init | .blog _ | .exit | .signal _ | .run => isTrue trivial

/-- The thread is between its `fetch_and_add` and its `fetch_and_sub` on the buffer at `a`. -/
def SoloPc.Holding (a : Nat) : SoloPc → Prop
  | .pc x => x.Holding a
  | .reinit _ _ _ | .prefixed _ _ _ _ | .fill _ _ _ => False

instance (a : Nat) : ∀ x, Decidable (SoloPc.Holding a x)
  | .pc x => inferInstanceAs (Decidable (x.Holding a))
  | .reinit _ _ _ | .prefixed _ _ _ _ | .fill _ _ _ => isFalse not_false

/-! ## `alloc_buffer`, taken apart -/

/-- `n` steps of the thread. -/
def soloRun (A : Allocator) (e : Process) : Nat → SoloPc × State → Except Stuck (SoloPc × State)
  | 0, r => .ok r
  | n + 1, r => (soloExec A e r.1 r.2).bind (soloRun A e n)

/-- **Without a signal the steps of `alloc_buffer` are `alloc_buffer`.** -/
theorem alloc_run (A : Allocator) (e : Process) (k : Option Record) (curr : Nat) (s : State) (he : e.Fits) :
    ∃ n, soloRun A e n (.pc (.alloc k curr), s) = (exec A e (.alloc k curr) s).map fun r => (.pc r.1, r.2) := by
  cases hA : A.memalign s.allocs s.live with
  | none => exact ⟨1, by simp [soloRun, soloExec, exec, allocBuffer, hA, Except.map, Except.bind]⟩
  | some x =>
    obtain ⟨a, p⟩ := x
    have hpage := A.page hA
    have ha : a ≠ 0 := by have := hpage.1; omega
    have hshort := he.short
    by_cases hpid : s.procid = e.pid
    · refine ⟨3, ?_⟩
      simp [soloRun, soloExec, exec, allocBuffer, initBuffer, reinitProcid, hA, hpage.2.2, ha, hpid, Except.map, Except.bind]
    · refine ⟨4, ?_⟩
      simp [soloRun, soloExec, exec, allocBuffer, initBuffer, reinitProcid, hA, hpage.2.2, ha, hpid, not_le.mpr hshort,
        Except.map, Except.bind]

end Cosmost.Bblog
