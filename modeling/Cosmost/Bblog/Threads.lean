import Cosmost.Bblog.Ready
import Cosmost.Lib.Run
import Cosmost.Lib.Total

/-!
# The shared batch buffer, any number of threads

Each atomic builtin of `_blog`, `swap_buffers` and `flush_buffer` is one step of one thread, and so is each `memcpy` into
a buffer, the read of `proc_pibr` before a builtin, and `alloc_buffer`, whose block no other thread knows. `exec` is the
step of a thread at a program point `Pc`, on the `State` of `Bblog.Buffer`; `Conf.step` interleaves them.

A configuration keeps two histories beside the state of the process: the records whose reservation on a buffer took the
`memcpy` branch (`taken`) and the texts written to the log, with the records taken then (`writes`).
-/

namespace Cosmost.Bblog

open Cosmost.Lib

/-- A record as `bblog` hands it to `_blog`: a C string and the comma behind it. -/
structure Record where
  body : List Char
  nulFree : NulFree body
  short : body.length + 1 < bufferSize
  deriving DecidableEq

/-- The argument `buffer` of `_blog`. -/
def Record.text (m : Record) : List Char := m.body ++ [',']

/-- The increment of a reservation, `incr`. -/
def Record.incr (m : Record) : BitVec 64 := packBuffer 0 0 m.text.length 1

/-! ## Program points -/

/-- The next step of a thread. In `swap_buffers` and `flush_buffer` the thread keeps the record with which `_blog` goes
round its loop again; without one it came from `bblog_exit` or the flusher. -/
inductive Pc
  /-- In no function of the logger. -/
  | idle
  /-- `_blog` reads `proc_pibr`. -/
  | load (m : Record)
  /-- `__sync_fetch_and_add(proc_pibr, incr)`, the argument read before. -/
  | add (m : Record) (p : Nat)
  /-- `memcpy` to `&ptr->buf[idx]`. -/
  | copy (m : Record) (ptr idx : Nat)
  /-- `__sync_fetch_and_sub(&ptr->pibr, 1)`. -/
  | release (ptr : Nat)
  /-- `__sync_fetch_and_sub(&ptr->pibr, incr)`. -/
  | rollback (m : Record) (ptr : Nat)
  /-- The caller of `swap_and_flush_buffer` reads `proc_pibr`. -/
  | loadFlush
  /-- `swap_buffers`: is `proc_pibr` still `curr`? -/
  | check (k : Option Record) (curr : Nat)
  /-- `alloc_buffer`. -/
  | alloc (k : Option Record) (curr : Nat)
  /-- `__sync_fetch_and_and(&proc_pibr, 0)`. -/
  | fallback (k : Option Record) (curr : Nat)
  /-- The compare-and-swap of `proc_pibr`. -/
  | install (k : Option Record) (curr new : Nat)
  /-- `free(new_ptr)`. -/
  | discard (k : Option Record) (new : Nat)
  /-- `flush_buffer`: is the buffer that of this process? -/
  | readPid (k : Option Record) (ptr : Nat)
  /-- Is there something to flush? -/
  | sample (k : Option Record) (ptr pid : Nat)
  /-- The compare-and-swap loop. -/
  | cas (k : Option Record) (ptr pid idx : Nat)
  /-- `strcpy(&ptr->buf[idx - 1], "\x7d\x7d")`. -/
  | close (k : Option Record) (ptr idx : Nat)
  /-- `__android_log_write`. -/
  | write (k : Option Record) (ptr : Nat)
  /-- `free(ptr)`. -/
  | free (k : Option Record) (ptr : Nat)
  deriving DecidableEq

/-- Where a thread goes on after `swap_and_flush_buffer`. -/
def Pc.next : Option Record → Pc
  | some m => .load m
  | none => .idle

/-- `swap_and_flush_buffer` after a swap. -/
def Pc.swapped (k : Option Record) (curr : Nat) : Pc :=
  if curr ≠ 0 then .readPid k (pibrPtr (BitVec.ofNat 64 curr)) else .next k

/-- The test of `_blog` on the value that its `fetch_and_add` returned. -/
def Fitting (e : Process) (m : Record) (old : BitVec 64) : Prop :=
  pibrPid old = e.pid ∧ pibrIdx old + m.text.length < loggerEntryMaxPayload - 32

instance (e : Process) (m : Record) (old : BitVec 64) : Decidable (Fitting e m old) :=
  inferInstanceAs (Decidable (_ ∧ _))

/-- One step of a thread. -/
def exec (A : Allocator) (e : Process) : Pc → State → Except Stuck (Pc × State)
  | .idle, s => .ok (.idle, s)
  | .load m, s => .ok (.add m s.procPibr, s)
  | .add m p, s => do
    let (old, s) ← fetchAdd p m.incr s
    -- `&ptr->pibr` with a null `ptr`
    if pibrPtr old = 0 then .error .fault
    else if Fitting e m old then .ok (.copy m (pibrPtr old) (pibrIdx old), s)
    else .ok (.rollback m (pibrPtr old), s)
  | .copy m ptr idx, s =>
    .ok (.release ptr, (s.setBuf ptr (blit (s.mem ptr).buf idx m.text)).emit (.stored ptr idx m.text))
  | .release ptr, s => do return (.idle, ← fetchSub ptr 1 s)
  | .rollback m ptr, s => do return (.check (some m) ptr, ← fetchSub ptr m.incr s)
  | .loadFlush, s => .ok (.check none s.procPibr, s)
  | .check k curr, s => .ok (if s.procPibr = curr then .alloc k curr else .next k, s)
  | .alloc k curr, s =>
    let (new, s) := allocBuffer A e s
    .ok (if new = 0 then .fallback k curr else .install k curr new, s)
  | .fallback k curr, s => .ok (.swapped k curr, { s with procPibr := 0 })
  | .install k curr new, s =>
    if s.procPibr = curr then .ok (.swapped k curr, { s with procPibr := new }) else .ok (.discard k new, s)
  | .discard k new, s => .ok (.next k, s.free new)
  | .readPid k ptr, s =>
    if ptr = 0 then .ok (.next k, s)
    else
      let pid := pibrPid (s.mem ptr).pibr
      .ok (if s.procid = pid then .sample k ptr pid else .next k, s)
  | .sample k ptr pid, s =>
    let idx := pibrIdx (s.mem ptr).pibr
    .ok (if s.prefixLen = idx then .next k else .cas k ptr pid idx, s)
  | .cas k ptr pid idx, s =>
    if (s.mem ptr).pibr = packBuffer ptr pid idx 0 then .ok (.close k ptr idx, s.setWord ptr 0)
    else .ok (.cas k ptr pid idx, s)
  | .close k ptr idx, s =>
    -- `buf[-1]`
    if idx = 0 then .error .fault
    else .ok (.write k ptr, s.setBuf ptr (strcpy (s.mem ptr).buf (idx - 1) "\x7d\x7d".toList))
  | .write k ptr, s => .ok (.free k ptr, s.emit (.written ptr (cstr pibrBufSize (s.mem ptr).buf)))
  | .free k ptr, s => .ok (.next k, s.free ptr)

/-! ## Configurations -/

/-- A text that went to the log, and the records that had been taken for its buffer. -/
structure Write where
  taken : List Record
  text : List Char

/-- A process with the threads `τ`. -/
structure Conf (τ : Type*) where
  state : State
  pc : τ → Pc
  /-- A thread went through a null pointer, and the process was killed. -/
  killed : Bool
  taken : Nat → List Record
  writes : List Write

/-- What a thread does: call `_blog`, call `swap_and_flush_buffer` on the current buffer, or go on. -/
inductive Move
  | blog (m : Record)
  | flush
  | run
  deriving DecidableEq

/-- The records taken, after a thread went from one point to another. -/
def noteTaken (taken : Nat → List Record) : Pc → Pc → Nat → List Record
  | .add m _, .copy _ ptr _ => Function.update taken ptr (taken ptr ++ [m])
  | .alloc _ _, .install _ _ new => Function.update taken new []
  | _, _ => taken

/-- The texts written, after a thread left a point. -/
def noteWrites (taken : Nat → List Record) (s : State) (writes : List Write) : Pc → List Write
  | .write _ ptr => writes ++ [⟨taken ptr, cstr pibrBufSize (s.mem ptr).buf⟩]
  | _ => writes

section Step

variable {τ : Type*} [DecidableEq τ]

/-- The thread is at another point. -/
def Conf.goto (c : Conf τ) (t : τ) (q : Pc) : Conf τ := { c with pc := Function.update c.pc t q }

/-- The next step of the thread `t`. -/
def Conf.run (A : Allocator) (e : Process) (c : Conf τ) (t : τ) : Conf τ :=
  match exec A e (c.pc t) c.state with
  | .error _ => { c with killed := true }
  | .ok (q, s) =>
    ⟨s, Function.update c.pc t q, c.killed, noteTaken c.taken (c.pc t) q, noteWrites c.taken c.state c.writes (c.pc t)⟩

/-- The moves of the process, as long as it lives. -/
def Conf.step (A : Allocator) (e : Process) (c : Conf τ) : τ × Move → Option (Conf τ)
  | (t, move) =>
    if c.killed then none
    else match move with
      | .blog m => if c.pc t = .idle then some (c.goto t (.load m)) else none
      | .flush => if c.pc t = .idle then some (c.goto t .loadFlush) else none
      | .run => if c.pc t = .idle then none else some (c.run A e t)

/-- After `bblog_init`, with no thread in the logger. -/
def Conf.Started (A : Allocator) (e : Process) (c : Conf τ) : Prop :=
  ∃ cntr mem, c = ⟨bblogInit A e (.init cntr mem), fun _ => .idle, false, fun _ => [], []⟩

end Step

end Cosmost.Bblog
