import Cosmost.Bblog.Word
import Cosmost.Lib.Text
import Mathlib.Logic.Function.Basic
import Mathlib.Tactic.Simps.Basic

/-!
# The shared batch buffer (`bblog.c`), one thread

`State` is what the process shares: the record counter, the prefix and the pid that it was made for, the pointer
`proc_pibr` to the word of the current buffer, the memory of the buffers. The answers of `memalign` come from an
`Allocator`. With a single thread an atomic builtin is an ordinary read or write; a function that does not return, or
dereferences a null pointer, ends in `Stuck`.

`State.trace` records what was stored in buffers and what was handed to the log.
-/

namespace Cosmost.Bblog

open Cosmost.Lib

/-- `pibr_t`; `buf` has `PIBR_BUF_SIZE` bytes. -/
structure Pibr where
  pibr : BitVec 64
  buf : Bytes

/-- A process: `getpid()` and `process_name()`. -/
structure Process where
  pid : Nat
  name : List Char
  pos : 0 < pid
  nulFree : NulFree name

/-- `memalign(1 + PIBR_REFCNT_MASK, sizeof(pibr_t))`: the answer to each call, given the blocks that are live then. A
block is a page that is not live, with any contents. -/
structure Allocator where
  memalign : Nat → List Nat → Option (Nat × Pibr)
  page : ∀ {n live a p}, memalign n live = some (a, p) → Page a
  fresh : ∀ {n live a p}, memalign n live = some (a, p) → a ∉ live

/-- What happens to records. -/
inductive Event
  /-- `memcpy` of a record to `&buf[off]` of the buffer at `a`. -/
  | stored (a off : Nat) (record : List Char)
  /-- `__android_log_write` of the text of the buffer at `a`. -/
  | written (a : Nat) (text : List Char)
  /-- `__android_log_write` under the tag of records that are not batched. -/
  | unbatched (text : List Char)
  deriving DecidableEq, Repr

/-- The globals of the process and its memory. -/
structure State where
  /-- `_cntr`. -/
  cntr : Nat
  procid : Nat
  /-- The array `prefix`, as the string in it. -/
  prefixBuf : List Char
  prefixLen : Nat
  /-- `0` is the null pointer. -/
  procPibr : Nat
  mem : Nat → Pibr
  /-- The blocks allocated and not freed. -/
  live : List Nat
  /-- The number of calls of `memalign` so far. -/
  allocs : Nat
  trace : List Event

/-- The globals of a process that has not logged; `c` is the counter. -/
def State.init (c : Nat) (mem : Nat → Pibr) : State := ⟨c, 0, [], 0, 0, mem, [], 0, []⟩

/-- How a call does not return. -/
inductive Stuck
  /-- A null pointer is dereferenced, or a byte before the buffer written. -/
  | fault
  /-- A compare-and-swap fails for ever. -/
  | spins
  /-- The loop is still running after the turns it was given. -/
  | running
  deriving DecidableEq, Repr

/-! ## Memory -/

/-- `*p = w` for the word of a buffer. -/
@[simps cntr procid prefixBuf prefixLen procPibr live allocs trace]
def State.setWord (s : State) (p : Nat) (w : BitVec 64) : State :=
  { s with mem := Function.update s.mem p ⟨w, (s.mem p).buf⟩ }

/-- The text of a buffer. -/
@[simps cntr procid prefixBuf prefixLen procPibr live allocs trace]
def State.setBuf (s : State) (p : Nat) (b : Bytes) : State :=
  { s with mem := Function.update s.mem p ⟨(s.mem p).pibr, b⟩ }

/-- `__sync_fetch_and_add` on the word of a buffer. -/
def fetchAdd (p : Nat) (v : BitVec 64) (s : State) : Except Stuck (BitVec 64 × State) :=
  if p = 0 then .error .fault else .ok ((s.mem p).pibr, s.setWord p ((s.mem p).pibr + v))

/-- `__sync_fetch_and_sub`. -/
def fetchSub (p : Nat) (v : BitVec 64) (s : State) : Except Stuck State :=
  if p = 0 then .error .fault else .ok (s.setWord p ((s.mem p).pibr - v))

/-- One more event. -/
@[simps]
def State.emit (s : State) (ev : Event) : State := { s with trace := s.trace ++ [ev] }

/-- `free`. -/
@[simps]
def State.free (s : State) (p : Nat) : State := { s with live := s.live.erase p }

/-! ## Prefix and buffers -/

/-- `"{\"PID\":%d,\"PROC\":\"%s\",\"BATCH\":{"`. -/
def prefixText (e : Process) : List Char :=
  "\x7b\"PID\":".toList ++ (decimal e.pid ++ (",\"PROC\":\"".toList ++ (e.name ++ "\",\"BATCH\":\x7b".toList)))

/-- `reinit_procid`: whether it succeeds, and the state. -/
def reinitProcid (e : Process) (s : State) : Bool × State :=
  if s.procid = e.pid then (true, s)
  else
    let s := { s with prefixBuf := fits maxPrefixLen (prefixText e), prefixLen := (prefixText e).length }
    if s.prefixLen ≥ maxPrefixLen then (false, s) else (true, { s with procid := e.pid })

/-- `init_buffer`: a buffer is left as it is when the prefix does not fit. -/
def initBuffer (e : Process) (ptr : Nat) (s : State) : State :=
  match reinitProcid e s with
  | (false, s) => s
  | (true, s) =>
    (s.setBuf ptr (strcpy (s.mem ptr).buf 0 s.prefixBuf)).setWord ptr (packBuffer ptr e.pid s.prefixLen 0)

/-- `alloc_buffer`: the buffer, or null. -/
def allocBuffer (A : Allocator) (e : Process) (s : State) : Nat × State :=
  match A.memalign s.allocs s.live with
  | none => (0, { s with allocs := s.allocs + 1 })
  | some (a, p) =>
    let s := { s with allocs := s.allocs + 1, live := a :: s.live, mem := Function.update s.mem a p }
    if a % 4096 ≠ 0 then (0, s.free a) else (a, initBuffer e a s)

/-- `flush_buffer`. -/
def flushBuffer (ptr : Nat) (s : State) : Except Stuck State :=
  if ptr = 0 then .ok s
  else
    let pid := pibrPid (s.mem ptr).pibr
    if s.procid ≠ pid then .ok s
    else
      let idx := pibrIdx (s.mem ptr).pibr
      if s.prefixLen = idx then .ok s
      else if (s.mem ptr).pibr ≠ packBuffer ptr pid idx 0 then .error .spins
      else if idx = 0 then .error .fault
      else
        let s := (s.setWord ptr 0).setBuf ptr (strcpy (s.mem ptr).buf (idx - 1) "\x7d\x7d".toList)
        .ok ((s.emit (.written ptr (cstr pibrBufSize (s.mem ptr).buf))).free ptr)

/-- `swap_buffers`: whether it swapped, and the state. -/
def swapBuffers (A : Allocator) (e : Process) (curr : Nat) (s : State) : Bool × State :=
  if s.procPibr ≠ curr then (false, s)
  else
    let (new, s) := allocBuffer A e s
    if new = 0 then (true, { s with procPibr := 0 })
    else if s.procPibr = curr then (true, { s with procPibr := new })
    else (false, s.free new)

/-- `swap_and_flush_buffer`; a buffer begins with its word, so the pointer to the word is the buffer's. -/
def swapAndFlushBuffer (A : Allocator) (e : Process) (curr : Nat) (s : State) : Except Stuck State :=
  let (swapped, s) := swapBuffers A e curr s
  if swapped ∧ curr ≠ 0 then flushBuffer (pibrPtr (BitVec.ofNat 64 curr)) s else .ok s

/-! ## Logging -/

/-- `no_batch_blog`. -/
def noBatchBlog (e : Process) (buffer : List Char) (s : State) : State :=
  s.emit (.unbatched (fits loggerEntryMaxPayload (prefixText e ++ buffer ++ "\"NOBATCH\":\"YES\"\x7d\x7d".toList)))

/-- One turn of the loop of `_blog`: the result if the loop ends. -/
def blogTurn (A : Allocator) (e : Process) (buffer : List Char) (s : State) : Except Stuck (Option Int × State) := do
  let incr := packBuffer 0 0 buffer.length 1
  let (curr, s) ← fetchAdd s.procPibr incr s
  let ptr := pibrPtr curr
  if ptr = 0 then
    -- faults
    let s ← fetchSub ptr incr s
    return (some 0, noBatchBlog e buffer s)
  let idx := pibrIdx curr
  if pibrPid curr = e.pid ∧ idx + buffer.length < loggerEntryMaxPayload - 32 then
    let s := s.setBuf ptr (blit (s.mem ptr).buf idx buffer)
    let s ← fetchSub ptr 1 (s.emit (.stored ptr idx buffer))
    return (some buffer.length, s)
  let s ← fetchSub ptr incr s
  let s ← swapAndFlushBuffer A e ptr s
  return (none, s)

/-- The loop of `_blog`, for at most `n` turns. -/
def blogLoop (A : Allocator) (e : Process) (buffer : List Char) : Nat → State → Except Stuck (Int × State)
  | 0, _ => .error .running
  | n + 1, s => do
    match ← blogTurn A e buffer s with
    | (some ret, s) => return (ret, s)
    | (none, s) => blogLoop A e buffer n s

/-- `cntr()`. -/
def State.nextCntr (s : State) : Nat := (s.cntr + 1) % 2 ^ 64

/-- `"\"REC_%llu\":"`, as far as it fits 32 bytes. -/
def recordKey (n : Nat) : List Char := fits 32 ("\"REC_".toList ++ (decimal n ++ "\":".toList))

/-- The record as `bblog` builds it, from the key and what `vsnprintf` printed: `none` stands for an error, `-1`, which
the code adds to the size. The comma overwrites what follows. -/
def record (key : List Char) (body : Option (List Char)) : List Char :=
  match body with
  | some body => key ++ body ++ [',']
  | none => key.dropLast ++ [',']

/-- `bblog`, its loop with at most `n` turns. -/
def bblog (A : Allocator) (e : Process) (n : Nat) (body : Option (List Char)) (s : State) :
    Except Stuck (Int × State) :=
  let key := recordKey s.nextCntr
  let s := { s with cntr := s.nextCntr }
  -- the size is that of the record without its comma
  if (record key body).length - 1 ≥ bufferSize - 2 then .ok (-1, s)
  else blogLoop A e (record key body) n s

/-- `bblog_init`. -/
def bblogInit (A : Allocator) (e : Process) (s : State) : State := (swapBuffers A e 0 s).2

/-- `bblog_exit`. -/
def bblogExit (A : Allocator) (e : Process) (main : Int) (s : State) : Except Stuck State :=
  if main < 0 then swapAndFlushBuffer A e s.procPibr s
  else if main = 0 then .ok s
  else if main = 1 then do
    if s.procPibr = 0 then .error .fault
    else
      let pibr := (s.mem s.procPibr).pibr
      let s := s.setWord s.procPibr 0
      if pibr ≠ 0 ∧ pibrPtr pibr ≠ 0 then flushBuffer (pibrPtr pibr) s else .ok s
  else .ok s

end Cosmost.Bblog
