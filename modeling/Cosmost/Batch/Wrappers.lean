import Cosmost.Batch.Spec
import Cosmost.Fs.Scope

/-!
# The data wrappers (`read.c`, `write.c`, `fread.c`, `fwrite.c`, `pread.c`, `pwrite.c`, `close.c`)

A wrapper that transferred something tries the pending batch of its descriptor first, and otherwise looks the path up
and starts a new batch. `read`, `write`, `fread` and `fwrite` recover the offset from the file position
(`tracedSeek`), `pread64` and `pwrite64` are given it (`traced`); the difference is a test of the offset that
`batch_read_write_first` and `batch_read_write_second` repeat (`tracedSeek_eq`). The `_close` functions emit the
pending batch of a descriptor that is closed, or of any descriptor when the thread exits.

A thread (`Thread`) has the variables of the six wrappers and, for each, the trace of what was done outside them.
-/

namespace Cosmost.Batch

open Cosmost.Lib Cosmost.Fs

/-- One call of a data wrapper: its descriptor, what the underlying call returned, and what the kernel answers. -/
structure Call where
  fd : Int
  /-- The result of the underlying call. -/
  ret : Int
  /-- `lseek64(fd, 0, SEEK_CUR)` after the underlying call. -/
  pos : Int
  /-- The offset argument of `pread64` and `pwrite64`. -/
  off : Int
  /-- `ferror(fp)`. -/
  ferror : Bool
  /-- The file that the descriptor names. -/
  file : Path
  /-- `readlink` succeeds. -/
  lookup : Bool
  fstat : StatResult
  lstat : StatResult

/-- What `readlink` gives for the descriptor. -/
def Call.link (c : Call) : Option (List Char) := if c.lookup then some c.file.chars else none

/-- `fd_to_path(fd, path) != -1 && notify(fd, S_IFREG, path)`, and `batch_read_write_second` behind it. -/
def slowPath (op : String) (c : Call) (size : Nat) (off : Int) (b : Vars) : Vars × List Effect :=
  match fdToPath c.fd c.link with
  | none => (b, [])
  | some p =>
    if notify c.fd sIFREG p c.fstat c.lstat ≠ 0 then batchReadWriteSecond op c.fd size off { b with path := p }
    else ({ b with path := p }, [])

/-- The body of `_PREAD64` after the underlying call. -/
def traced (op : String) (c : Call) (size : Nat) (off : Int) (b : Vars) : Vars × List Effect :=
  if b.lastFd = c.fd then
    let (r, b', out) := batchReadWriteFirst op c.fd size off b
    if r = 0 then (b', out)
    else
      let (b'', out') := slowPath op c size off b'
      (b'', out ++ out')
  else slowPath op c size off b

/-- `slowPath` behind the test of the recovered offset. -/
def slowPathSeek (op : String) (c : Call) (size : Nat) (off : Int) (b : Vars) : Vars × List Effect :=
  match fdToPath c.fd c.link with
  | none => (b, [])
  | some p =>
    if notify c.fd sIFREG p c.fstat c.lstat ≠ 0 then
      if off < 0 then ({ b with path := p }, [])
      else batchReadWriteSecond op c.fd size off { b with path := p }
    else ({ b with path := p }, [])

/-- The body of `read` and `write` after the underlying call. -/
def tracedSeek (op : String) (c : Call) (size : Nat) (off : Int) (b : Vars) : Vars × List Effect :=
  if b.lastFd = c.fd then
    if off < 0 then slowPathSeek op c size off b
    else
      let (r, b', out) := batchReadWriteFirst op c.fd size off b
      if r = 0 then (b', out)
      else
        let (b'', out') := slowPathSeek op c size off b'
        (b'', out ++ out')
  else slowPathSeek op c size off b

/-- The offset that `lseek64` and the transferred count give. -/
def Call.seekOff (c : Call) : Int := off64 (c.pos - c.ret)

/-- `read`, after the underlying call. -/
def read (notifyOn : Bool) (c : Call) (b : Vars) : Vars × List Effect :=
  if 0 < c.ret ∧ notifyOn then tracedSeek "read" c (size32 c.ret) c.seekOff b else (b, [])

/-- `write`. -/
def write (notifyOn : Bool) (c : Call) (b : Vars) : Vars × List Effect :=
  if 0 < c.ret ∧ notifyOn then tracedSeek "write" c (size32 c.ret) c.seekOff b else (b, [])

/-- The body of `fread` and `fwrite`: a stream without a descriptor skips the pending batch. -/
def stdio (op : String) (notifyOn : Bool) (c : Call) (b : Vars) : Vars × List Effect :=
  if c.ferror = false ∧ 0 < c.ret ∧ notifyOn then
    if c.fd ≠ -1 then tracedSeek op c (size32 c.ret) c.seekOff b
    else slowPathSeek op c (size32 c.ret) c.seekOff b
  else (b, [])

/-- `fread`. -/
def fread : Bool → Call → Vars → Vars × List Effect := stdio "fread"

/-- `fwrite`. -/
def fwrite : Bool → Call → Vars → Vars × List Effect := stdio "fwrite"

/-- `_PREAD64` of `pread.c`, and the function of that name in `pwrite.c`. -/
def pread64' (op : String) (notifyOn : Bool) (c : Call) (b : Vars) : Vars × List Effect :=
  if 0 < c.ret ∧ notifyOn then traced op c (size32 c.ret) c.off b else (b, [])

/-- `pread64`. -/
def pread64 : Bool → Call → Vars → Vars × List Effect := pread64' "pread64"

/-- `pread`. -/
def pread : Bool → Call → Vars → Vars × List Effect := pread64' "pread"

/-- `pwrite64`. -/
def pwrite64 : Bool → Call → Vars → Vars × List Effect := pread64' "pwrite64"

/-- `pwrite`. -/
def pwrite : Bool → Call → Vars → Vars × List Effect := pread64' "pwrite"

/-- The body of the `_close` functions. -/
def closeWith (name : String) (fd : Int) (b : Vars) : Vars × List Effect :=
  if (fd = -1 ∧ b.lastFd ≠ -1) ∨ (fd ≠ -1 ∧ fd = b.lastFd) then
    let op := if fd = -1 then name ++ " (exit)" else name ++ " (close)"
    let (str, e) := notifyReadWrite op b.path b.lastFd b.lastSize b.lastOff b.access
    ({ b with lastFd := -1, access := str }, [e])
  else (b, [])

/-- `read_close`. -/
def readClose : Int → Vars → Vars × List Effect := closeWith "read"
/-- `write_close`. -/
def writeClose : Int → Vars → Vars × List Effect := closeWith "write"
/-- `fread_close`. -/
def freadClose : Int → Vars → Vars × List Effect := closeWith "fread"
/-- `fwrite_close`. -/
def fwriteClose : Int → Vars → Vars × List Effect := closeWith "fwrite"
/-- `pread64_close`. -/
def pread64Close : Int → Vars → Vars × List Effect := closeWith "pread64"
/-- `pwrite64_close`. -/
def pwrite64Close : Int → Vars → Vars × List Effect := closeWith "pwrite64"

/-! ## Threads -/

/-- The six sets of variables of a thread. -/
inductive Wrapper
  | read | write | fread | fwrite | pread64 | pwrite64
  deriving DecidableEq, Repr

/-- The functions that a program calls. -/
inductive Entry
  | read | write | fread | fwrite | pread64 | pread | pwrite64 | pwrite
  deriving DecidableEq, Repr

/-- The variables that an entry works on. -/
def Entry.wrapper : Entry → Wrapper
  | .read => .read
  | .write => .write
  | .fread => .fread
  | .fwrite => .fwrite
  | .pread64 | .pread => .pread64
  | .pwrite64 | .pwrite => .pwrite64

/-- The function of an entry. -/
def Entry.run : Entry → Bool → Call → Vars → Vars × List Effect
  | .read => Batch.read
  | .write => Batch.write
  | .fread => Batch.fread
  | .fwrite => Batch.fwrite
  | .pread64 => Batch.pread64
  | .pread => Batch.pread
  | .pwrite64 => Batch.pwrite64
  | .pwrite => Batch.pwrite

/-- The `_close` function of a set of variables. -/
def Wrapper.close : Wrapper → Int → Vars → Vars × List Effect
  | .read => readClose
  | .write => writeClose
  | .fread => freadClose
  | .fwrite => fwriteClose
  | .pread64 => pread64Close
  | .pwrite64 => pwrite64Close

/-- What a thread does. -/
inductive Event
  | access (e : Entry) (c : Call)
  /-- `close` and `fclose`. -/
  | close (fd : Int)
  /-- `pthread_exit` and the exit of the process: `close_common(-1)`. -/
  | exit

/-- One set of variables and the trace of its effects, each with the call that it came from, if any. -/
structure Journal where
  vars : Vars
  trace : List (Option Call × Effect)

/-- The journal of a new thread. -/
def Journal.init : Journal := ⟨Vars.init, []⟩

/-- Keep the result of a call. -/
def Journal.keep (j : Journal) (from? : Option Call) (p : Vars × List Effect) : Journal :=
  ⟨p.1, j.trace ++ p.2.map (from?, ·)⟩

/-- One event, in a process where `_notify` is set. `close_common` calls every `_close` function. -/
def Journal.step (w : Wrapper) (j : Journal) : Event → Journal
  | .access e c => if e.wrapper = w then j.keep (some c) (e.run true c j.vars) else j
  | .close fd => if fd = -1 then j else j.keep none (w.close fd j.vars)
  | .exit => j.keep none (w.close (-1) j.vars)

/-- The six journals of a thread. -/
abbrev Thread := Wrapper → Journal

/-- A new thread. -/
def Thread.init : Thread := fun _ => Journal.init

/-- One event of a thread. -/
def Thread.step (t : Thread) (e : Event) : Thread := fun w => (t w).step w e

/-- The six journals do not interfere. -/
theorem foldl_step (w : Wrapper) (es : List Event) (t : Thread) :
    es.foldl Thread.step t w = es.foldl (Journal.step w) (t w) := by
  induction es generalizing t with
  | nil => rfl
  | cons e es ih => exact ih (t.step e)

/-! ## The wrappers have one body -/

theorem slowPathSeek_eq (op : String) (c : Call) (size : Nat) (off : Int) (b : Vars) :
    slowPathSeek op c size off b = slowPath op c size off b := by
  unfold slowPathSeek slowPath
  cases fdToPath c.fd c.link with
  | none => rfl
  | some p =>
    by_cases h : off < 0
    · simp [h, batchReadWriteSecond, invalidArgs]
    · simp [h]

/-- **Testing the recovered offset changes nothing**: both entry points test it again. -/
theorem tracedSeek_eq (op : String) (c : Call) (size : Nat) (off : Int) (b : Vars) :
    tracedSeek op c size off b = traced op c size off b := by
  simp only [tracedSeek, traced, slowPathSeek_eq]
  by_cases h : off < 0
  · have ha : invalidArgs c.fd size off := Or.inr (Or.inr h)
    simp [h, batchReadWriteFirst, ha]
  · simp [h]

/-- The operation name that an entry reports. -/
def Entry.op : Entry → String
  | .read => "read"
  | .write => "write"
  | .fread => "fread"
  | .fwrite => "fwrite"
  | .pread64 => "pread64"
  | .pread => "pread"
  | .pwrite64 => "pwrite64"
  | .pwrite => "pwrite"

/-- The call transferred something. -/
def Entry.counts : Entry → Call → Prop
  | .fread, c | .fwrite, c => c.ferror = false ∧ 0 < c.ret
  | _, c => 0 < c.ret

instance (e : Entry) (c : Call) : Decidable (e.counts c) := by
  cases e <;> simp only [Entry.counts] <;> infer_instance

/-- The size that an entry computes. -/
def Entry.size (_ : Entry) (c : Call) : Nat := size32 c.ret

/-- The offset that an entry computes. -/
def Entry.off : Entry → Call → Int
  | .pread64, c | .pread, c | .pwrite64, c | .pwrite, c => c.off
  | _, c => c.seekOff

/-- Every entry is `traced` at its own name, size and offset. -/
theorem Entry.run_eq (e : Entry) (c : Call) (b : Vars) :
    e.run true c b = if e.counts c then traced e.op c (e.size c) (e.off c) b else (b, []) := by
  have hs : ∀ op, stdio op true c b =
      if c.ferror = false ∧ 0 < c.ret then traced op c (size32 c.ret) c.seekOff b else (b, []) := by
    intro op
    simp only [stdio, tracedSeek_eq, slowPathSeek_eq, and_true]
    by_cases hf : c.fd = -1
    · -- without a descriptor both entry points refuse
      have ha : invalidArgs c.fd (size32 c.ret) c.seekOff := Or.inl (by omega)
      simp only [hf, ne_eq, not_true_eq_false, ↓reduceIte, traced]
      rw [hf] at ha
      simp [batchReadWriteFirst, ha, slowPath, fdToPath, hf]
    · simp [hf]
  cases e <;> simp [Entry.run, Entry.counts, Entry.op, Entry.size, Entry.off, Batch.read, Batch.write, Batch.fread,
    Batch.fwrite, Batch.pread64, Batch.pread, Batch.pwrite64, Batch.pwrite, pread64', tracedSeek_eq, hs]

/-! ## Two files in scope -/

/-- The first. -/
def fileA : Path := ⟨"/data/a".toList, by unfold Lib.NulFree; decide, by decide⟩

/-- The second. -/
def fileB : Path := ⟨"/data/b".toList, by unfold Lib.NulFree; decide, by decide⟩

end Cosmost.Batch
