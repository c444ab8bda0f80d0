import Cosmost.Limits
import Cosmost.Lib.MachInt
import Cosmost.Lib.Text

/-!
# Per-file batching (`batch.c`)

One data wrapper keeps, per thread, the descriptor of its pending batch, the block range of the batch, the access
string that lists its accesses and a path buffer (`Vars`). The functions return the variables after the call and
what they did outside them, in order (`Effect`): calls of `notify_read_write`, and `snprintf` into the access string.

`size_t` has 32 bits and `off64_t` has 64; `size32` and `off64` stand where the source stores a result in one of them
that its operands do not bound.
-/

namespace Cosmost.Batch

open Cosmost.Lib

/-- The thread-local variables of one data wrapper. -/
structure Vars where
  lastFd : Int
  lastSize : Nat
  lastOff : Int
  /-- The access string (`read_iostr` and its likes). -/
  access : List Char
  /-- The path buffer (`read_path` and its likes). -/
  path : List Char
  deriving DecidableEq, Repr

/-- The variables of a new thread. -/
def Vars.init : Vars := ⟨-1, 0, -1, [], []⟩

/-- A call of `notify_read_write`; `str` is the access string as handed over, its last `;` still there. -/
structure Notification where
  op : String
  path : List Char
  fd : Int
  size : Nat
  off : Int
  str : List Char
  deriving DecidableEq, Repr

/-- What a function does outside the variables. -/
inductive Effect
  | notify (n : Notification)
  /-- `snprintf(&access[idx], IOSTR_BUFSIZE - idx, "%llu@%llu;", size, off)`. -/
  | snprintf (idx size : Nat) (off : Int)
  deriving DecidableEq, Repr

/-- `BLKSIZE_SHIFT`. -/
def blksizeShift : Nat := 12

/-- `BLKSIZE`. -/
def blksize : Int := 4096

/-- `"%llu@%llu;"`. -/
def ioRecord (size : Nat) (off : Int) : List Char := decimal size ++ '@' :: (decimal off.toNat ++ [';'])

/-- `notify_read_write` as far as the caller sees it: the call, and the string it leaves without its last character. -/
def notifyReadWrite (op : String) (path : List Char) (fd : Int) (size : Nat) (off : Int) (str : List Char) :
    List Char × Effect := (str.dropLast, .notify ⟨op, path, fd, size, off, str⟩)

/-- `batch_read_write_notify`. -/
def batchReadWriteNotify (op : String) (fd currStart currEnd : Int) (size : Nat) (off : Int) (b : Vars) :
    Vars × List Effect :=
  let out :=
    if b.lastFd ≠ -1 ∧ b.lastSize ≠ 0 then
      [(notifyReadWrite op b.path b.lastFd b.lastSize b.lastOff b.access).2]
    else []
  ({ b with
      lastFd := fd
      lastOff := currStart
      lastSize := size32 (currEnd - currStart + 1)
      access := fits iostrBufsize (ioRecord size off) },
    out ++ [.snprintf 0 size off])

/-- `record_iostr`. -/
def recordIostr (op : String) (fd currStart currEnd : Int) (size : Nat) (off : Int) (b : Vars) :
    Vars × List Effect :=
  let idx := b.access.length
  -- room for one more record of any width
  if iostrBufsize ≤ idx + 64 then batchReadWriteNotify op fd currStart currEnd size off b
  else
    ({ b with access := b.access ++ fits (iostrBufsize - idx) (ioRecord size off) }, [.snprintf idx size off])

/-- `curr_start`: the block of the first byte. -/
def currStart (off : Int) : Int := off >>> blksizeShift

/-- `curr_end`. -/
def currEnd (size : Nat) (off : Int) : Int := off64 (off + size - 1 + blksize - 1) >>> blksizeShift

/-- The argument check of both entry points; the pointers are never null. -/
def invalidArgs (fd : Int) (size : Nat) (off : Int) : Prop := fd < 0 ∨ size = 0 ∨ off < 0

instance (fd : Int) (size : Nat) (off : Int) : Decidable (invalidArgs fd size off) :=
  inferInstanceAs (Decidable (_ ∨ _ ∨ _))

/-- `batch_read_write_second`. -/
def batchReadWriteSecond (op : String) (fd : Int) (size : Nat) (off : Int) (b : Vars) : Vars × List Effect :=
  if invalidArgs fd size off then (b, [])
  else batchReadWriteNotify op fd (currStart off) (currEnd size off) size off b

/-- `batch_read_write_first`: its result, the variables and the effects. -/
def batchReadWriteFirst (op : String) (fd : Int) (size : Nat) (off : Int) (b : Vars) : Int × Vars × List Effect :=
  if invalidArgs fd size off then (-1, b, [])
  else
    let lastStart := b.lastOff
    let lastEnd := off64 (b.lastOff + b.lastSize - 1)
    let cs := currStart off
    let ce := currEnd size off
    let next := off64 (lastEnd + 1)
    let prev := off64 (lastStart - 1)
    let currSize := off64 (ce - cs + 1)
    if cs > next ∨ ce < prev then
      (0, batchReadWriteNotify op fd cs ce size off b)
    else
      let (b', out) := recordIostr op fd cs ce size off b
      -- `lastStart` and `lastEnd` are the values from before `record_iostr`
      if cs ≥ lastStart ∧ ce ≤ lastEnd then (0, b', out)
      else if cs ≥ lastStart ∧ cs ≤ next ∧ ce ≥ next then
        (0, { b' with lastSize := size32 (b'.lastSize + (ce - lastEnd)) }, out)
      else if cs ≤ lastStart ∧ ce ≥ lastEnd then
        (0, { b' with lastOff := cs, lastSize := size32 currSize }, out)
      else if cs < lastStart ∧ ce ≥ prev ∧ ce ≤ lastEnd then
        (0, { b' with lastOff := cs, lastSize := size32 (b'.lastSize + (lastStart - cs)) }, out)
      else (-1, b', out)

end Cosmost.Batch
