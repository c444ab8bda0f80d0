import Cosmost.Batch.Wrappers
import Mathlib.Tactic.Linarith

/-!
# What a wrapper records of a transfer

A wrapper gives a size and an offset to `batch_read_write_first` or `batch_read_write_second` (`Entry.given`). `read` and
`write` compute both from the result and the position after the call, and are right. `fread` and `fwrite` do the same,
but their result counts elements, and the position is that of the descriptor, which runs ahead of the stream while
there is input in its buffer and behind while there is output. `pwrite` takes the offset that it is called with, which
the kernel does not use if the file was opened with `O_APPEND`.

`given_iff`: the pair is the transfer exactly if, of a stream, the elements are bytes and the buffer is left empty, and,
of a descriptor with `O_APPEND`, `pwrite` is called with the end of the file.
-/

namespace Cosmost.Batch

open Cosmost.Lib Cosmost.Fs

/-! ## The pairs that are given -/

section With

variable {X : Type*}

/-- `slowPath` with another function for `batch_read_write_second`. -/
def slowPathWith (second : Vars → Vars × List X) (c : Call) (b : Vars) : Vars × List X :=
  match fdToPath c.fd c.link with
  | none => (b, [])
  | some p =>
    if notify c.fd sIFREG p c.fstat c.lstat ≠ 0 then second { b with path := p } else ({ b with path := p }, [])

/-- `slowPathSeek`. -/
def slowPathSeekWith (second : Vars → Vars × List X) (c : Call) (off : Int) (b : Vars) : Vars × List X :=
  match fdToPath c.fd c.link with
  | none => (b, [])
  | some p =>
    if notify c.fd sIFREG p c.fstat c.lstat ≠ 0 then
      if off < 0 then ({ b with path := p }, []) else second { b with path := p }
    else ({ b with path := p }, [])

/-- `traced`. -/
def tracedWith (first : Vars → Int × Vars × List X) (second : Vars → Vars × List X) (c : Call) (b : Vars) :
    Vars × List X :=
  if b.lastFd = c.fd then
    let (r, b', out) := first b
    if r = 0 then (b', out)
    else
      let (b'', out') := slowPathWith second c b'
      (b'', out ++ out')
  else slowPathWith second c b

/-- `tracedSeek`. -/
def tracedSeekWith (first : Vars → Int × Vars × List X) (second : Vars → Vars × List X) (c : Call) (off : Int)
    (b : Vars) : Vars × List X :=
  if b.lastFd = c.fd then
    if off < 0 then slowPathSeekWith second c off b
    else
      let (r, b', out) := first b
      if r = 0 then (b', out)
      else
        let (b'', out') := slowPathSeekWith second c off b'
        (b'', out ++ out')
  else slowPathSeekWith second c off b

/-- An entry with other functions for `batch_read_write_first` and `batch_read_write_second`. -/
def Entry.runWith (e : Entry) (first : Nat → Int → Vars → Int × Vars × List X) (second : Nat → Int → Vars → Vars × List X)
    (c : Call) (b : Vars) : Vars × List X :=
  match e with
  | .read | .write =>
    if 0 < c.ret then
      tracedSeekWith (first (size32 c.ret) c.seekOff) (second (size32 c.ret) c.seekOff) c c.seekOff b
    else (b, [])
  | .fread | .fwrite =>
    if c.ferror = false ∧ 0 < c.ret then
      if c.fd ≠ -1 then
        tracedSeekWith (first (size32 c.ret) c.seekOff) (second (size32 c.ret) c.seekOff) c c.seekOff b
      else slowPathSeekWith (second (size32 c.ret) c.seekOff) c c.seekOff b
    else (b, [])
  | .pread64 | .pread | .pwrite64 | .pwrite =>
    if 0 < c.ret then tracedWith (first (size32 c.ret) c.off) (second (size32 c.ret) c.off) c b else (b, [])

/-- The entries are these, with the functions themselves. -/
theorem Entry.runWith_eq (e : Entry) (c : Call) (b : Vars) :
    e.runWith (batchReadWriteFirst e.op c.fd) (batchReadWriteSecond e.op c.fd) c b = e.run true c b := by
  cases e <;>
    simp only [Entry.runWith, Entry.run, Batch.read, Batch.write, Batch.fread, Batch.fwrite, stdio, Batch.pread64,
      Batch.pread, Batch.pwrite64, Batch.pwrite, pread64', and_true] <;> rfl

section Forall

variable {Q : X → Prop} {c : Call} {off : Int} {first : Vars → Int × Vars × List X} {second : Vars → Vars × List X}

theorem slowPathWith_forall (hsecond : ∀ b, ∀ x ∈ (second b).2, Q x) (b : Vars) :
    ∀ x ∈ (slowPathWith second c b).2, Q x := by
  unfold slowPathWith
  cases fdToPath c.fd c.link with
  | none => simp
  | some p =>
    simp only
    split_ifs
    · exact hsecond _
    · simp

theorem slowPathSeekWith_forall (hsecond : 0 ≤ off → ∀ b, ∀ x ∈ (second b).2, Q x) (b : Vars) :
    ∀ x ∈ (slowPathSeekWith second c off b).2, Q x := by
  unfold slowPathSeekWith
  cases fdToPath c.fd c.link with
  | none => simp
  | some p =>
    simp only
    split_ifs with _ hoff
    · simp
    · exact hsecond (Int.not_lt.mp hoff) _
    · simp

/-- What `batch_read_write_first` and `batch_read_write_second` do, the body does. -/
theorem tracedWith_forall (hfirst : ∀ b, ∀ x ∈ (first b).2.2, Q x) (hsecond : ∀ b, ∀ x ∈ (second b).2, Q x)
    (b : Vars) : ∀ x ∈ (tracedWith first second c b).2, Q x := by
  unfold tracedWith
  split_ifs
  · simp only
    split_ifs
    · exact hfirst b
    · intro x hx
      rcases List.mem_append.mp hx with hx | hx
      · exact hfirst b x hx
      · exact slowPathWith_forall hsecond _ x hx
  · exact slowPathWith_forall hsecond b

theorem tracedSeekWith_forall (hfirst : 0 ≤ off → ∀ b, ∀ x ∈ (first b).2.2, Q x)
    (hsecond : 0 ≤ off → ∀ b, ∀ x ∈ (second b).2, Q x) (b : Vars) :
    ∀ x ∈ (tracedSeekWith first second c off b).2, Q x := by
  unfold tracedSeekWith
  split_ifs with _ hoff
  · exact slowPathSeekWith_forall hsecond b
  · have hoff := Int.not_lt.mp hoff
    simp only
    split_ifs
    · exact hfirst hoff b
    · intro x hx
      rcases List.mem_append.mp hx with hx | hx
      · exact hfirst hoff b x hx
      · exact slowPathSeekWith_forall hsecond _ x hx
  · exact slowPathSeekWith_forall hsecond b

end Forall

end With

/-- The sizes and offsets that an entry gives to `batch_read_write_first` and `batch_read_write_second`. -/
def Entry.given (e : Entry) (c : Call) (b : Vars) : List (Nat × Int) :=
  (e.runWith
    (fun size off b =>
      let (r, b', _) := batchReadWriteFirst e.op c.fd size off b
      (r, b', [(size, off)]))
    (fun size off b => ((batchReadWriteSecond e.op c.fd size off b).1, [(size, off)])) c b).2

/-- **A pair that is given is the size and the offset that the entry computes**, of a call that returned something, and
at an offset that is not negative if the position gives it. -/
theorem Entry.given_eq {e : Entry} {c : Call} {b : Vars} {p : Nat × Int} (h : p ∈ e.given c b) :
    p = (e.size c, e.off c) ∧ 0 < c.ret ∧ (e = .read ∨ e = .write → 0 ≤ e.off c) := by
  revert p
  cases e with
  | read | write =>
    simp only [Entry.given, Entry.runWith]
    split_ifs with hret
    · apply tracedSeekWith_forall
      all_goals
        intro hoff b x hx
        exact ⟨List.mem_singleton.mp hx, hret, fun _ => hoff⟩
    · simp
  | fread | fwrite =>
    simp only [Entry.given, Entry.runWith]
    split_ifs with hret hfd
    · apply tracedSeekWith_forall
      all_goals
        intro _ b x hx
        exact ⟨List.mem_singleton.mp hx, hret.2, by simp⟩
    · apply slowPathSeekWith_forall
      intro _ b x hx
      exact ⟨List.mem_singleton.mp hx, hret.2, by simp⟩
    · simp
  | pread64 | pread | pwrite64 | pwrite =>
    simp only [Entry.given, Entry.runWith]
    split_ifs with hret
    · apply tracedWith_forall
      all_goals
        intro b x hx
        exact ⟨List.mem_singleton.mp hx, hret, by simp⟩
    · simp

/-! ## The transfer -/

/-- A descriptor before the call. -/
structure Descriptor where
  /-- The position in the file; for a stream, that of the stream. -/
  pos : Nat
  /-- `O_APPEND`. -/
  append : Bool
  /-- The length of the file. -/
  length : Nat
  seekable : Bool

/-- What the call asks for: `count` elements of `size` bytes. An element of `read`, `write` and their likes is a byte. -/
structure Args where
  size : Nat
  count : Nat

/-- The calls of `stdio.h`. -/
def Entry.onStream : Entry → Bool
  | .fread | .fwrite => true
  | _ => false

/-- Where the transfer begins. A descriptor with `O_APPEND` writes at the end of the file, at whatever offset. -/
def Entry.start (e : Entry) (d : Descriptor) (c : Call) : Int :=
  match e with
  | .read | .fread | .fwrite => d.pos
  | .write => if d.append then d.length else d.pos
  | .pread64 | .pread => c.off
  | .pwrite64 | .pwrite => if d.append then d.length else c.off

/-- The underlying call transferred `bytes` bytes: as many elements as it returns, and part of another. The position of
the descriptor of a stream is not determined, as it depends on the buffer. -/
structure Behaves (e : Entry) (a : Args) (d : Descriptor) (c : Call) (bytes : Nat) : Prop where
  units : ∃ part < a.size, (bytes : Int) = c.ret * a.size + part
  asked : bytes ≤ a.size * a.count
  byteCall : e.onStream = false → a.size = 1
  pos : e = .read ∨ e = .write → c.pos = if d.seekable then e.start d c + bytes else -1
  /-- `bytes` is a `size_t`, and `pos` an `off64_t`. -/
  bytes_lt : bytes < 2 ^ 32
  pos_lt : -1 ≤ c.pos ∧ c.pos < 2 ^ 63

/-- The elements are bytes and nothing is left in the buffer of the stream; `pwrite` on a descriptor with `O_APPEND` is
called with the end of the file. -/
def Recoverable (e : Entry) (a : Args) (d : Descriptor) (c : Call) : Prop :=
  match e with
  | .read | .write | .pread64 | .pread => True
  | .fread | .fwrite => a.size = 1 ∧ c.pos = d.pos + c.ret
  | .pwrite64 | .pwrite => d.append → c.off = d.length

section Given

variable {e : Entry} {a : Args} {d : Descriptor} {c : Call} {bytes : Nat} (h : Behaves e a d c bytes) (hret : 0 < c.ret)
include h hret

/-- An element has a byte, so the call returns no more elements than it transfers bytes. -/
theorem Behaves.ret_le : 0 < a.size ∧ c.ret ≤ bytes := by
  obtain ⟨part, hpart, hunits⟩ := h.units
  have hsize : 0 < a.size := Nat.zero_lt_of_lt hpart
  have hmul : c.ret * 1 ≤ c.ret * a.size := Int.mul_le_mul_of_nonneg_left (by omega) (Int.le_of_lt hret)
  constructor
  · exact hsize
  · omega

/-- The size is the result. -/
theorem Behaves.size_eq : (e.size c : Int) = c.ret := by
  have hle := (h.ret_le hret).2
  have hlt := h.bytes_lt
  exact size32_eq (Int.le_of_lt hret) (by omega)

/-- The offset that the position gives. -/
theorem Behaves.seekOff_eq : c.seekOff = c.pos - c.ret := by
  have hle := (h.ret_le hret).2
  have hlt := h.bytes_lt
  have hpos := h.pos_lt
  exact off64_eq (by omega) (by omega)

/-- The result counts the bytes exactly if the elements are bytes. -/
theorem Behaves.size_iff : e.size c = bytes ↔ a.size = 1 := by
  obtain ⟨part, hpart, hunits⟩ := h.units
  have hsize := h.size_eq hret
  constructor
  · intro heq
    by_contra hne
    have htwo : 2 ≤ a.size := by omega
    have hmul : c.ret * 2 ≤ c.ret * a.size := Int.mul_le_mul_of_nonneg_left (by omega) (Int.le_of_lt hret)
    omega
  · intro hone
    rw [hone] at hunits hpart
    omega

end Given

/-- **The recorded access is the transfer exactly when** the elements of a stream are bytes and its buffer is left empty,
and `pwrite` on a descriptor with `O_APPEND` is called with the end of the file: for every call of the wrappers, with
any arguments, descriptor and pending batch, and every pair that it gives to `batch_read_write_first` or
`batch_read_write_second`. -/
theorem given_iff {e : Entry} {a : Args} {d : Descriptor} {c : Call} {bytes : Nat} (h : Behaves e a d c bytes)
    (b : Vars) (p : Nat × Int) (hp : p ∈ e.given c b) : p = (bytes, e.start d c) ↔ Recoverable e a d c := by
  obtain ⟨rfl, hret, hoff⟩ := Entry.given_eq hp
  have hseek := h.seekOff_eq hret
  have hsize := h.size_eq hret
  have hsize_iff := h.size_iff hret
  rw [Prod.mk.injEq, hsize_iff]
  cases e with
  | read | write =>
    have hpos := h.pos (by simp)
    have hbytes : (bytes : Int) = c.ret := by
      rw [← hsize_iff.mpr (h.byteCall rfl), hsize]
    have hoff := hoff (by simp)
    simp only [Entry.off] at hoff
    simp only [Recoverable, iff_true]
    refine ⟨h.byteCall rfl, ?_⟩
    split_ifs at hpos
    · simp only [Entry.off]
      omega
    · omega
  | fread | fwrite =>
    simp only [Entry.off, Entry.start, Recoverable, hseek]
    omega
  | pread64 | pread =>
    simp only [Recoverable, iff_true]
    exact ⟨h.byteCall rfl, rfl⟩
  | pwrite64 | pwrite =>
    simp only [Entry.off, Entry.start, Recoverable]
    have hone := h.byteCall rfl
    cases d.append <;> simp [hone]

/-! ## A read, and an element read from a stream -/

/-- A call on a file that is in scope, with nothing pending. -/
def callOn (ret pos off : Int) : Call :=
  ⟨3, ret, pos, off, false, fileA, true, .mode 0x81a4, .mode 0x81a4⟩

/-- A read of 100 bytes at the position 50. -/
theorem read_recorded : (100, 50) ∈ Entry.given .read (callOn 100 150 0) Vars.init ∧
    ((100, 50) = (100, Entry.start .read ⟨50, false, 8192, true⟩ (callOn 100 150 0)) ↔
      Recoverable .read ⟨1, 100⟩ ⟨50, false, 8192, true⟩ (callOn 100 150 0)) := by
  have hgiven : (100, 50) ∈ Entry.given .read (callOn 100 150 0) Vars.init := by decide +kernel
  exact ⟨hgiven, given_iff ⟨⟨0, by decide, by decide⟩, by decide, by decide, by decide, by decide, by decide⟩ _ _ hgiven⟩

/-- **An element of four bytes at the start of a stream is recorded as one byte at 4095**: `fread` has filled the
buffer. -/
theorem fread_misrecorded : ¬ ∀ (e : Entry) (a : Args) (d : Descriptor) (c : Call) (bytes : Nat), Behaves e a d c bytes →
    ∀ (b : Vars), ∀ p ∈ e.given c b, p = (bytes, e.start d c) := by
  intro h
  have hgiven : (1, 4095) ∈ Entry.given .fread (callOn 1 4096 0) Vars.init := by decide +kernel
  have heq := h .fread ⟨4, 1⟩ ⟨0, false, 8192, true⟩ (callOn 1 4096 0) 4
    ⟨⟨0, by decide, by decide⟩, by decide, by decide, by decide, by decide, by decide⟩ _ _ hgiven
  revert heq
  decide

end Cosmost.Batch
