import Cosmost.Lib.MachInt
import Cosmost.Lib.Text

/-!
# What `vsnprintf` does

`Print` is the outcome of a format and its arguments: a text, of which as much is written as there is room for, or an
error, after some of the bytes. A text is untruncated if it has room with its NUL (`Print.Untruncated`); then it is in
the buffer (`Print.holds_write`), and in every case what stands before it is left alone (`Print.write_before`).
-/

namespace Cosmost.Lib

/-- An outcome of `vsnprintf`, whose result is an `int`. -/
inductive Print
  | text (s : List Char) (short : s.length < 2 ^ 31)
  | error (written : List Char) (code : Nat) (valid : code < 2 ^ 31)

/-- The result: the length of the whole text, or a negative number. -/
def Print.ret : Print → Int
  | .text s _ => s.length
  | .error _ code _ => -((code : Int) + 1)

/-- `vsnprintf(&buf[off], n, ...)`. -/
def Print.write (v : Print) (n : Nat) (buf : Bytes) (off : Nat) : Bytes :=
  if n = 0 then buf
  else
    match v with
    | .text s _ => strcpy buf off (fits n s)
    | .error written _ _ => blit buf off (written.take n)

/-- All of the text is written. -/
def Print.Untruncated (n : Nat) : Print → Prop
  | .text s _ => s.length < n
  | .error _ _ _ => False

/-- The result can be added to a size without a trace of an error: it is none, or the sum is below zero. -/
def Print.Sound (size : Nat) : Print → Prop
  | .text _ _ => True
  | .error _ code _ => size ≤ code

instance (n : Nat) : ∀ v, Decidable (Print.Untruncated n v)
  | .text _ _ => inferInstanceAs (Decidable (_ < _))
  | .error _ _ _ => isFalse not_false

instance (size : Nat) : ∀ v, Decidable (Print.Sound size v)
  | .text _ _ => isTrue trivial
  | .error _ _ _ => inferInstanceAs (Decidable (_ ≤ _))

section Write

variable {buf : Bytes} {off n : Nat}

theorem Print.write_before (v : Print) {pre : List Char} (h : Holds buf 0 pre) (hoff : pre.length ≤ off) :
    Holds (v.write n buf off) 0 pre := by
  unfold Print.write
  split_ifs
  · exact h
  · cases v <;> exact h.blit_of_le _ (by omega)

/-- An untruncated text is in the buffer. -/
theorem Print.holds_write {s : List Char} {short : s.length < 2 ^ 31} (h : s.length < n) :
    Holds ((Print.text s short).write n buf off) off s := by
  rw [Print.write, if_neg (by omega)]
  simp only [fits_eq h]
  exact (holds_blit _ _ _).left

end Write

end Cosmost.Lib
