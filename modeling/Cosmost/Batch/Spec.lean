import Cosmost.Batch.Defs
import Mathlib.Tactic.Ring
import Mathlib.Tactic.Linarith

/-!
# What the batching functions compute

- the block interval of an access (`currStart_eq`, `currEnd_eq`), its width (`width_le`), and what a 64-bit overflow
  of the rounding makes of it (`currEnd_overflow`);
- one record: its length and its last character;
- `batchReadWriteFirst` on a range that does not wrap (`first_eq`): an access away from the range starts a new batch,
  any other is recorded and then stretches the range (`stretch`); it never returns `-1` (`first_ret`);
- the accesses that the access string lists after a trace of effects (`listed`).
-/

namespace Cosmost.Batch

open Cosmost.Lib

/-! ## Block intervals -/

/-- The most blocks one access spans, rounding included. -/
def maxBlocks : Nat := 2 ^ 20 + 2

theorem maxBlocks_eq : maxBlocks = 1048578 := rfl

theorem currStart_eq (off : Int) : currStart off = off / 4096 := by
  rw [currStart, Int.shiftRight_eq_div_pow]
  rfl

/-- Where the rounding does not overflow, `curr_end` is rounded up. -/
theorem currEnd_eq {size : Nat} {off : Int} (h0 : 0 ≤ off) (h : off + size + 4094 < 2 ^ 63) :
    currEnd size off = (off + size + 4094) / 4096 := by
  rw [currEnd, blksize, off64_eq (by omega) (by omega), Int.shiftRight_eq_div_pow]
  congr 1
  omega

/-- Where it does, `curr_end` is far below zero. -/
theorem currEnd_overflow {size : Nat} {off : Int} (h : 2 ^ 63 ≤ off + size + 4094) (h' : off + size < 2 ^ 63) :
    currEnd size off = -2 ^ 51 := by
  rw [currEnd, blksize, off64_wrap (by omega) (by omega), Int.shiftRight_eq_div_pow]
  simp only [blksizeShift]
  omega

theorem currStart_nonneg {off : Int} (h0 : 0 ≤ off) : 0 ≤ currStart off := by
  rw [currStart_eq]; omega

theorem currStart_lt {off : Int} (h : off < 2 ^ 63) : currStart off < 2 ^ 51 := by
  rw [currStart_eq]; omega

section Blocks

variable {size : Nat} {off : Int} (h1 : 1 ≤ size) (h2 : size < 2 ^ 32) (h0 : 0 ≤ off)
  (h : off + size + 4094 < 2 ^ 63)
include h0 h

theorem currEnd_lt : currEnd size off < 2 ^ 51 := by
  rw [currEnd_eq h0 h]; omega

include h1

theorem currStart_le_currEnd : currStart off ≤ currEnd size off := by
  rw [currStart_eq, currEnd_eq h0 h]; omega

include h2

theorem width_le : currEnd size off - currStart off + 1 ≤ maxBlocks := by
  rw [currStart_eq, currEnd_eq h0 h, maxBlocks]; omega

end Blocks

/-! ## Records -/

section Record

variable {size : Nat} {off : Int}

theorem length_ioRecord (size : Nat) (off : Int) :
    (ioRecord size off).length = (decimal size).length + (decimal off.toNat).length + 2 := by
  simp only [ioRecord, List.length_append, List.length_cons, List.length_nil]
  omega

theorem four_le_length_ioRecord (size : Nat) (off : Int) : 4 ≤ (ioRecord size off).length := by
  have h1 := length_decimal_pos size
  have h2 := length_decimal_pos off.toNat
  rw [length_ioRecord]
  omega

/-- The widest record: ten digits, `@`, nineteen digits and `;`. -/
theorem length_ioRecord_le (hs : size < 2 ^ 32) (ho : off < 2 ^ 63) : (ioRecord size off).length ≤ 31 := by
  have h1 := length_decimal_le (n := size) (k := 10) (by omega) (by omega)
  have h2 := length_decimal_le (n := off.toNat) (k := 19) (by omega) (by omega)
  rw [length_ioRecord]
  omega

theorem getLast_ioRecord (size : Nat) (off : Int) (s : List Char) :
    (s ++ ioRecord size off).getLast? = some ';' := by
  rw [ioRecord, ← List.cons_append, ← List.append_assoc, ← List.append_assoc, List.getLast?_concat]

/-- No record is cut off at either place that prints one. -/
theorem fits_ioRecord (hs : size < 2 ^ 32) (ho : off < 2 ^ 63) {n : Nat} (hn : 64 ≤ n) :
    fits n (ioRecord size off) = ioRecord size off :=
  fits_eq (by have := length_ioRecord_le hs ho; omega)

end Record

/-! ## The first-chance entry point -/

/-- A block range that does not wrap. -/
structure RangeOk (b : Vars) : Prop where
  off_nonneg : 0 ≤ b.lastOff
  off_lt : b.lastOff < 2 ^ 52
  size_pos : 1 ≤ b.lastSize
  size_lt : b.lastSize < 2 ^ 32

/-- `last_end`. -/
def Vars.lastEnd (b : Vars) : Int := b.lastOff + b.lastSize - 1

/-- The interval overlaps the range or is adjacent to it. -/
def Touches (b : Vars) (cs ce : Int) : Prop := cs ≤ b.lastEnd + 1 ∧ b.lastOff - 1 ≤ ce

instance (b : Vars) (cs ce : Int) : Decidable (Touches b cs ce) := inferInstanceAs (Decidable (_ ∧ _))

/-- The access string has no room for one more record. -/
def Full (b : Vars) : Prop := iostrBufsize ≤ b.access.length + 64

instance (b : Vars) : Decidable (Full b) := inferInstanceAs (Decidable (_ ≤ _))

/-- What the overlap cases do to the variables `b'` that `record_iostr` left, `b` being those before it. -/
def stretch (b : Vars) (cs ce : Int) (b' : Vars) : Vars :=
  if b.lastOff ≤ cs then
    if ce ≤ b.lastEnd then b' else { b' with lastSize := size32 (b'.lastSize + (ce - b.lastEnd)) }
  else if b.lastEnd ≤ ce then { b' with lastOff := cs, lastSize := size32 (ce - cs + 1) }
  else { b' with lastOff := cs, lastSize := size32 (b'.lastSize + (b.lastOff - cs)) }

@[simp] theorem stretch_lastFd (b : Vars) (cs ce : Int) (b' : Vars) : (stretch b cs ce b').lastFd = b'.lastFd := by
  unfold stretch; split_ifs <;> rfl

@[simp] theorem stretch_access (b : Vars) (cs ce : Int) (b' : Vars) : (stretch b cs ce b').access = b'.access := by
  unfold stretch; split_ifs <;> rfl

/-- A stretched range does not wrap either, and is longer by at most the width of the interval. -/
theorem stretch_range {b b' : Vars} {cs ce : Int} (hb : RangeOk b) (hb' : RangeOk b') (h0 : 0 ≤ cs)
    (hcs : cs < 2 ^ 51) (hle : cs ≤ ce) (hw : ce - cs + 1 ≤ maxBlocks) (ht : Touches b cs ce)
    (hsum : b'.lastSize + maxBlocks < 2 ^ 32) :
    RangeOk (stretch b cs ce b') ∧ (stretch b cs ce b').lastSize ≤ b'.lastSize + maxBlocks := by
  obtain ⟨h1, h2, h3, h4⟩ := hb
  obtain ⟨h1', h2', h3', h4'⟩ := hb'
  unfold Touches Vars.lastEnd at ht
  unfold stretch Vars.lastEnd
  split_ifs with hl hr hr
  · exact ⟨⟨h1', h2', h3', h4'⟩, by omega⟩
  · have he := size32_eq (x := b'.lastSize + (ce - (b.lastOff + b.lastSize - 1))) (by omega) (by omega)
    exact ⟨⟨h1', h2', by simp only; omega, by simp only; omega⟩, by simp only; omega⟩
  · have he := size32_eq (x := ce - cs + 1) (by omega) (by omega)
    exact ⟨⟨h0, by simp only; omega, by simp only; omega, by simp only; omega⟩, by simp only; omega⟩
  · have he := size32_eq (x := b'.lastSize + (b.lastOff - cs)) (by omega) (by omega)
    exact ⟨⟨h0, by simp only; omega, by simp only; omega, by simp only; omega⟩, by simp only; omega⟩

/-- The ends of a stretched range are those of the hull, as long as that has fewer than `2 ^ 32` blocks. -/
theorem stretch_ends {b : Vars} {cs ce : Int} (hb : RangeOk b) (str : List Char) (hle : cs ≤ ce)
    (hw : max b.lastEnd ce - min b.lastOff cs + 1 < 2 ^ 32) :
    (stretch b cs ce { b with access := str }).lastOff = min b.lastOff cs ∧
      (stretch b cs ce { b with access := str }).lastEnd = max b.lastEnd ce := by
  obtain ⟨h1, h2, h3, h4⟩ := hb
  unfold stretch
  split_ifs with hl hr hr
  · unfold Vars.lastEnd at *
    simp only; omega
  · have he := size32_eq (x := b.lastSize + (ce - b.lastEnd)) (by omega) (by unfold Vars.lastEnd at *; omega)
    unfold Vars.lastEnd at *
    simp only; omega
  · have he := size32_eq (x := ce - cs + 1) (by omega) (by omega)
    unfold Vars.lastEnd at *
    simp only; omega
  · have he := size32_eq (x := b.lastSize + (b.lastOff - cs)) (by omega) (by unfold Vars.lastEnd at *; omega)
    unfold Vars.lastEnd at *
    simp only; omega

/-! ## The two ways to write the access string -/

section Writes

variable {op : String} {fd cs ce : Int} {size : Nat} {off : Int} {b : Vars}

/-- With the string full, recording an access starts a new batch. -/
theorem recordIostr_full (h : Full b) :
    recordIostr op fd cs ce size off b = batchReadWriteNotify op fd cs ce size off b := by
  unfold Full at h
  simp only [recordIostr, h, ↓reduceIte]

/-- With room in the string, recording an access adds its record. -/
theorem recordIostr_room (h : ¬ Full b) (hs : size < 2 ^ 32) (ho : off < 2 ^ 63) :
    recordIostr op fd cs ce size off b =
      ({ b with access := b.access ++ ioRecord size off }, [.snprintf b.access.length size off]) := by
  unfold Full at h
  have hf := fits_ioRecord (n := iostrBufsize - b.access.length) hs ho (by omega)
  simp only [recordIostr, h, ↓reduceIte, hf]

/-- The variables of a new batch. -/
theorem notify_vars (hs : size < 2 ^ 32) (ho : off < 2 ^ 63) :
    (batchReadWriteNotify op fd cs ce size off b).1 =
      { b with lastFd := fd, lastOff := cs, lastSize := size32 (ce - cs + 1), access := ioRecord size off } := by
  have hf := fits_ioRecord (n := iostrBufsize) hs ho (by rw [iostrBufsize_eq]; omega)
  simp only [batchReadWriteNotify, hf]

end Writes

/-! ## The first-chance entry point, whole -/

section First

variable {op : String} {fd : Int} {size : Nat} {off : Int} {b : Vars} (hb : RangeOk b)
  (ha : ¬ invalidArgs fd size off) (hs : off < 2 ^ 63) (he : -2 ^ 52 ≤ currEnd size off)
  (he' : currEnd size off < 2 ^ 52)
include hb ha hs he he'

/-- `batch_read_write_first` without its intermediate values: the four overlap cases are all there is. -/
theorem first_eq :
    batchReadWriteFirst op fd size off b =
      if Touches b (currStart off) (currEnd size off) then
        (0, stretch b (currStart off) (currEnd size off)
            (recordIostr op fd (currStart off) (currEnd size off) size off b).1,
          (recordIostr op fd (currStart off) (currEnd size off) size off b).2)
      else (0, batchReadWriteNotify op fd (currStart off) (currEnd size off) size off b) := by
  obtain ⟨h1, h2, h3, h4⟩ := hb
  have hoff : 0 ≤ off := by simp only [invalidArgs, not_or] at ha; omega
  have hcs := currStart_nonneg hoff
  have hcs' := currStart_lt hs
  have hend : off64 (b.lastOff + b.lastSize - 1) = b.lastEnd := off64_eq (by omega) (by omega)
  have hnext : off64 (b.lastEnd + 1) = b.lastEnd + 1 := off64_eq (by unfold Vars.lastEnd; omega)
    (by unfold Vars.lastEnd; omega)
  have hprev : off64 (b.lastOff - 1) = b.lastOff - 1 := off64_eq (by omega) (by omega)
  have hcur : off64 (currEnd size off - currStart off + 1) = currEnd size off - currStart off + 1 :=
    off64_eq (by omega) (by omega)
  simp only [batchReadWriteFirst, ha, ↓reduceIte, hend, hnext, hprev, hcur]
  generalize currStart off = cs at *
  generalize currEnd size off = ce at *
  generalize recordIostr op fd cs ce size off b = r
  by_cases ht : Touches b cs ce
  · have ht' := ht
    unfold Touches at ht'
    rw [if_neg (by omega), if_pos ht]
    unfold stretch
    by_cases hle : b.lastOff ≤ cs
    · by_cases hin : ce ≤ b.lastEnd
      · rw [if_pos ⟨hle, hin⟩, if_pos hle, if_pos hin]
      · rw [if_neg (by omega), if_pos ⟨hle, by omega, by omega⟩, if_pos hle, if_neg hin]
    · rw [if_neg (by omega), if_neg (by omega), if_neg hle]
      by_cases hce : b.lastEnd ≤ ce
      · rw [if_pos ⟨by omega, hce⟩, if_pos hce]
      · rw [if_neg (by omega), if_pos ⟨by omega, by omega, by omega⟩, if_neg hce]
  · have ht' := ht
    unfold Touches at ht'
    rw [if_pos (by omega), if_neg ht]

/-- It never returns `-1`. -/
theorem first_ret : (batchReadWriteFirst op fd size off b).1 = 0 := by
  rw [first_eq hb ha hs he he']
  split_ifs <;> rfl

end First

/-! ## What the access string lists -/

section Listed

variable {α : Type*}

/-- The entries that the access string lists after one more effect: an `snprintf` at its start begins it anew, one
further on adds to it. -/
def listStep (l : List α) : α × Effect → List α
  | (a, .snprintf 0 _ _) => [a]
  | (a, .snprintf (_ + 1) _ _) => l ++ [a]
  | (_, .notify _) => l

/-- The entries that the access string lists after a trace. -/
def listed (tr : List (α × Effect)) : List α := tr.foldl listStep []

/-- Starting the string anew leaves the one entry. -/
theorem listed_notify (tr : List (α × Effect)) (a : α) (op : String) (fd cs ce : Int) (size : Nat) (off : Int)
    (b : Vars) :
    listed (tr ++ (batchReadWriteNotify op fd cs ce size off b).2.map (a, ·)) = [a] := by
  simp [listed, batchReadWriteNotify, listStep]

end Listed

end Cosmost.Batch
