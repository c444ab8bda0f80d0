import Cosmost.Limits

/-!
# The packed word of a buffer (`bblog.h`, `pack_buffer`)

A 64-bit word holds, from the top, the pid of the process, the index of the next free byte, the address of the buffer
(4096-aligned, 32 bits) and, in the low bits of the address, the number of threads that hold the buffer.

`packBuffer_toNat` and the `…_of` lemmas read the word as the sum `fields pid idx ptr refcnt`, in which adding and
subtracting increments is plain arithmetic; a field can grow past its width there, and then it carries into the next.
-/

namespace Cosmost.Bblog

/-- `PIBR_PID`. -/
def pibrPid (x : BitVec 64) : Nat := (x >>> 48).toNat

/-- `PIBR_IDX`. -/
def pibrIdx (x : BitVec 64) : Nat := ((x >>> 32) &&& 0xffff#64).toNat

/-- `PIBR_REFCNT`. -/
def pibrRefcnt (x : BitVec 64) : Nat := (x &&& 0xfff#64).toNat

/-- `PIBR_PTR`, on a word and, as the source uses it too, on an address. -/
def pibrPtr (x : BitVec 64) : Nat := (x.setWidth 32 &&& ~~~0xfff#32).toNat

/-- `pack_buffer`; `idx` and `refcnt` arrive in 16 bits. -/
def packBuffer (ptr pid idx refcnt : Nat) : BitVec 64 :=
  if pid > pidMax then 0
  else
    BitVec.ofNat 64 pid <<< 48 |||
    (BitVec.ofNat 16 idx).setWidth 64 <<< 32 |||
    (BitVec.ofNat 32 ptr &&& ~~~0xfff#32).setWidth 64 |||
    ((BitVec.ofNat 16 refcnt).setWidth 64 &&& 0xfff#64)

/-- The value of a word with these fields. -/
def fields (pid idx ptr refcnt : Nat) : Nat := pid * 2 ^ 48 + idx * 2 ^ 32 + ptr + refcnt

/-- An address that `memalign` returns: not null, in 32 bits, and on a page boundary. -/
def Page (a : Nat) : Prop := 0 < a ∧ a < 2 ^ 32 ∧ a % 4096 = 0

instance (a : Nat) : Decidable (Page a) := inferInstanceAs (Decidable (_ ∧ _ ∧ _))

/-! ## Reading a word -/

/-- Masking the low bits of an address rounds it down to a page. -/
theorem and_page (x : BitVec 32) : (x &&& ~~~0xfff#32).toNat = x.toNat / 4096 * 4096 := by
  have hmask : ~~~0xfff#32 = (BitVec.allOnes 32 >>> 12) <<< 12 := by decide
  have hshift : x &&& ~~~0xfff#32 = (x >>> 12) <<< 12 := by
    rw [hmask]
    ext i hi
    simp only [BitVec.getElem_and, BitVec.getElem_shiftLeft, BitVec.getElem_ushiftRight, BitVec.getLsbD_allOnes]
    by_cases h : i < 12
    · simp [h]
    · have : 12 + (i - 12) = i := by omega
      simp [h, this, hi, BitVec.getLsbD_eq_getElem]
  rw [hshift, BitVec.toNat_shiftLeft, BitVec.toNat_ushiftRight, Nat.shiftRight_eq_div_pow, Nat.shiftLeft_eq]
  have := x.isLt
  omega

theorem pibrPid_eq (x : BitVec 64) : pibrPid x = x.toNat / 2 ^ 48 := by
  rw [pibrPid, BitVec.toNat_ushiftRight, Nat.shiftRight_eq_div_pow]

theorem pibrIdx_eq (x : BitVec 64) : pibrIdx x = x.toNat / 2 ^ 32 % 2 ^ 16 := by
  rw [pibrIdx, BitVec.toNat_and, BitVec.toNat_ushiftRight, Nat.shiftRight_eq_div_pow]
  exact Nat.and_two_pow_sub_one_eq_mod _ 16

theorem pibrPtr_eq (x : BitVec 64) : pibrPtr x = x.toNat % 2 ^ 32 / 4096 * 4096 := by
  rw [pibrPtr, and_page, BitVec.toNat_setWidth]

/-- A page address read as a word is its own `PIBR_PTR`. -/
theorem pibrPtr_page {a : Nat} (h : Page a) : pibrPtr (BitVec.ofNat 64 a) = a := by
  obtain ⟨-, h1, h2⟩ := h
  rw [pibrPtr_eq, BitVec.toNat_ofNat]
  omega

/-! ## Packing -/

/-- Fields that do not overlap add up. -/
theorem or_eq_add {k a b : Nat} (h : b < 2 ^ k) : a * 2 ^ k ||| b = a * 2 ^ k + b := by
  rw [Nat.mul_comm, Nat.two_pow_add_eq_or_of_lt h]

theorem packBuffer_toNat {ptr pid idx refcnt : Nat} (hpid : pid ≤ pidMax) (hptr : Page ptr ∨ ptr = 0)
    (hidx : idx < 2 ^ 16) (href : refcnt < 2 ^ 12) :
    (packBuffer ptr pid idx refcnt).toNat = fields pid idx ptr refcnt := by
  rw [pidMax_eq] at hpid
  obtain ⟨q, hq, hq'⟩ : ∃ q, ptr = q * 4096 ∧ q < 2 ^ 20 := by
    rcases hptr with ⟨-, h1, h2⟩ | h
    · exact ⟨ptr / 4096, by omega, by omega⟩
    · exact ⟨0, by omega, by omega⟩
  have h1 : ((BitVec.ofNat 64 pid) <<< 48).toNat = pid * 2 ^ 48 := by
    rw [BitVec.toNat_shiftLeft, BitVec.toNat_ofNat, Nat.shiftLeft_eq]; omega
  have h2 : ((BitVec.ofNat 16 idx).setWidth 64 <<< 32).toNat = idx * 2 ^ 32 := by
    rw [BitVec.toNat_shiftLeft, BitVec.toNat_setWidth, BitVec.toNat_ofNat, Nat.shiftLeft_eq]; omega
  have h3 : ((BitVec.ofNat 32 ptr &&& ~~~0xfff#32).setWidth 64).toNat = q * 2 ^ 12 := by
    rw [BitVec.toNat_setWidth, and_page, BitVec.toNat_ofNat]; omega
  have h4 : ((BitVec.ofNat 16 refcnt).setWidth 64 &&& 0xfff#64).toNat = refcnt := by
    rw [BitVec.toNat_and, BitVec.toNat_setWidth, BitVec.toNat_ofNat, show (0xfff#64).toNat = 2 ^ 12 - 1 from rfl,
      Nat.and_two_pow_sub_one_eq_mod]
    omega
  rw [packBuffer, if_neg (by rw [pidMax_eq]; omega), BitVec.toNat_or, BitVec.toNat_or, BitVec.toNat_or, h1, h2, h3, h4,
    Nat.or_assoc, Nat.or_assoc, or_eq_add (k := 12) (by omega), or_eq_add (k := 32) (by omega),
    or_eq_add (k := 48) (by omega), fields, hq]
  omega

/-- The increment of a reservation. -/
theorem incr_toNat {size : Nat} (h : size < 2 ^ 16) : (packBuffer 0 0 size 1).toNat = size * 2 ^ 32 + 1 := by
  rw [packBuffer_toNat (Nat.zero_le _) (Or.inr rfl) h (by omega), fields]
  omega

/-! ## The fields of a word -/

section Fields

variable {x : BitVec 64} {pid idx ptr refcnt : Nat} (hx : x.toNat = fields pid idx ptr refcnt) (hptr : Page ptr)
  (href : refcnt < 2 ^ 12)
include hx hptr href

theorem pibrPtr_of : pibrPtr x = ptr := by
  obtain ⟨-, h1, h2⟩ := hptr
  rw [pibrPtr_eq, hx, fields]
  omega

/-- An index past its field carries into the pid. -/
theorem pibrPid_of : pibrPid x = pid + idx / 2 ^ 16 := by
  obtain ⟨-, h1, h2⟩ := hptr
  rw [pibrPid_eq, hx, fields]
  omega

theorem pibrIdx_of : pibrIdx x = idx % 2 ^ 16 := by
  obtain ⟨-, h1, h2⟩ := hptr
  rw [pibrIdx_eq, hx, fields]
  omega

end Fields

end Cosmost.Bblog
