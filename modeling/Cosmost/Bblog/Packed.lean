import Cosmost.Bblog.Word
import Cosmost.Lib.Run
import Mathlib.Algebra.Group.Int.Defs

/-!
# The packed word under blind updates (`pack_buffer`, `_blog`)

`_blog` updates a word without looking at it: it adds an increment of the index and the count, and takes the whole of it
or the count alone back later. Nothing masks the fields. As long as the running totals stay inside their fields the sum
does not carry, and the word unpacks to the totals, with the address and the pid it was packed with
(`unpack_run`).
-/

namespace Cosmost.Bblog

open Cosmost.Lib

/-- An address whose low bits are free. -/
def Aligned (a : Nat) : Prop := a < 2 ^ 32 ∧ a % 4096 = 0

/-- An atomic update of a word in `_blog`. -/
inductive Update
  /-- `__sync_fetch_and_add(proc_pibr, incr)`. -/
  | add (size : Nat)
  /-- `__sync_fetch_and_sub(&ptr->pibr, incr)`. -/
  | sub (size : Nat)
  /-- `__sync_fetch_and_sub(&ptr->pibr, 1)`. -/
  | release

/-- The word after an update. -/
def Update.word (x : BitVec 64) : Update → BitVec 64
  | .add size => x + packBuffer 0 0 size 1
  | .sub size => x - packBuffer 0 0 size 1
  | .release => x - 1

/-- The totals of index and count. -/
structure Totals where
  idx : Int
  refcnt : Int

/-- The totals after an update. -/
def Update.totals (t : Totals) : Update → Totals
  | .add size => ⟨t.idx + size, t.refcnt + 1⟩
  | .sub size => ⟨t.idx - size, t.refcnt - 1⟩
  | .release => ⟨t.idx, t.refcnt - 1⟩

/-- The totals are inside their fields. -/
structure Totals.Inside (t : Totals) : Prop where
  idx : 0 ≤ t.idx ∧ t.idx < 2 ^ 16
  refcnt : 0 ≤ t.refcnt ∧ t.refcnt < 2 ^ 12

/-- The word unpacks to an address, a pid and totals. -/
structure Unpacks (x : BitVec 64) (ptr pid : Nat) (t : Totals) : Prop where
  ptr : pibrPtr x = ptr
  pid : pibrPid x = pid
  idx : (pibrIdx x : Int) = t.idx
  refcnt : (pibrRefcnt x : Int) = t.refcnt

/-! ## The word as a sum -/

/-- The word is the sum of its fields, none of which is past its width. -/
structure Carries (ptr pid : Nat) (x : BitVec 64) (t : Totals) : Prop where
  inside : t.Inside
  sum : (x.toNat : Int) = pid * 2 ^ 48 + t.idx * 2 ^ 32 + ptr + t.refcnt

theorem pibrRefcnt_eq (x : BitVec 64) : pibrRefcnt x = x.toNat % 2 ^ 12 := by
  rw [pibrRefcnt, BitVec.toNat_and]
  exact Nat.and_two_pow_sub_one_eq_mod _ 12

section Carries

variable {ptr pid : Nat} {x : BitVec 64} {t : Totals}

/-- A sum that does not carry can be taken apart. -/
theorem Carries.unpacks (h : Carries ptr pid x t) (hptr : Aligned ptr) : Unpacks x ptr pid t := by
  obtain ⟨h1, h2⟩ := hptr
  obtain ⟨hidx, href⟩ := h.inside
  have hsum := h.sum
  constructor
  · rw [pibrPtr_eq]; omega
  · rw [pibrPid_eq]; omega
  · rw [pibrIdx_eq]; omega
  · rw [pibrRefcnt_eq]; omega

/-- `pack_buffer` makes such a sum. -/
theorem carries_packBuffer {idx refcnt : Nat} (hptr : Aligned ptr) (hpid : pid ≤ pidMax) (hidx : idx < 2 ^ 16)
    (href : refcnt < 2 ^ 12) : Carries ptr pid (packBuffer ptr pid idx refcnt) ⟨idx, refcnt⟩ := by
  have hpage : Page ptr ∨ ptr = 0 := by
    rcases Nat.eq_zero_or_pos ptr with h0 | hpos
    · exact Or.inr h0
    · exact Or.inl ⟨hpos, hptr.1, hptr.2⟩
  refine ⟨⟨by simp only; omega, by simp only; omega⟩, ?_⟩
  rw [packBuffer_toNat hpid hpage hidx href, fields]
  simp only
  omega

/-- **An update that leaves the totals inside their fields does to the sum what it does to them**: an index that stays
below `2 ^ 16` leaves no room for a size that `pack_buffer` would cut. -/
theorem Carries.update (hptr : Aligned ptr) (hpid : pid ≤ pidMax) (h : Carries ptr pid x t) {u : Update}
    (hu : (u.totals t).Inside) : Carries ptr pid (u.word x) (u.totals t) := by
  refine ⟨hu, ?_⟩
  obtain ⟨h1, -⟩ := hptr
  obtain ⟨hidx, href⟩ := h.inside
  have hsum := h.sum
  rw [pidMax_eq] at hpid
  cases u with
  | add size =>
    obtain ⟨hidx', href'⟩ := hu
    simp only [Update.totals] at hidx' href' ⊢
    rw [Update.word, BitVec.toNat_add, incr_toNat (by omega)]
    omega
  | sub size =>
    obtain ⟨hidx', href'⟩ := hu
    simp only [Update.totals] at hidx' href' ⊢
    rw [Update.word, BitVec.toNat_sub, incr_toNat (by omega)]
    omega
  | release =>
    obtain ⟨hidx', href'⟩ := hu
    simp only [Update.totals] at hidx' href' ⊢
    rw [Update.word, BitVec.toNat_sub, show (1 : BitVec 64).toNat = 1 from rfl]
    omega

end Carries

/-! ## Runs of updates -/

/-- **The word is a faithful record under blind updates.** For every aligned address, pid, index and count that fit their
fields, and every sequence of updates along which the totals stay inside theirs: the word that `pack_buffer` makes unpacks
after them to the same address, the same pid and the totals. -/
theorem unpack_run {ptr pid idx refcnt : Nat} (hptr : Aligned ptr) (hpid : pid ≤ pidMax) (hidx : idx < 2 ^ 16)
    (href : refcnt < 2 ^ 12) (us : List Update)
    (hus : EachStep Update.totals (fun t u => (u.totals t).Inside) ⟨idx, refcnt⟩ us) :
    Unpacks (us.foldl Update.word (packBuffer ptr pid idx refcnt)) ptr pid (us.foldl Update.totals ⟨idx, refcnt⟩) := by
  have hrun : Carries ptr pid (us.foldl Update.word (packBuffer ptr pid idx refcnt))
      (us.foldl Update.totals ⟨idx, refcnt⟩) :=
    EachStep.follow (fun _ _ _ h hu => h.update hptr hpid hu) (carries_packBuffer hptr hpid hidx href) hus
  exact hrun.unpacks hptr

/-- A buffer with a prefix of 41 bytes, and two records of which one does not fit and is taken back. -/
theorem two_records_unpack :
    Unpacks ([.add 10, .add 4010, .release, .sub 4010].foldl Update.word (packBuffer 0x1000 7 41 0)) 0x1000 7 ⟨51, 0⟩ :=
  unpack_run (⟨by decide, by decide⟩ : Aligned 0x1000) (by decide) (by decide) (by decide) _
    ⟨⟨by decide, by decide⟩, ⟨by decide, by decide⟩, ⟨by decide, by decide⟩, ⟨by decide, by decide⟩, trivial⟩

end Cosmost.Bblog
