import Mathlib.Algebra.Order.Group.Int
import Mathlib.Algebra.Group.Int.Defs
import Mathlib.Data.Int.ConditionallyCompleteOrder
import Mathlib.Order.ConditionallyCompleteLattice.Basic
import Mathlib.Order.Interval.Set.Basic
import Mathlib.Tactic.Common

/-!
# The smallest interval around a set

`IsHull S lo hi`: `[lo, hi]` contains `S` and every interval that contains `S` contains `[lo, hi]`. It is unique as a
set (`IsHull.unique`); an interval is its own hull (`isHull_Icc`), and the hull of a union with one more interval
stretches to that interval's ends (`IsHull.union_Icc`).

Of the integers, cut into blocks of `n`: the blocks of a range are an interval (`blocksOfRange_eq`), and two intervals are
near when no integer lies between them (`near_Icc`).
-/

namespace Cosmost.Lib

variable {α : Type*} [LinearOrder α] {S : Set α} {lo hi lo' hi' a b : α}

/-- `[lo, hi]` is the smallest interval that contains `S`. -/
def IsHull (S : Set α) (lo hi : α) : Prop :=
  S ⊆ Set.Icc lo hi ∧ ∀ a b, S ⊆ Set.Icc a b → Set.Icc lo hi ⊆ Set.Icc a b

theorem isHull_Icc (a b : α) : IsHull (Set.Icc a b) a b := ⟨subset_rfl, fun _ _ h => h⟩

/-- The hull is unique as a set. -/
theorem IsHull.unique (h : IsHull S lo hi) (h' : IsHull S lo' hi') : Set.Icc lo hi = Set.Icc lo' hi' :=
  Set.Subset.antisymm (h.2 _ _ h'.1) (h'.2 _ _ h.1)

/-- The ends of the hull of an interval are the ends of the interval. -/
theorem IsHull.ends (hab : a ≤ b) (h : IsHull (Set.Icc a b) lo hi) : lo = a ∧ hi = b := by
  have he := h.unique (isHull_Icc a b)
  have h1 := he.symm.subset (Set.left_mem_Icc.mpr hab)
  have h2 := he.symm.subset (Set.right_mem_Icc.mpr hab)
  have hle : lo ≤ hi := h1.1.trans h1.2
  have h3 := he.subset (Set.left_mem_Icc.mpr hle)
  have h4 := he.subset (Set.right_mem_Icc.mpr hle)
  exact ⟨le_antisymm h1.1 h3.1, le_antisymm h4.2 h2.2⟩

/-- The hull of nothing is empty. -/
theorem IsHull.lt_of_empty (h : IsHull (∅ : Set α) lo hi) (hne : a < b) : hi < lo := by
  by_contra hle
  have hm : lo ∈ Set.Icc lo hi := Set.left_mem_Icc.mpr (not_lt.mp hle)
  have := h.2 b a (Set.empty_subset _) hm
  exact absurd (this.1.trans this.2) (not_le.mpr hne)

/-- One more interval stretches the hull to its ends. -/
theorem IsHull.union_Icc (h : IsHull S lo hi) (hle : lo ≤ hi) (hab : a ≤ b) :
    IsHull (S ∪ Set.Icc a b) (min lo a) (max hi b) := by
  refine ⟨?_, fun c d hS => ?_⟩
  · rintro x (hx | hx)
    · exact ⟨(min_le_left _ _).trans (h.1 hx).1, (h.1 hx).2.trans (le_max_left _ _)⟩
    · exact ⟨(min_le_right _ _).trans hx.1, hx.2.trans (le_max_right _ _)⟩
  · have hs := h.2 c d (Set.subset_union_left.trans hS)
    have hi' := Set.subset_union_right.trans hS
    have h1 := hs (Set.left_mem_Icc.mpr hle)
    have h2 := hs (Set.right_mem_Icc.mpr hle)
    have h3 := hi' (Set.left_mem_Icc.mpr hab)
    have h4 := hi' (Set.right_mem_Icc.mpr hab)
    exact Set.Icc_subset_Icc (le_min h1.1 h3.1) (max_le h2.2 h4.2)

/-! ## Blocks of integers -/

/-- The blocks of `n` integers that a range of `len` integers from `o` on has something of. -/
def blocksOfRange (n o len : Int) : Set Int := {k | ∃ x, o ≤ x ∧ x < o + len ∧ x / n = k}

/-- They are those from the block of the first integer to the block of the last. -/
theorem blocksOfRange_eq {n o len : Int} (hn : 0 < n) (hlen : 0 < len) :
    blocksOfRange n o len = Set.Icc (o / n) ((o + len - 1) / n) := by
  ext k
  constructor
  · rintro ⟨x, h1, h2, rfl⟩
    exact ⟨Int.ediv_le_ediv hn h1, Int.ediv_le_ediv hn (by omega)⟩
  · rintro ⟨h1, h2⟩
    have hlast : k * n ≤ o + len - 1 := (Int.le_ediv_iff_mul_le hn).mp h2
    rcases le_total o (k * n) with ho | ho
    · exact ⟨k * n, ho, by omega, Int.mul_ediv_cancel _ hn.ne'⟩
    · exact ⟨o, le_rfl, by omega, le_antisymm h1 ((Int.le_ediv_iff_mul_le hn).mpr ho)⟩

/-- Two sets of integers overlap or are adjacent. -/
def Near (S T : Set Int) : Prop := ∃ k ∈ S, ∃ l ∈ T, k - 1 ≤ l ∧ l ≤ k + 1

/-- Intervals are near when none ends further than one before the other begins. -/
theorem near_Icc {a b c d : Int} (hab : a ≤ b) (hcd : c ≤ d) (h1 : c ≤ b + 1) (h2 : a - 1 ≤ d) :
    Near (Set.Icc a b) (Set.Icc c d) := by
  rcases lt_or_ge b c with h | h
  · exact ⟨b, ⟨hab, le_rfl⟩, c, ⟨le_rfl, hcd⟩, by omega, by omega⟩
  · rcases lt_or_ge d a with h' | h'
    · exact ⟨a, ⟨le_rfl, hab⟩, d, ⟨hcd, le_rfl⟩, by omega, by omega⟩
    · exact ⟨max a c, ⟨by omega, by omega⟩, max a c, ⟨by omega, by omega⟩, by omega, by omega⟩

end Cosmost.Lib
