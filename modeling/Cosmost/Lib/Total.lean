import Mathlib.Algebra.BigOperators.Group.Finset.Piecewise
import Mathlib.Algebra.Order.BigOperators.Ring.Finset

/-!
# Counting over the threads

`total f w` adds the measure `f` of what each thread is doing over all threads. When one thread moves, the total changes
by the difference at that thread (`total_update`).
-/

namespace Cosmost.Lib

variable {τ π : Type*} [Fintype τ]

/-- The sum of `f` over the threads. -/
def total (f : π → Nat) (w : τ → π) : Nat := ∑ t, f (w t)

/-- One thread moves. -/
theorem total_update [DecidableEq τ] (f : π → Nat) (w : τ → π) (t : τ) (p : π) :
    total f (Function.update w t p) + f (w t) = total f w + f p := by
  have hmove : ∀ q, total f (Function.update w t q) = f q + ∑ u ∈ Finset.univ \ {t}, f (w u) := by
    intro q
    rw [← Finset.sum_update_of_mem (Finset.mem_univ t) (fun u => f (w u)) (f q)]
    exact Finset.sum_congr rfl fun u _ => Function.apply_update (fun _ => f) w t q u
  have hstay := hmove (w t)
  rw [Function.update_eq_self] at hstay
  rw [hmove p, hstay]
  omega

/-- Each thread counts for at most the total. -/
theorem le_total (f : π → Nat) (w : τ → π) (t : τ) : f (w t) ≤ total f w :=
  Finset.single_le_sum (f := fun u => f (w u)) (fun _ _ => Nat.zero_le _) (Finset.mem_univ t)

/-- Two threads count for at most the total. -/
theorem add_le_total (f : π → Nat) (w : τ → π) {t u : τ} (h : t ≠ u) : f (w t) + f (w u) ≤ total f w := by
  classical
  rw [total, ← Finset.sum_pair (f := fun v => f (w v)) h]
  exact Finset.sum_le_sum_of_subset (Finset.subset_univ {t, u})

/-- Nothing counts if no thread does. -/
theorem total_eq_zero {f : π → Nat} {w : τ → π} (h : ∀ t, f (w t) = 0) : total f w = 0 :=
  Finset.sum_eq_zero fun t _ => h t

/-- A bound for each thread bounds the total. -/
theorem total_le_mul {f g : π → Nat} {k : Nat} (h : ∀ p, f p ≤ k * g p) (w : τ → π) : total f w ≤ k * total g w := by
  rw [total, total, Finset.mul_sum]
  exact Finset.sum_le_sum fun t _ => h (w t)

/-- What counts at most one for each thread counts at most the threads. -/
theorem total_le_card {f : π → Nat} (h : ∀ p, f p ≤ 1) (w : τ → π) : total f w ≤ Fintype.card τ := by
  have hsum := Finset.sum_le_card_nsmul Finset.univ (fun t => f (w t)) 1 fun t _ => h (w t)
  rwa [nsmul_eq_mul, mul_one] at hsum

end Cosmost.Lib
