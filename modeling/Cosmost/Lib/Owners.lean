import Mathlib.Logic.Function.Basic
import Mathlib.Tactic.Common

/-!
# What threads carry

Each thread is in a state, and `f` reads off the state the item that the thread carries, if any. `Sole f pc`: no item is
carried by two threads. `Carried f pc given settled`: every item that was given is settled or carried, but not both,
and carried once. A thread that goes on keeps its item (`Carried.keep`), takes a new one (`Carried.take`), settles
the one it has (`Carried.settle`) or trades it for a settled one (`Carried.trade`); a settled item may be taken away
(`Carried.retire`).
-/

namespace Cosmost.Lib

variable {τ α κ : Type*} {f : α → Option κ} {pc : τ → α} {given settled : κ → Prop}

/-- No item is carried by two threads. -/
def Sole (f : α → Option κ) (pc : τ → α) : Prop := ∀ t u k, f (pc t) = some k → f (pc u) = some k → t = u

/-- Each item that was given is settled or carried by one thread. -/
structure Carried (f : α → Option κ) (pc : τ → α) (given settled : κ → Prop) : Prop where
  sole : Sole f pc
  carried : ∀ t k, f (pc t) = some k → given k ∧ ¬ settled k
  given_of : ∀ k, settled k → given k
  placed : ∀ k, given k → settled k ∨ ∃ t, f (pc t) = some k

/-- No thread carries anything. -/
theorem Sole.of_none (h : ∀ t, f (pc t) = none) : Sole f pc := fun t u k ht => by
  rw [h t] at ht
  cases ht

/-- At first nothing is given, or what is given is settled. -/
theorem Carried.of_none (h : ∀ t, f (pc t) = none) (hg : ∀ k, given k ↔ settled k) : Carried f pc given settled where
  sole := Sole.of_none h
  carried := fun t k hk => by
    rw [h t] at hk
    cases hk
  given_of := fun k => (hg k).mpr
  placed := fun k hk => Or.inl ((hg k).mp hk)

section Update

variable [DecidableEq τ] {t : τ} {q : α}

/-- A thread goes on with an item that no other thread carries. -/
theorem Sole.update (h : Sole f pc) (hq : ∀ k, f q = some k → ∀ u, u ≠ t → f (pc u) ≠ some k) :
    Sole f (Function.update pc t q) := by
  intro u v k hu hv
  by_cases hut : u = t <;> by_cases hvt : v = t
  · rw [hut, hvt]
  · rw [hut, Function.update_self] at hu
    rw [Function.update_of_ne hvt] at hv
    exact absurd hv (hq k hu v hvt)
  · rw [hvt, Function.update_self] at hv
    rw [Function.update_of_ne hut] at hu
    exact absurd hu (hq k hv u hut)
  · rw [Function.update_of_ne hut] at hu
    rw [Function.update_of_ne hvt] at hv
    exact h u v k hu hv

/-- It carries nothing but what it carried. -/
theorem Sole.keep (h : Sole f pc) (hq : ∀ k, f q = some k → f (pc t) = some k) : Sole f (Function.update pc t q) :=
  h.update fun k hk u hu huk => hu (h u t k huk (hq k hk))

/-- What the other threads carry, and what the thread `t` does now. -/
theorem carried_update {k : κ} :
    (∃ u, f (Function.update pc t q u) = some k) ↔ f q = some k ∨ ∃ u, u ≠ t ∧ f (pc u) = some k := by
  constructor
  · rintro ⟨u, hu⟩
    by_cases hut : u = t
    · rw [hut, Function.update_self] at hu
      exact Or.inl hu
    · rw [Function.update_of_ne hut] at hu
      exact Or.inr ⟨u, hut, hu⟩
  · rintro (hq | ⟨u, hut, hu⟩)
    · exact ⟨t, by rw [Function.update_self]; exact hq⟩
    · exact ⟨u, by rw [Function.update_of_ne hut]; exact hu⟩

/-- **A thread keeps its item.** -/
theorem Carried.keep (h : Carried f pc given settled) (hq : f q = f (pc t)) :
    Carried f (Function.update pc t q) given settled where
  sole := h.sole.keep fun k hk => by rw [← hq]; exact hk
  carried := fun u k hk => by
    rcases carried_update.mp ⟨u, hk⟩ with hk | ⟨v, -, hk⟩
    · exact h.carried t k (by rw [← hq]; exact hk)
    · exact h.carried v k hk
  given_of := h.given_of
  placed := fun k hk => by
    refine (h.placed k hk).imp_right fun ⟨u, hu⟩ => carried_update.mpr ?_
    by_cases hut : u = t
    · exact Or.inl (by rw [hq, ← hut]; exact hu)
    · exact Or.inr ⟨u, hut, hu⟩

/-- **A thread that carries nothing takes a new item.** -/
theorem Carried.take {given' : κ → Prop} (h : Carried f pc given settled) {k : κ} (ht : f (pc t) = none)
    (hq : f q = some k) (hk : ¬ given k) (hgiven : ∀ x, given' x ↔ given x ∨ x = k) :
    Carried f (Function.update pc t q) given' settled where
  sole := h.sole.update fun x hx u _ hu => by
    rw [hq] at hx
    cases hx
    exact hk (h.carried u k hu).1
  carried := fun u x hx => by
    rcases carried_update.mp ⟨u, hx⟩ with hx | ⟨v, -, hx⟩
    · rw [hq] at hx
      cases hx
      exact ⟨(hgiven k).mpr (Or.inr rfl), fun hs => hk (h.given_of k hs)⟩
    · exact ⟨(hgiven x).mpr (Or.inl (h.carried v x hx).1), (h.carried v x hx).2⟩
  given_of := fun x hx => (hgiven x).mpr (Or.inl (h.given_of x hx))
  placed := fun x hx => by
    rcases (hgiven x).mp hx with hx | rfl
    · refine (h.placed x hx).imp_right fun ⟨u, hu⟩ => carried_update.mpr (Or.inr ⟨u, ?_, hu⟩)
      rintro rfl
      rw [ht] at hu
      cases hu
    · exact Or.inr (carried_update.mpr (Or.inl hq))

/-- **A thread settles its item.** -/
theorem Carried.settle {settled' : κ → Prop} (h : Carried f pc given settled) {k : κ} (ht : f (pc t) = some k)
    (hq : f q = none) (hsettled : ∀ x, settled' x ↔ settled x ∨ x = k) :
    Carried f (Function.update pc t q) given settled' where
  sole := h.sole.keep fun x hx => by
    rw [hq] at hx
    cases hx
  carried := fun u x hx => by
    rcases carried_update.mp ⟨u, hx⟩ with hx | ⟨v, hv, hx⟩
    · rw [hq] at hx
      cases hx
    · refine ⟨(h.carried v x hx).1, fun hs => ?_⟩
      rcases (hsettled x).mp hs with hs | rfl
      · exact (h.carried v x hx).2 hs
      · exact hv (h.sole v t x hx ht)
  given_of := fun x hx => by
    rcases (hsettled x).mp hx with hx | rfl
    · exact h.given_of x hx
    · exact (h.carried t x ht).1
  placed := fun x hx => by
    rcases h.placed x hx with hs | ⟨u, hu⟩
    · exact Or.inl ((hsettled x).mpr (Or.inl hs))
    · by_cases hut : u = t
      · rw [hut, ht] at hu
        cases hu
        exact Or.inl ((hsettled k).mpr (Or.inr rfl))
      · exact Or.inr (carried_update.mpr (Or.inr ⟨u, hut, hu⟩))

/-- **A thread settles its item and takes one that was settled.** -/
theorem Carried.trade {settled' : κ → Prop} (h : Carried f pc given settled) {k k' : κ} (ht : f (pc t) = some k)
    (hq : f q = some k') (hk' : settled k') (hsettled : ∀ x, settled' x ↔ x = k ∨ settled x ∧ x ≠ k') :
    Carried f (Function.update pc t q) given settled' where
  sole := h.sole.update fun x hx u _ hu => by
    rw [hq] at hx
    cases hx
    exact (h.carried u k' hu).2 hk'
  carried := fun u x hx => by
    rcases carried_update.mp ⟨u, hx⟩ with hx | ⟨v, hv, hx⟩
    · rw [hq] at hx
      cases hx
      refine ⟨h.given_of k' hk', fun hs => ?_⟩
      rcases (hsettled k').mp hs with rfl | ⟨-, hne⟩
      · exact (h.carried t k' ht).2 hk'
      · exact hne rfl
    · refine ⟨(h.carried v x hx).1, fun hs => ?_⟩
      rcases (hsettled x).mp hs with rfl | ⟨hs, -⟩
      · exact hv (h.sole v t x hx ht)
      · exact (h.carried v x hx).2 hs
  given_of := fun x hx => by
    rcases (hsettled x).mp hx with rfl | ⟨hs, -⟩
    · exact (h.carried t x ht).1
    · exact h.given_of x hs
  placed := fun x hx => by
    rcases h.placed x hx with hs | ⟨u, hu⟩
    · by_cases hxk : x = k'
      · exact Or.inr (carried_update.mpr (Or.inl (by rw [hxk]; exact hq)))
      · exact Or.inl ((hsettled x).mpr (Or.inr ⟨hs, hxk⟩))
    · by_cases hut : u = t
      · rw [hut, ht] at hu
        cases hu
        exact Or.inl ((hsettled k).mpr (Or.inl rfl))
      · exact Or.inr (carried_update.mpr (Or.inr ⟨u, hut, hu⟩))

end Update

/-- **A settled item is taken away.** -/
theorem Carried.retire {given' settled' : κ → Prop} (h : Carried f pc given settled) {k : κ} (hk : settled k)
    (hgiven : ∀ x, given' x ↔ given x ∧ x ≠ k) (hsettled : ∀ x, settled' x ↔ settled x ∧ x ≠ k) :
    Carried f pc given' settled' where
  sole := h.sole
  carried := fun u x hx => by
    obtain ⟨hg, hs⟩ := h.carried u x hx
    refine ⟨(hgiven x).mpr ⟨hg, ?_⟩, fun hs' => hs ((hsettled x).mp hs').1⟩
    rintro rfl
    exact hs hk
  given_of := fun x hx => by
    obtain ⟨hs, hne⟩ := (hsettled x).mp hx
    exact (hgiven x).mpr ⟨h.given_of x hs, hne⟩
  placed := fun x hx => by
    obtain ⟨hg, hne⟩ := (hgiven x).mp hx
    exact (h.placed x hg).imp_left fun hs => (hsettled x).mpr ⟨hs, hne⟩

/-- The settled items may be named in another way. -/
theorem Carried.congr {settled' : κ → Prop} (h : Carried f pc given settled) (hsettled : ∀ x, settled' x ↔ settled x) :
    Carried f pc given settled' := by
  obtain rfl : settled' = settled := funext fun x => propext (hsettled x)
  exact h

end Cosmost.Lib
