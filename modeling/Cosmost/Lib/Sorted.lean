import Mathlib.Data.List.Sort

/-!
# Lists put in order by a key

`sortedBy key l` puts a list in the order of its keys. Of a list with increasing keys some members may come in any order:
put in order they are a part of that list (`sortedBy_of_subset`), and all of it if all of them came
(`sortedBy_of_perm`).
-/

namespace Cosmost.Lib

variable {α β κ : Type*} [LinearOrder κ]

/-- The list in the order of its keys. -/
def sortedBy (key : α → κ) (l : List α) : List α := l.mergeSort fun a b => key a ≤ key b

theorem sortedBy_map {key : β → κ} (f : α → β) (l : List α) :
    sortedBy key (l.map f) = (sortedBy (fun a => key (f a)) l).map f := by
  unfold sortedBy
  exact (List.map_mergeSort (f := f) (s := fun a b => decide (key a ≤ key b)) fun _ _ _ _ => rfl).symm

/-- **A list with increasing keys comes back**, whatever order it was in. -/
theorem sortedBy_of_perm {key : α → κ} {l l' : List α} (h : l.Perm l') (hl : l'.Pairwise fun a b => key a < key b) :
    sortedBy key l = l' := by
  have hsorted : (sortedBy key l).Pairwise fun a b => key a ≤ key b := by
    have hmerge : (sortedBy key l).Pairwise fun a b => decide (key a ≤ key b) = true :=
      List.pairwise_mergeSort (fun a b c hab hbc => by simpa using le_trans (of_decide_eq_true hab) (of_decide_eq_true hbc))
        (fun a b => by simpa using le_total (key a) (key b)) l
    exact hmerge.imp of_decide_eq_true
  have hperm : (sortedBy key l).Perm l' := (List.mergeSort_perm l _).trans h
  refine hperm.eq_of_pairwise (fun a b ha hb hab hba => ?_) hsorted (hl.imp le_of_lt)
  -- members of the list with one key are one
  exact List.inj_on_of_nodup_map (hl.map key fun _ _ hlt => ne_of_lt hlt) (hperm.mem_iff.mp ha) hb (le_antisymm hab hba)

/-- **Some members of a list with increasing keys** are put in the order that they have there. -/
theorem sortedBy_of_subset [DecidableEq α] {key : α → κ} {l l' : List α} (hl : l.Nodup) (h : ∀ a ∈ l, a ∈ l')
    (hl' : l'.Pairwise fun a b => key a < key b) : sortedBy key l = l'.filter (· ∈ l) := by
  have hnodup : l'.Nodup := hl'.imp fun hlt heq => ne_of_lt hlt (congrArg key heq)
  refine sortedBy_of_perm ?_ (hl'.filter _)
  rw [List.perm_ext_iff_of_nodup hl (hnodup.filter _)]
  intro a
  rw [List.mem_filter, decide_eq_true_iff]
  exact ⟨fun ha => ⟨h a ha, ha⟩, And.right⟩

end Cosmost.Lib
